/-
# What the decoder accepts

RFC 4648 says which texts there are, `IsText`.  The decoder accepts more: it looks at the characters
one by one, and all it asks of the padding is that no chunk is nothing but padding (`decode_iff`).
A text that it rightly accepts is what the encoder writes for the bytes it gives (`strict_iff`).

* §1 takes a text apart: its sextets are those of some bytes (`byte₀`, `byte₁`, `byte₂`), and the
  bits that do not count are zero, so it is an encoding (`IsText.exists_text`).
* §2 is the condition under which the loop goes through.  A chunk that is nothing but padding is
  refused by accident: what it counts for wraps around to the greatest number there is, for which
  there is no room.
* §3 puts the two together.  The three checks that the decoder does not make are visible in
  `strict_iff`: the length of the text, where the padding is, and the bits that do not count.
-/
import Libu.B64.RoundTrip
import Mathlib.Data.Bool.AllAny

namespace Libu.B64

/-! ## 1. Texts -/

/-- A text of RFC 4648: in fours, with at most two signs of padding at the end, and no bits before
them that do not count. -/
def IsText (s : List Char) : Prop := ∃ digits pad, s = digits ++ List.replicate pad '=' ∧ pad ≤ 2 ∧
  4 ∣ s.length ∧ (∀ c ∈ digits, c ∈ alphabet) ∧ alphabet.idxOf (digits.getLastD 'A') % 4 ^ pad = 0

section Digits

variable {v w x y : Byte}

/-- The table finds a character of the alphabet where it is in the alphabet. -/
theorem digit_idxOf : ∀ c ∈ alphabet, alphabet.idxOf c < 64 ∧
    digit (BitVec.ofNat 8 (alphabet.idxOf c)) = c :=
  List.all_iff_forall_prop.mp (by decide)

/-- A character of the alphabet is that of its sextet. -/
theorem exists_digit {c : Char} (hc : c ∈ alphabet) : ∃ v : Byte, v.toNat = alphabet.idxOf c ∧
    v.toNat < 64 ∧ c = digit v := by
  obtain ⟨hlt, heq⟩ := digit_idxOf c hc
  have hnat : (BitVec.ofNat 8 (alphabet.idxOf c)).toNat = alphabet.idxOf c := by
    rw [BitVec.toNat_ofNat]
    omega
  exact ⟨_, hnat, by rwa [hnat], heq.symm⟩

/-- The two highest bits of a sextet are zero. -/
theorem high_of_lt (hv : v.toNat < 64) : v[6] = false ∧ v[7] = false := by
  revert v
  decide

/-- With one sign of padding, the two lowest bits of the last sextet do not count, and must be zero.
-/
theorem low_of_mod (hv : v.toNat % 4 ^ 1 = 0) : v[0] = false ∧ v[1] = false := by
  revert v
  decide

/-- With two signs of padding, the four lowest bits of the last sextet must be zero. -/
theorem low_of_mod₂ (hv : v.toNat % 4 ^ 2 = 0) :
    v[0] = false ∧ v[1] = false ∧ v[2] = false ∧ v[3] = false := by
  revert v
  decide

/-- The bytes that four sextets are of. -/
def byte₀ (v w : Byte) : Byte := (v <<< 2) ||| (w >>> 4)

def byte₁ (w x : Byte) : Byte := (w <<< 4) ||| (x >>> 2)

def byte₂ (x y : Byte) : Byte := (x <<< 6) ||| y

/-- The sextets of these bytes are the four that they are put together from. -/
theorem split₀ (hv : v.toNat < 64) (hw : w.toNat < 64) : sextet₀ (byte₀ v w) = v := by
  obtain ⟨hv6, hv7⟩ := high_of_lt hv
  obtain ⟨hw6, hw7⟩ := high_of_lt hw
  exact byte_ext (by simp [sextet₀, byte₀, hv6, hv7, hw6, hw7])

theorem split₁ (hw : w.toNat < 64) (hx : x.toNat < 64) : sextet₁ (byte₀ v w) (byte₁ w x) = w := by
  obtain ⟨hw6, hw7⟩ := high_of_lt hw
  obtain ⟨hx6, hx7⟩ := high_of_lt hx
  exact byte_ext (by simp [sextet₁, byte₀, byte₁, hw6, hw7, hx6, hx7])

theorem split₂ (hx : x.toNat < 64) (hy : y.toNat < 64) : sextet₂ (byte₁ w x) (byte₂ x y) = x := by
  obtain ⟨hx6, hx7⟩ := high_of_lt hx
  obtain ⟨hy6, hy7⟩ := high_of_lt hy
  exact byte_ext (by simp [sextet₂, byte₁, byte₂, hx6, hx7, hy6, hy7])

theorem split₃ (hy : y.toNat < 64) : sextet₃ (byte₂ x y) = y := by
  obtain ⟨hy6, hy7⟩ := high_of_lt hy
  exact byte_ext (by simp [sextet₃, byte₂, hy6, hy7])

/-- Where the bits that do not count are zero, so is the byte they would be in. -/
theorem byte₂_zero (hx : x.toNat % 4 ^ 1 = 0) : byte₂ x 0 = 0 := by
  obtain ⟨h0, h1⟩ := low_of_mod hx
  exact byte_ext (by simp [byte₂, h0, h1])

theorem byte₁_zero (hw : w.toNat % 4 ^ 2 = 0) : byte₁ w 0 = 0 := by
  obtain ⟨h0, h1, h2, h3⟩ := low_of_mod₂ hw
  exact byte_ext (by simp [byte₁, h0, h1, h2, h3])

end Digits

/-- **Every text is an encoding**: its sextets, three bytes for each four of them, are encoded to it
again. -/
theorem exists_text : ∀ {digits : List Char} {pad : Nat}, pad ≤ 2 → 4 ∣ digits.length + pad →
    (∀ c ∈ digits, c ∈ alphabet) → alphabet.idxOf (digits.getLastD 'A') % 4 ^ pad = 0 →
    ∃ bytes, text bytes = digits ++ List.replicate pad '='
  | [], pad, hpad, hlen, _, _ => by
    obtain rfl : pad = 0 := by
      simp only [List.length_nil] at hlen
      omega
    exact ⟨[], rfl⟩
  | [_], pad, hpad, hlen, _, _ => by
    simp only [List.length_cons, List.length_nil] at hlen
    omega
  | [c₀, c₁], pad, hpad, hlen, hmem, hbits => by
    obtain rfl : pad = 2 := by
      simp only [List.length_cons, List.length_nil] at hlen
      omega
    obtain ⟨v, -, hv, rfl⟩ := exists_digit (hmem c₀ (by simp))
    obtain ⟨w, hidx, hw, rfl⟩ := exists_digit (hmem c₁ (by simp))
    have hzero : byte₁ w 0 = 0 := byte₁_zero (hidx ▸ hbits)
    have hsplit := split₁ (v := v) (x := 0) hw (by decide)
    rw [hzero] at hsplit
    refine ⟨[byte₀ v w], ?_⟩
    rw [text, chunkEncode_eq, split₀ hv hw, hsplit]
    rfl
  | [c₀, c₁, c₂], pad, hpad, hlen, hmem, hbits => by
    obtain rfl : pad = 1 := by
      simp only [List.length_cons, List.length_nil] at hlen
      omega
    obtain ⟨v, -, hv, rfl⟩ := exists_digit (hmem c₀ (by simp))
    obtain ⟨w, -, hw, rfl⟩ := exists_digit (hmem c₁ (by simp))
    obtain ⟨x, hidx, hx, rfl⟩ := exists_digit (hmem c₂ (by simp))
    have hzero : byte₂ x 0 = 0 := byte₂_zero (hidx ▸ hbits)
    have hsplit := split₂ (w := w) (y := 0) hx (by decide)
    rw [hzero] at hsplit
    refine ⟨[byte₀ v w, byte₁ w x], ?_⟩
    rw [text, chunkEncode_eq, split₀ hv hw, split₁ hw hx, hsplit]
    rfl
  | c₀ :: c₁ :: c₂ :: c₃ :: digits, pad, hpad, hlen, hmem, hbits => by
    obtain ⟨v, -, hv, rfl⟩ := exists_digit (hmem c₀ (by simp))
    obtain ⟨w, -, hw, rfl⟩ := exists_digit (hmem c₁ (by simp))
    obtain ⟨x, -, hx, rfl⟩ := exists_digit (hmem c₂ (by simp))
    obtain ⟨y, -, hy, rfl⟩ := exists_digit (hmem c₃ (by simp))
    have hlen' : 4 ∣ digits.length + pad := by
      simp only [List.length_cons] at hlen
      omega
    have hmem' : ∀ c ∈ digits, c ∈ alphabet := by
      intro c hc
      exact hmem c (by simp [hc])
    have hbits' : alphabet.idxOf (digits.getLastD 'A') % 4 ^ pad = 0 := by
      cases digits with
      | nil =>
        obtain rfl : pad = 0 := by
          simp only [List.length_nil] at hlen'
          omega
        exact Nat.mod_one _
      | cons d digits => exact hbits
    obtain ⟨bytes, hbytes⟩ := exists_text hpad hlen' hmem' hbits'
    refine ⟨byte₀ v w :: byte₁ w x :: byte₂ x y :: bytes, ?_⟩
    rw [text, hbytes, chunkEncode_eq, split₀ hv hw, split₁ hw hx, split₂ hx hy, split₃ hy]
    rfl

theorem IsText.exists_text {s : List Char} (h : IsText s) : ∃ bytes, text bytes = s := by
  obtain ⟨digits, pad, rfl, hpad, hlen, hmem, hbits⟩ := h
  rw [List.length_append, List.length_replicate] at hlen
  exact B64.exists_text hpad hlen hmem hbits

/-! ## 2. What is accepted -/

/-- One of the fours of `s` is nothing but padding. -/
def AllPad (s : List Char) : Prop := ∃ k, (s.drop (4 * k)).take 4 = ['=', '=', '=', '=']

/-- The table says of a character whether it is in the alphabet. -/
theorem isBase64_iff {c : Char} : isBase64 c = true ↔ c ∈ alphabet := by
  have hsmall : ∀ n < 128, (isBase64 (Char.ofNat n) = true ↔ Char.ofNat n ∈ alphabet) := by
    decide +kernel
  by_cases hc : c.toNat < 128
  · rw [← Char.ofNat_toNat c]
    exact hsmall _ hc
  · have hmem : ∀ c ∈ alphabet, c.toNat < 128 := List.all_iff_forall_prop.mp (by decide)
    have hlen : D.length ≤ c.toNat := Nat.not_lt.mp hc
    constructor
    · intro h
      rw [isBase64, List.getD_eq_getElem?_getD, List.getElem?_eq_none hlen] at h
      cases h
    · exact fun h => absurd (hmem c h) hc

/-- What the decoder asks of the characters of a chunk. -/
theorem valid_iff {buf : List Char} : buf.all (fun c => c == '=' || isBase64 c) = true ↔
    ∀ c ∈ buf, c = '=' ∨ c ∈ alphabet := by
  rw [List.all_eq_true]
  constructor
  · intro h c hc
    exact ((Bool.or_eq_true _ _).mp (h c hc)).imp eq_of_beq isBase64_iff.mp
  · intro h c hc
    exact (Bool.or_eq_true _ _).mpr ((h c hc).imp (by rintro rfl; rfl) isBase64_iff.mpr)

/-- A chunk of padding is the first one or one of the others. -/
theorem allPad_cons {c : Char} {inp : List Char} :
    AllPad (c :: inp) ↔ c :: inp.take 3 = ['=', '=', '=', '='] ∨ AllPad (inp.drop 3) := by
  have hnext : ∀ k, (c :: inp).drop (4 * (k + 1)) = (inp.drop 3).drop (4 * k) := by
    intro k
    have h4 : 4 * (k + 1) = 3 + 4 * k + 1 := by omega
    rw [h4, List.drop_succ_cons, List.drop_drop]
  constructor
  · rintro ⟨k | k, hk⟩
    · exact .inl hk
    · rw [hnext] at hk
      exact .inr ⟨k, hk⟩
  · rintro (h | ⟨k, hk⟩)
    · exact ⟨0, h⟩
    · rw [← hnext] at hk
      exact ⟨k + 1, hk⟩

theorem length_buf {c : Char} {inp : List Char} : (c :: inp.take 3).length ≤ 4 := by
  rw [List.length_cons, List.length_take]
  omega

/-- The room that a chunk takes: three bytes at most, unless it is nothing but padding, and more
than there is otherwise. -/
theorem nlen_le {buf : List Char} (hlen : buf.length ≤ 4) :
    (buf = ['=', '=', '=', '='] ∧ (nlen buf).toNat = 2 ^ 64 - 1) ∨
    (buf ≠ ['=', '=', '=', '='] ∧ (nlen buf).toNat ≤ 3) := by
  by_cases hpad : buf = ['=', '=', '=', '=']
  · subst hpad
    exact .inl ⟨rfl, rfl⟩
  · have hcount : buf.count '=' ≤ 3 := by
      by_contra hlt
      have hle := List.count_le_length (a := '=') (l := buf)
      have hall := List.count_eq_length.mp (Nat.le_antisymm hle (by omega))
      exact hpad (List.eq_replicate_iff (n := 4) |>.mpr ⟨by omega, fun c hc => (hall c hc).symm⟩)
    refine .inr ⟨hpad, ?_⟩
    rw [nlen, BitVec.toNat_sub, BitVec.toNat_ofNat]
    have h3 : (3 : BitVec 64).toNat = 3 := rfl
    omega

/-- **The loop goes through exactly when** each character is of the alphabet or padding, and no
chunk is nothing but padding.  The length does not matter: a last chunk of one character is decoded
as well. -/
theorem decodeLoop_iff {inp : List Char} {s : Decoder}
    (hroom : 3 * ((inp.length + 3) / 4) ≤ s.totSz.toNat) (hmax : s.totSz.toNat < 2 ^ 64 - 1) :
    (decodeLoop inp s).2 = true ↔ (∀ c ∈ inp, c = '=' ∨ c ∈ alphabet) ∧ ¬ AllPad inp := by
  fun_induction decodeLoop inp s with
  | case1 s =>
    refine ⟨fun _ => ⟨fun c hc => (by cases hc), ?_⟩, fun _ => rfl⟩
    rintro ⟨k, hk⟩
    rw [List.drop_nil] at hk
    cases hk
  | case2 s c inp buf hvalid hle ih =>
    have hbuf : buf.length ≤ 4 := length_buf
    simp only [List.length_cons] at hroom
    obtain ⟨-, hn⟩ | ⟨hpad, hn⟩ := nlen_le hbuf
    · rw [BitVec.le_def] at hle
      omega
    · have htot : (s.chunk buf).totSz.toNat = s.totSz.toNat - (nlen buf).toNat :=
        BitVec.toNat_sub_of_le hle
      rw [ih (by rw [htot, List.length_drop]; omega) (by omega), allPad_cons, not_or]
      have hin : ∀ x, x ∈ c :: inp ↔ x ∈ buf ∨ x ∈ inp.drop 3 := by
        intro x
        rw [← List.mem_append, List.cons_append, List.take_append_drop]
      have hmem := valid_iff.mp hvalid
      constructor
      · rintro ⟨hall, hno⟩
        exact ⟨fun x hx => ((hin x).mp hx).elim (hmem x) (hall x), hpad, hno⟩
      · rintro ⟨hall, -, hno⟩
        exact ⟨fun x hx => hall x ((hin x).mpr (.inr hx)), hno⟩
  | case3 s c inp buf hvalid hle =>
    have hbuf : buf.length ≤ 4 := length_buf
    simp only [List.length_cons] at hroom
    refine ⟨fun h => (by cases h), fun ⟨_, hno⟩ => ?_⟩
    obtain ⟨hpad, -⟩ | ⟨-, hn⟩ := nlen_le hbuf
    · exact absurd (allPad_cons.mpr (.inl hpad)) hno
    · exact absurd (BitVec.le_def.mpr (by omega)) hle
  | case4 s c inp buf hvalid =>
    refine ⟨fun h => (by cases h), fun ⟨hall, _⟩ => absurd (valid_iff.mpr fun x hx => ?_) hvalid⟩
    refine hall x ?_
    rcases List.mem_cons.mp hx with rfl | hx
    · exact List.mem_cons_self
    · exact List.mem_cons_of_mem _ (List.mem_of_mem_take hx)

/-- The same for `u_b64_decode`, which refuses the empty string besides. -/
theorem decode_iff {s : List Char} {outSz : SizeT} (hroom : 3 * ((s.length + 3) / 4) ≤ outSz.toNat)
    (hmax : outSz.toNat < 2 ^ 64 - 1) : (decode s outSz).2.2 = true ↔
      s ≠ [] ∧ (∀ c ∈ s, c = '=' ∨ c ∈ alphabet) ∧ ¬ AllPad s := by
  have hloop : (decodeLoop s ⟨fun _ => none, 0, outSz⟩).2 = true ↔ _ := decodeLoop_iff hroom hmax
  rw [decode]
  split
  · next hnil => exact ⟨fun h => (by cases h), fun h => absurd hnil h.1⟩
  · next hne =>
    rw [← hloop]
    split
    · next heq =>
      rw [heq]
      exact ⟨fun h => (by cases h), fun h => (by cases h.2)⟩
    · next heq =>
      rw [heq]
      exact ⟨fun _ => ⟨hne, rfl⟩, fun _ => rfl⟩

/-! ## 3. Strictness -/

/-- The first `n` bytes of the buffer. -/
def Buffer.bytes (out : Buffer) (n : SizeT) : List Byte :=
  (List.range n.toNat).map fun i => (out (BitVec.ofNat 64 i)).getD 0

/-- Only a text is decoded, and what it is decoded to is encoded to it again.  This is what a strict
decoder does, and what this one does only for some strings. -/
def Strict (s : List Char) (outSz : SizeT) : Prop := ∀ out n, decode s outSz = (out, n, true) →
  IsText s ∧ ∀ sz, s.length < sz → encode (out.bytes n) sz = (s ++ ['\x00'], true)

/-- A text is decoded to what it is the encoding of. -/
theorem IsText.strict {s : List Char} {outSz : SizeT} (htext : IsText s)
    (hroom : 3 * ((s.length + 3) / 4) ≤ outSz.toNat) : Strict s outSz := by
  intro out n hdec
  refine ⟨htext, fun sz hsz => ?_⟩
  obtain ⟨bytes, rfl⟩ := htext.exists_text
  have hne : bytes ≠ [] := by
    rintro rfl
    rw [text, decode, if_pos rfl] at hdec
    cases hdec
  have hlen := length_text bytes
  have hroom' : 3 * ((bytes.length + 2) / 3) ≤ outSz.toNat := by omega
  obtain ⟨out', hdec', hout⟩ := decode_text hne hroom'
  obtain ⟨rfl, rfl, -⟩ : out = out' ∧ n = BitVec.ofNat 64 bytes.length ∧ true = true := by
    rw [hdec] at hdec'
    simpa using hdec'
  have hbytes : out.bytes (BitVec.ofNat 64 bytes.length) = bytes := by
    have hlt := outSz.isLt
    rw [Buffer.bytes, BitVec.toNat_ofNat, Nat.mod_eq_of_lt (by omega)]
    refine List.ext_getElem (by simp) fun i hi hi' => ?_
    rw [List.getElem_map, List.getElem_range, hout i hi',
      List.getElem?_eq_getElem hi', Option.getD_some]
  rw [hbytes, encode_text hne (Nat.le_of_lt hsz), if_pos hsz]

/-- **When the decoder is strict.**  A string that is not a text is decoded nevertheless, unless it
is empty, or has a character that is neither of the alphabet nor padding, or has a chunk that is
nothing but padding.  (No buffer is so large that its size is the greatest there is.) -/
theorem strict_iff {s : List Char} {outSz : SizeT} (hroom : 3 * ((s.length + 3) / 4) ≤ outSz.toNat)
    (hmax : outSz.toNat < 2 ^ 64 - 1) : Strict s outSz ↔
      IsText s ∨ s = [] ∨ (∃ c ∈ s, c ∉ alphabet ∧ c ≠ '=') ∨ AllPad s := by
  have hiff := decode_iff hroom hmax
  constructor
  · intro hstrict
    by_contra hno
    simp only [not_or, not_exists, not_and, Decidable.not_not] at hno
    obtain ⟨htext, hne, hmem, hpad⟩ := hno
    have hok := hiff.mpr ⟨hne, fun c hc => or_iff_not_imp_right.mpr (hmem c hc), hpad⟩
    exact htext (hstrict _ _ (Prod.ext rfl (Prod.ext rfl hok))).1
  · rintro (htext | hbad)
    · exact htext.strict hroom
    · intro out n hdec
      have hok : (decode s outSz).2.2 = true := by rw [hdec]
      obtain ⟨hne, hmem, hpad⟩ := hiff.mp hok
      rcases hbad with hnil | ⟨c, hc, hno, hneq⟩ | hall
      · exact absurd hnil hne
      · exact absurd (hmem c hc) (not_or.mpr ⟨hneq, hno⟩)
      · exact absurd hall hpad

/-- Less than a chunk is no chunk of padding. -/
theorem not_allPad {s : List Char} (hlen : s.length < 4) : ¬ AllPad s := by
  rintro ⟨k, hk⟩
  have heq := congrArg List.length hk
  simp only [List.length_take, List.length_drop, List.length_cons, List.length_nil] at heq
  omega

/-- A text comes in fours. -/
theorem not_isText {s : List Char} (hlen : ¬ 4 ∣ s.length) : ¬ IsText s := by
  rintro ⟨digits, pad, -, -, hdvd, -⟩
  exact hlen hdvd

/-- A whole chunk, and a character that is none. -/
theorem strict_AA : Strict ['A', 'A', '=', '='] 3 ∧ ¬ Strict ['A'] 3 := by
  constructor
  · have htext : IsText ['A', 'A', '=', '='] :=
      ⟨['A', 'A'], 2, rfl, by decide, by decide, List.all_iff_forall_prop.mp (by decide), by decide⟩
    exact (strict_iff (by decide) (by decide)).mpr (.inl htext)
  · intro h
    rcases (strict_iff (by decide) (by decide)).mp h with htext | hnil | ⟨c, hc, hno, -⟩ | hall
    · exact not_isText (by decide) htext
    · cases hnil
    · obtain rfl := List.mem_singleton.mp hc
      exact hno (by decide)
    · exact not_allPad (by decide) hall

/-- A single character is decoded, to three bytes. -/
theorem decodes_A : (∀ c ∈ ['A'], c.toNat < 128) ∧
    3 * ((['A'].length + 3) / 4) ≤ (3 : SizeT).toNat ∧ ¬ Strict ['A'] 3 := by
  refine ⟨List.all_iff_forall_prop.mp (by decide), by decide, fun hstrict => ?_⟩
  have hok : (decode ['A'] 3).2.2 = true :=
    (decode_iff (by decide) (by decide)).mpr ⟨by decide, List.all_iff_forall_prop.mp (by decide),
      not_allPad (by decide)⟩
  exact not_isText (by decide) (hstrict _ _ (Prod.ext rfl (Prod.ext rfl hok))).1

end Libu.B64
