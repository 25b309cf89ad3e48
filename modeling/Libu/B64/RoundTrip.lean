/-
# Encoding and decoding again

* §1 is the format: the alphabet and the texts of RFC 4648.
* §2: what the encoder writes is `text`.
* §3: the decoder gives the bytes of a `text` back (`round_trip`).

The decoder counts in `size_t`, with everything that wraps around, and the theorem is about its own
types; there is no bound on the length of the byte string but that its chunks have room in a buffer
of that type.

A text is a list of chunks, so both directions go by one chunk at a time.  A chunk is four sextets
(`chunkEncode_eq`), and the shifts of the decoder put the bytes together again bit by bit (`join₀`,
`join₁`, `join₂`).  The decoder writes three bytes for the last chunk too, also where fewer of them
count: `Wrote` says up to where a run of it has written, and its `room` is what the result needs.
-/
import Libu.B64.Basic

namespace Libu.B64

/-! ## 1. The format -/

/-- The Base 64 alphabet of RFC 4648. -/
def alphabet : List Char :=
  (List.range 26).map (fun i => Char.ofNat ('A'.toNat + i)) ++
  (List.range 26).map (fun i => Char.ofNat ('a'.toNat + i)) ++
  (List.range 10).map (fun i => Char.ofNat ('0'.toNat + i)) ++ ['+', '/']

/-- The table of the encoder is the alphabet of the RFC. -/
theorem E_eq : E = alphabet := by decide

/-- Six bits always have a character of the alphabet. -/
theorem mem_alphabet_digit {i : Byte} (hi : i.toNat < 64) : digit i ∈ alphabet := by
  revert i
  decide

/-- What a byte string is encoded to: chunks of three bytes, the last one with one or two of them
and padding. -/
def text : List Byte → List Char
  | [] => []
  | [a] => chunkEncode a 0 0 1
  | [a, b] => chunkEncode a b 0 2
  | a :: b :: c :: bytes => chunkEncode a b c 3 ++ text bytes

/-- The characters of the alphabet in a text: all of it but the padding. -/
def body : List Byte → List Char
  | [] => []
  | [a] => (chunkEncode a 0 0 1).take 2
  | [a, b] => (chunkEncode a b 0 2).take 3
  | a :: b :: c :: bytes => chunkEncode a b c 3 ++ body bytes

@[simp] theorem length_chunkEncode (a b c : Byte) (len : Nat) :
    (chunkEncode a b c len).length = 4 := rfl

/-- Four characters for each three bytes that have been begun. -/
theorem length_text : ∀ bytes, (text bytes).length = 4 * ((bytes.length + 2) / 3)
  | [] => rfl
  | [_] => by simp [text]
  | [_, _] => by simp [text]
  | a :: b :: c :: bytes => by
    rw [text, List.length_append, length_chunkEncode, length_text bytes]
    simp only [List.length_cons]
    omega

/-- A text is its characters of the alphabet with the padding behind them, as much as the last chunk
lacks. -/
theorem text_eq : ∀ bytes, text bytes = body bytes ++ List.replicate
    ((3 - bytes.length % 3) % 3) '='
  | [] => rfl
  | [_] => rfl
  | [_, _] => rfl
  | a :: b :: c :: bytes => by
    rw [text, body, text_eq bytes, List.append_assoc]
    simp only [List.length_cons, Nat.add_assoc, Nat.reduceAdd, Nat.add_mod_right]

section Sextets

variable (a b c : Byte)

/-- The first six bits of a chunk, and below the second, third and fourth ones. -/
def sextet₀ : Byte := a >>> 2

def sextet₁ : Byte := ((a &&& 0x03) <<< 4) ||| ((b &&& 0xf0) >>> 4)

def sextet₂ : Byte := ((b &&& 0x0f) <<< 2) ||| ((c &&& 0xc0) >>> 6)

def sextet₃ : Byte := c &&& 0x3f

/-- A chunk is the characters of its four sextets, of which the last two may be padding. -/
theorem chunkEncode_eq (len : Nat) : chunkEncode a b c len = [digit (sextet₀ a),
    digit (sextet₁ a b),
    if 1 < len then digit (sextet₂ b c) else '=', if 2 < len then digit (sextet₃ c) else '='] := rfl

/-- Two bytes are equal if they are so bit by bit.  The shifts and masks are all shown this way. -/
theorem byte_ext {x y : Byte} (h : x[0] = y[0] ∧ x[1] = y[1] ∧ x[2] = y[2] ∧ x[3] = y[3] ∧
    x[4] = y[4] ∧ x[5] = y[5] ∧ x[6] = y[6] ∧ x[7] = y[7]) : x = y := by
  obtain ⟨h0, h1, h2, h3, h4, h5, h6, h7⟩ := h
  ext i hi
  have h8 : i = 0 ∨ i = 1 ∨ i = 2 ∨ i = 3 ∨ i = 4 ∨ i = 5 ∨ i = 6 ∨ i = 7 := by omega
  rcases h8 with rfl | rfl | rfl | rfl | rfl | rfl | rfl | rfl <;> assumption

/-- Without its two highest bits a byte is one of the 64 values that have a character. -/
theorem sextet_lt {i : Byte} (h : i &&& 0xc0 = 0) : i.toNat < 64 := by
  revert i
  decide

theorem sextet₀_lt : (sextet₀ a).toNat < 64 := sextet_lt (byte_ext (by simp [sextet₀]))

theorem sextet₁_lt : (sextet₁ a b).toNat < 64 := sextet_lt (byte_ext (by simp [sextet₁]))

theorem sextet₂_lt : (sextet₂ b c).toNat < 64 := sextet_lt (byte_ext (by simp [sextet₂]))

theorem sextet₃_lt : (sextet₃ c).toNat < 64 := sextet_lt (byte_ext (by simp [sextet₃]))

end Sextets

/-- All but the padding is of the alphabet. -/
theorem mem_body {c : Char} : ∀ {bytes : List Byte}, c ∈ body bytes → c ∈ alphabet
  | [], h => by cases h
  | [a], h => by
    simp only [body, chunkEncode_eq, List.take, List.mem_cons, List.not_mem_nil, or_false] at h
    rcases h with rfl | rfl
    · exact mem_alphabet_digit (sextet₀_lt _)
    · exact mem_alphabet_digit (sextet₁_lt _ _)
  | [a, b], h => by
    simp only [body, chunkEncode_eq, List.take, List.mem_cons, List.not_mem_nil, or_false] at h
    rcases h with rfl | rfl | rfl
    · exact mem_alphabet_digit (sextet₀_lt _)
    · exact mem_alphabet_digit (sextet₁_lt _ _)
    · exact mem_alphabet_digit (sextet₂_lt _ _)
  | a :: b :: d :: bytes, h => by
    rcases List.mem_append.mp h with h | h
    · simp only [chunkEncode_eq, List.mem_cons, List.not_mem_nil, or_false] at h
      rcases h with rfl | rfl | rfl | rfl
      · exact mem_alphabet_digit (sextet₀_lt _)
      · exact mem_alphabet_digit (sextet₁_lt _ _)
      · exact mem_alphabet_digit (sextet₂_lt _ _)
      · exact mem_alphabet_digit (sextet₃_lt _)
    · exact mem_body h

/-! ## 2. The encoder -/

/-- One turn of the loop: with room for four characters, a chunk is written, and the rest goes on
with four less. -/
theorem encodeLoop_cons {a : Byte} {bytes : List Byte} {sz : Nat} (hsz : 4 ≤ sz) :
    encodeLoop (a :: bytes) sz =
      (chunkEncode a (bytes.getD 0 0) (bytes.getD 1 0) (min 3 (bytes.length + 1)) ++
        (encodeLoop (bytes.drop 2) (sz - 4)).1, (encodeLoop (bytes.drop 2) (sz - 4)).2) := by
  rw [encodeLoop, if_pos hsz]

/-- Where there is enough room, the text is written, and what is left is the room behind it. -/
theorem encodeLoop_text : ∀ {bytes : List Byte} {sz : Nat}, (text bytes).length ≤ sz →
    encodeLoop bytes sz = (text bytes, some (sz - (text bytes).length))
  | [], sz, _ => by rw [encodeLoop]; rfl
  | [a], sz, hsz => by
    rw [encodeLoop_cons hsz, List.drop_nil, encodeLoop]
    rfl
  | [a, b], sz, hsz => by
    rw [encodeLoop_cons hsz]
    simp only [List.drop_succ_cons, List.drop_nil, encodeLoop]
    rfl
  | a :: b :: c :: bytes, sz, hsz => by
    rw [text, List.length_append, length_chunkEncode] at hsz
    rw [encodeLoop_cons (Nat.le_trans (Nat.le_add_right _ _) hsz)]
    simp only [List.drop_succ_cons, List.drop_zero]
    rw [encodeLoop_text (Nat.le_sub_of_add_le' hsz), text, List.length_append, length_chunkEncode,
      Nat.sub_sub]
    have hlen : min 3 ((b :: c :: bytes).length + 1) = 3 := by
      simp only [List.length_cons]
      omega
    rw [hlen]
    rfl

/-- Where there is not, the loop gives up, however much it has written until then. -/
theorem encodeLoop_short : ∀ {bytes : List Byte} {sz : Nat}, sz < (text bytes).length →
    (encodeLoop bytes sz).2 = none
  | [], _, h => absurd h (Nat.not_lt_zero _)
  | [a], sz, h => by
    have hsz : ¬ 4 ≤ sz := Nat.not_le.mpr h
    rw [encodeLoop, if_neg hsz]
  | [a, b], sz, h => by
    have hsz : ¬ 4 ≤ sz := Nat.not_le.mpr h
    rw [encodeLoop, if_neg hsz]
  | a :: b :: c :: bytes, sz, h => by
    by_cases hsz : 4 ≤ sz
    · rw [encodeLoop_cons hsz]
      rw [text, List.length_append, length_chunkEncode] at h
      have hlt : sz - 4 < (text bytes).length := by omega
      exact encodeLoop_short hlt
    · rw [encodeLoop, if_neg hsz]

/-- `u_b64_encode` with room for the text: a NUL is written behind it only if that fits as well. -/
theorem encode_text {bytes : List Byte} {sz : Nat} (hne : bytes ≠ [])
    (hsz : (text bytes).length ≤ sz) :
    encode bytes sz = (text bytes ++ if (text bytes).length < sz then ['\x00'] else [], true) := by
  have hpos : 0 < (text bytes).length := by
    rw [length_text]
    have := List.length_pos_of_ne_nil hne
    omega
  rw [encode, if_neg (by rintro (h | h); exacts [hne h, by omega]), encodeLoop_text hsz]
  by_cases hlt : (text bytes).length < sz
  · rw [if_pos hlt]
    exact congrArg (·, true) (if_pos (Nat.sub_pos_of_lt hlt))
  · rw [if_neg hlt, List.append_nil]
    exact congrArg (·, true) (if_neg (by omega))

/-- `u_b64_encode` without room for the text fails. -/
theorem encode_short {bytes : List Byte} {sz : Nat} (hsz : sz < (text bytes).length) :
    (encode bytes sz).2 = false := by
  have hnone := encodeLoop_short hsz
  rw [encode]
  split
  · rfl
  · split
    · rfl
    · next heq => rw [heq] at hnone; cases hnone

/-! ## 3. The decoder -/

section Decoder

variable {a b c : Byte} {len : Nat} {s : Decoder}

/-- The decoder does not refuse what the encoder writes. -/
theorem chunkEncode_valid : (chunkEncode a b c len).all (fun c => c == '=' || isBase64 c) =
    true := by
  have hdigit : ∀ {i : Byte}, i.toNat < 64 → (digit i == '=' || isBase64 (digit i)) = true := by
    intro i hi
    rw [isBase64_digit hi, Bool.or_true]
  have hpad : ∀ {i : Byte} {n : Nat}, i.toNat < 64 →
      ((if n < len then digit i else '=') == '=' || isBase64 (if n < len then digit i else '=')) =
      true := by
    intro i n hi
    split
    · exact hdigit hi
    · rfl
  simp only [chunkEncode_eq, List.all_cons, List.all_nil, hdigit (sextet₀_lt _),
    hdigit (sextet₁_lt _ _), hpad (sextet₂_lt _ _), hpad (sextet₃_lt _), Bool.and_true]

/-- The bytes of a chunk are those that count in it. -/
theorem nlen_chunkEncode (h0 : 0 < len) (h3 : len ≤ 3) : nlen (chunkEncode a b c len) =
    BitVec.ofNat 64 len := by
  have hlen : len = 1 ∨ len = 2 ∨ len = 3 := by omega
  rcases hlen with rfl | rfl | rfl
  · simp [nlen, chunkEncode_eq, digit_ne (sextet₀_lt _), digit_ne (sextet₁_lt _ _)]
  · simp [nlen, chunkEncode_eq, digit_ne (sextet₀_lt _), digit_ne (sextet₁_lt _ _),
      digit_ne (sextet₂_lt _ _)]
  · simp [nlen, chunkEncode_eq, digit_ne (sextet₀_lt _), digit_ne (sextet₁_lt _ _),
      digit_ne (sextet₂_lt _ _), digit_ne (sextet₃_lt _)]

/-- The shifts of the decoder undo those of the encoder: the first byte of the chunk, and below the
other two. -/
theorem join₀ : (((sextet₀ a).setWidth 64 <<< 2 ||| (sextet₁ a b).setWidth 64 >>>
    4).setWidth 8 : Byte) = a :=
  byte_ext (by simp [sextet₀, sextet₁])

theorem join₁ : ((((sextet₁ a b).setWidth 64 &&& 0x0f) <<< 4 |||
    (sextet₂ b c).setWidth 64 >>> 2).setWidth 8 : Byte) = b :=
  byte_ext (by simp [sextet₁, sextet₂])

theorem join₂ : ((((sextet₂ b c).setWidth 64 &&& 0x03) <<< 6 ||| (sextet₃ c).setWidth
    64).setWidth 8 : Byte) = c :=
  byte_ext (by simp [sextet₂, sextet₃])

/-- The bytes that count are those that the encoder has been given; the others are not promised. -/
theorem chunkDecode_take (h0 : 0 < len) (h3 : len ≤ 3) :
    (chunkDecode (digit (sextet₀ a)) (digit (sextet₁ a b))
    (if 1 < len then digit (sextet₂ b c) else '=')
    (if 2 < len then digit (sextet₃ c) else '=')).take len =
      [a, b, c].take len := by
  have hlen : len = 1 ∨ len = 2 ∨ len = 3 := by omega
  rw [chunkDecode, val_digit (sextet₀_lt a), val_digit (sextet₁_lt a b), join₀]
  rcases hlen with rfl | rfl | rfl
  · rfl
  · rw [if_pos Nat.one_lt_two, val_digit (sextet₂_lt b c), join₁]
    rfl
  · rw [if_pos (by decide), if_pos (by decide), val_digit (sextet₂_lt b c),
      val_digit (sextet₃_lt c), join₁, join₂]

/-- A byte that is written over is the one that has been written. -/
theorem getElem?_write {out : Buffer} {p i : SizeT} {bytes : List Byte}
    (hi : (i - p).toNat < bytes.length) : out.write p bytes i = bytes[(i - p).toNat]? := by
  rw [Buffer.write, List.getElem?_eq_getElem hi]

/-- A byte that is not keeps what it was. -/
theorem write_of_le {out : Buffer} {p i : SizeT} {bytes : List Byte}
    (hi : bytes.length ≤ (i - p).toNat) : out.write p bytes i = out i := by
  rw [Buffer.write, List.getElem?_eq_none hi]

/-- The distance from a position to one behind it. -/
theorem toNat_sub_add {i p : SizeT} {n : Nat} (hn : n < 2 ^ 64) :
    (i - (p + BitVec.ofNat 64 n)).toNat =
    if n ≤ (i - p).toNat then (i - p).toNat - n else 2 ^ 64 + (i - p).toNat - n := by
  have hi := i.isLt
  have hp := p.isLt
  rw [BitVec.toNat_sub, BitVec.toNat_sub, BitVec.toNat_add, BitVec.toNat_ofNat, Nat.mod_eq_of_lt hn]
  split <;> omega

/-- From `s` to `s'` the decoder has written `bytes`, and nothing that is not among the next `room`
bytes of the buffer.  The two are not the same: the last chunk writes three bytes for one that
counts. -/
structure Wrote (s s' : Decoder) (bytes : List Byte) (room : Nat) : Prop where
  totSz : s'.totSz.toNat + bytes.length = s.totSz.toNat
  pout : s'.pout = s.pout + BitVec.ofNat 64 bytes.length
  out : ∀ i, (i - s.pout).toNat < bytes.length → s'.out i = bytes[(i - s.pout).toNat]?
  rest : ∀ i, room ≤ (i - s.pout).toNat → s'.out i = s.out i

theorem Wrote.refl (s : Decoder) : Wrote s s [] 0 :=
  ⟨rfl, (BitVec.add_zero _).symm, fun _ hi => absurd hi (Nat.not_lt_zero _), fun _ _ => rfl⟩

/-- A chunk whose bytes all count, and what comes behind it: the room of the two is one behind the
other. -/
theorem Wrote.trans {s s' s'' : Decoder} {x y : List Byte} {room : Nat} (h : Wrote s s' x x.length)
    (h' : Wrote s' s'' y room) (hroom : x.length + room < 2 ^ 64) :
    Wrote s s'' (x ++ y) (x.length + room) := by
  have hdist : ∀ i, (i - s'.pout).toNat = if x.length ≤ (i - s.pout).toNat then
      (i - s.pout).toNat - x.length else 2 ^ 64 + (i - s.pout).toNat - x.length := by
    intro i
    rw [h.pout, toNat_sub_add (by omega)]
  constructor
  · have hx := h.totSz
    have hy := h'.totSz
    rw [List.length_append]
    omega
  · rw [h'.pout, h.pout, List.length_append, BitVec.ofNat_add, BitVec.add_assoc]
  · intro i hi
    rw [List.length_append] at hi
    have hd := hdist i
    split at hd
    · next hle =>
      rw [h'.out i (by omega), List.getElem?_append_right hle, hd]
    · next hlt =>
      rw [h'.rest i (by omega), h.out i (by omega), List.getElem?_append_left (by omega)]
  · intro i hi
    have hd := hdist i
    rw [if_pos (by omega)] at hd
    rw [h'.rest i (by omega), h.rest i (by omega)]

/-- One turn of the loop, where the chunk is valid and there is room for the bytes that count. -/
theorem decodeLoop_cons {c : Char} {inp : List Char} (hvalid : (c :: inp.take 3).all
    (fun c => c == '=' || isBase64 c) = true) (hroom : nlen (c :: inp.take 3) ≤ s.totSz) :
    decodeLoop (c :: inp) s = decodeLoop (inp.drop 3) (s.chunk (c :: inp.take 3)) := by
  rw [decodeLoop]
  exact (if_pos hvalid).trans (if_pos hroom)

/-- One turn of the loop on a chunk of the encoder, with more text behind it. -/
theorem decodeLoop_chunkEncode {rest : List Char} (h0 : 0 < len) (h3 : len ≤ 3)
    (hroom : len ≤ s.totSz.toNat) :
    decodeLoop (chunkEncode a b c len ++ rest) s =
    decodeLoop rest (s.chunk (chunkEncode a b c len)) := by
  refine decodeLoop_cons chunkEncode_valid ?_
  have hn : nlen (chunkEncode a b c len) ≤ s.totSz := by
    rw [nlen_chunkEncode h0 h3, BitVec.le_def, BitVec.toNat_ofNat]
    omega
  exact hn

/-- A chunk of the encoder is decoded to the bytes it is made of, within three bytes. -/
theorem chunk_wrote (h0 : 0 < len) (h3 : len ≤ 3) (hroom : len ≤ s.totSz.toNat) :
    Wrote s (s.chunk (chunkEncode a b c len)) ([a, b, c].take len) 3 := by
  have hlen : ([a, b, c].take len).length = len := by
    rw [List.length_take]
    exact Nat.min_eq_left h3
  have hn := nlen_chunkEncode (a := a) (b := b) (c := c) h0 h3
  constructor
  · simp only [Decoder.chunk, hn, hlen, BitVec.toNat_sub, BitVec.toNat_ofNat]
    have := s.totSz.isLt
    omega
  · simp only [Decoder.chunk, hn, hlen]
  · intro i hi
    rw [hlen] at hi
    have hbytes : (s.chunk (chunkEncode a b c len)).out i =
      (chunkDecode _ _ _ _)[(i - s.pout).toNat]? :=
      getElem?_write (Nat.lt_of_lt_of_le hi h3)
    rw [hbytes, ← chunkDecode_take h0 h3, List.getElem?_take, if_pos hi]
    rfl
  · intro i hi
    exact write_of_le hi

/-- The last chunk, with nothing behind it. -/
theorem decodeLoop_last (h0 : 0 < len) (h3 : len ≤ 3) (hroom : len ≤ s.totSz.toNat) :
    decodeLoop (chunkEncode a b c len) s = (s.chunk (chunkEncode a b c len), true) := by
  rw [← List.append_nil (chunkEncode a b c len), decodeLoop_chunkEncode h0 h3 hroom, decodeLoop]
  rfl

/-- **The loop of the decoder**, on what the encoder writes: it gives the bytes back, in as many
threes as there are chunks. -/
theorem decodeLoop_text : ∀ {bytes : List Byte} {s : Decoder},
    3 * ((bytes.length + 2) / 3) ≤ s.totSz.toNat →
    ∃ s', decodeLoop (text bytes) s = (s', true) ∧ Wrote s s' bytes (3 * ((bytes.length + 2) / 3))
  | [], s, _ => ⟨s, by rw [text, decodeLoop], .refl s⟩
  | [a], s, h => by
    have hlen : 3 * (([a].length + 2) / 3) = 3 := by simp
    rw [hlen] at h ⊢
    have hroom : 1 ≤ s.totSz.toNat := Nat.le_trans (by decide) h
    exact ⟨_, decodeLoop_last Nat.one_pos (by decide) hroom, chunk_wrote Nat.one_pos
      (by decide) hroom⟩
  | [a, b], s, h => by
    have hlen : 3 * (([a, b].length + 2) / 3) = 3 := by simp
    rw [hlen] at h ⊢
    have hroom : 2 ≤ s.totSz.toNat := Nat.le_trans (by decide) h
    exact ⟨_, decodeLoop_last Nat.two_pos (by decide) hroom, chunk_wrote Nat.two_pos
      (by decide) hroom⟩
  | a :: b :: c :: bytes, s, h => by
    have hlen : 3 * (((a :: b :: c :: bytes).length + 2) / 3) = 3 + 3 *
      ((bytes.length + 2) / 3) := by
      simp only [List.length_cons]
      omega
    rw [hlen] at h ⊢
    have hroom : 3 ≤ s.totSz.toNat := Nat.le_trans (Nat.le_add_right _ _) h
    have hchunk : Wrote s (s.chunk (chunkEncode a b c 3)) ([a, b, c].take 3) 3 :=
      chunk_wrote (by decide) (Nat.le_refl _) hroom
    have hleft := hchunk.totSz
    have hlt := s.totSz.isLt
    rw [List.take_of_length_le (by simp)] at hchunk hleft
    simp only [List.length_cons, List.length_nil] at hleft
    have hroom' : 3 * ((bytes.length + 2) / 3) ≤
      (s.chunk (chunkEncode a b c 3)).totSz.toNat := by omega
    obtain ⟨s', hdec, hwrote⟩ := decodeLoop_text hroom'
    refine ⟨s', ?_, hchunk.trans hwrote (by simp only [List.length_cons, List.length_nil]; omega)⟩
    rw [text, decodeLoop_chunkEncode (by decide) (Nat.le_refl _) hroom, hdec]

/-- `u_b64_decode` on a text, with room for three bytes a chunk: the bytes that the text has been
made of, and their number. -/
theorem decode_text {bytes : List Byte} {outSz : SizeT} (hne : bytes ≠ [])
    (hsz : 3 * ((bytes.length + 2) / 3) ≤ outSz.toNat) : ∃ out,
    decode (text bytes) outSz = (out, BitVec.ofNat 64 bytes.length, true) ∧
      ∀ i < bytes.length, out (BitVec.ofNat 64 i) = bytes[i]? := by
  obtain ⟨s, hdec, hwrote⟩ := decodeLoop_text (s := ⟨fun _ => none, 0, outSz⟩) hsz
  have htot : s.totSz.toNat + bytes.length = outSz.toNat := hwrote.totSz
  have hlt := outSz.isLt
  have hnil : text bytes ≠ [] := by
    intro h
    have hlen := length_text bytes
    have := List.length_pos_of_ne_nil hne
    rw [h] at hlen
    simp only [List.length_nil] at hlen
    omega
  refine ⟨s.out, ?_, fun i hi => ?_⟩
  · rw [decode, if_neg hnil, hdec]
    have hsub : outSz - s.totSz = BitVec.ofNat 64 bytes.length := by
      apply BitVec.eq_of_toNat_eq
      rw [BitVec.toNat_sub, BitVec.toNat_ofNat]
      omega
    exact congrArg (fun n => (s.out, n, true)) hsub
  · have hpos : (BitVec.ofNat 64 i - 0#64).toNat = i := by
      rw [BitVec.sub_zero, BitVec.toNat_ofNat, Nat.mod_eq_of_lt (by omega)]
    have hout : (BitVec.ofNat 64 i - 0#64).toNat < bytes.length →
      s.out (BitVec.ofNat 64 i) = bytes[(BitVec.ofNat 64 i - 0#64).toNat]? := hwrote.out _
    rw [hpos] at hout
    exact hout hi

end Decoder

/-- **Encoding and decoding** of a byte string.  It takes four characters for three bytes, and a
byte string that is decoded from them comes out as it was.  The encoder succeeds if and only if the
characters fit, the NUL behind them is written where there is room for it, and the decoder needs
room for whole chunks. -/
theorem round_trip {bytes : List Byte} (hne : bytes ≠ []) (outSz : Nat) :
    ((encode bytes outSz).2 = true ↔ 4 * ((bytes.length + 2) / 3) ≤ outSz) ∧
    ((encode bytes outSz).2 = true → ∃ chars digits,
      (encode bytes outSz).1 = chars ++ (if chars.length < outSz then ['\x00'] else []) ∧
      chars.length = 4 * ((bytes.length + 2) / 3) ∧
      chars = digits ++ List.replicate ((3 - bytes.length % 3) % 3) '=' ∧
      (∀ c ∈ digits, c ∈ alphabet) ∧
      ∀ decSz : SizeT, 3 * ((bytes.length + 2) / 3) ≤ decSz.toNat → ∃ out,
        decode chars decSz = (out, BitVec.ofNat 64 bytes.length, true) ∧
          ∀ i < bytes.length, out (BitVec.ofNat 64 i) = bytes[i]?) := by
  have hiff : (encode bytes outSz).2 = true ↔ 4 * ((bytes.length + 2) / 3) ≤ outSz := by
    rw [← length_text]
    constructor
    · intro hok
      by_contra hlt
      rw [encode_short (Nat.not_le.mp hlt)] at hok
      cases hok
    · intro hle
      rw [encode_text hne hle]
  refine ⟨hiff, fun hok => ⟨text bytes, body bytes, ?_, length_text bytes, text_eq bytes, ?_, ?_⟩⟩
  · rw [encode_text hne (by rw [length_text]; exact hiff.mp hok)]
  · exact fun c hc => mem_body hc
  · exact fun decSz hsz => decode_text hne hsz

/-- "fo" takes four characters, and five with the NUL. -/
theorem round_trip_fo : (encode [0x66, 0x6f] 4).2 = true ∧ ∃ chars : List Char, chars.length = 4 ∧
    (encode [0x66, 0x6f] 5).1 = chars ++ ['\x00'] := by
  have hne : [(0x66 : Byte), 0x6f] ≠ [] := by decide
  have hok : (encode [0x66, 0x6f] 5).2 = true := (round_trip hne 5).1.mpr (by decide)
  obtain ⟨chars, digits, hchars, hlen, -⟩ := (round_trip hne 5).2 hok
  have h4 : chars.length = 4 := hlen
  rw [h4] at hchars
  exact ⟨(round_trip hne 4).1.mpr (by decide), chars, h4, hchars⟩

end Libu.B64
