/-
# `u_string_t` is a string

Every call on a `u_string_t` is compared with a step on a list of bytes (`Op.apply`).

* `Begins`: the block starts with the bytes of the string, and capacity, length and the count of
  the doubling loop fit together.  Both ways to grow keep it, but a grown block may have lost the
  NUL, and one that replaces `null` never had it.
* `Holds`: the NUL is there as well.  `Begins.finish` brings it back.
* `grow_spec`, `vprintfLoop_spec`: the retry loops end, the second in its second round.
* `appendOwn_spec`, `appendOwn_released`, `set_own_cleared`: a text that is in the block of the
  string it is appended to has to stay where it is.
* `strings_refine_iff`: a run of calls on any number of strings, in which no `int` overflows
  (`Op.Allowed`), follows the lists if and only if no call loses its own text (`Op.Apart`).
-/
import Libu.Str.Basic
import Libu.Verif.Run
import Mathlib.Data.List.DropRight

namespace Libu.Str

open Verif

variable {s s' : Str} {t u : List UInt8}

/-! ## 1. The invariant -/

/-- **The block starts with the bytes `t`.** -/
structure Begins (s : Str) (t : List UInt8) : Prop where
  nul_free : 0 ∉ t
  bytes : slice s.block.byte 0 t.length = t
  room : t.length ≤ s.dataSz
  size : s.block.size = s.dataSz + 1
  data : s.data = none ↔ s.dataSz = 0
  shift : blockSize * 2 ^ s.shiftCnt ≤ s.dataSz + blockSize
  sz_le : s.dataSz ≤ intMax

/-- A NUL follows them. -/
structure Ends (s : Str) (t : List UInt8) : Prop extends Begins s t where
  nul : s.block.byte t.length = 0

/-- **The string is `t`.** -/
structure Holds (s : Str) (t : List UInt8) : Prop extends Ends s t where
  len : s.dataLen = t.length

/-- A length for which no `int` overflows: the capacity that a print asks for, at most three times
the length, is still an `int`. -/
def Fits (n : Nat) : Prop := 3 * n + 1 ≤ intMax

instance (n : Nat) : Decidable (Fits n) := inferInstanceAs (Decidable (_ ≤ _))

/-- A string without a block, whose NUL is the one of `null`. -/
theorem holds_null : Holds ⟨none, 0, 0, 0, nullCstr⟩ [] :=
  ⟨⟨⟨by simp, rfl, le_refl 0, rfl, ⟨fun _ => rfl, fun _ => rfl⟩, by decide, by decide⟩, rfl⟩, rfl⟩

theorem Ends.cstr (h : Ends s t) : CStr s.block 0 t := by
  have hroom := h.room
  have hsize := h.size
  refine ⟨h.nul_free, by omega, h.bytes, ?_⟩
  rw [Nat.zero_add]
  exact h.nul

theorem Begins.withLen (h : Begins s t) (n : Nat) : Begins { s with dataLen := n } t :=
  ⟨h.nul_free, h.bytes, h.room, h.size, h.data, h.shift, h.sz_le⟩

theorem Ends.holds (h : Ends s t) {n : Nat} (hn : n = t.length) : Holds { s with dataLen := n } t :=
  ⟨⟨h.toBegins.withLen n, h.nul⟩, hn⟩

/-- The bytes, cut short. -/
theorem Begins.take (h : Begins s t) {n : Nat} (hn : n ≤ t.length) : Begins s (t.take n) := by
  have hlen : (t.take n).length = n := List.length_take_of_le hn
  refine ⟨fun hmem => h.nul_free (List.mem_of_mem_take hmem), ?_,
    hlen.le.trans (hn.trans h.room), h.size, h.data, h.shift, h.sz_le⟩
  have htake := take_slice s.block.byte 0 hn
  rw [h.bytes] at htake
  rw [hlen]
  exact htake.symm

theorem block_of_some {b : Block UInt8} (hb : s.data = some b) : s.block = b := by
  rw [block, hb]
  rfl

/-- A string with a capacity has a block of its own, and stores within it go there. -/
theorem Begins.store_eq (h : Begins s t) (hsz : s.dataSz ≠ 0) {off : Nat} {bs : List UInt8}
    (hfit : off + bs.length ≤ s.dataSz + 1) :
    s.store off bs = some { s with data := some ⟨s.dataSz + 1, overlay s.block.byte off bs⟩ } ∧
      s.block.store off bs = some ⟨s.dataSz + 1, overlay s.block.byte off bs⟩ := by
  obtain ⟨b, hb⟩ := Option.ne_none_iff_exists'.mp fun hnone => hsz (h.data.mp hnone)
  have hblock := block_of_some hb
  have hsize := h.size
  have hst : s.block.store off bs = some ⟨s.dataSz + 1, overlay s.block.byte off bs⟩ := by
    rw [Block.store_of_le (by omega), ← hsize]
  refine ⟨?_, hst⟩
  rw [store, hb]
  rw [hblock] at hst ⊢
  simp only [hst, Option.map_some]

/-- A store behind the bytes. -/
theorem Begins.store (h : Begins s t) (hsz : s.dataSz ≠ 0) {off : Nat} {bs : List UInt8}
    (hoff : t.length ≤ off) (hfit : off + bs.length ≤ s.dataSz + 1) :
    ∃ b, s.store off bs = some { s with data := some b } ∧ Begins { s with data := some b } t := by
  refine ⟨_, (h.store_eq hsz hfit).1, h.nul_free, ?_, h.room, rfl, ?_, h.shift, h.sz_le⟩
  · change slice (overlay s.block.byte off bs) 0 t.length = t
    rw [slice_overlay_of_disjoint _ (Or.inl (by omega)), h.bytes]
  · exact ⟨fun hnone => (by cases hnone), fun h0 => absurd h0 hsz⟩

/-- More bytes behind the bytes. -/
theorem Begins.extend (h : Begins s t) (hsz : s.dataSz ≠ 0) (hnul : 0 ∉ u)
    (hfit : t.length + u.length ≤ s.dataSz) :
    ∃ b, s.store t.length u = some { s with data := some b } ∧
      Begins { s with data := some b } (t ++ u) := by
  refine ⟨_, (h.store_eq hsz (by omega)).1, by simp [h.nul_free, hnul], ?_, ?_, rfl, ?_, h.shift,
    h.sz_le⟩
  · change slice (overlay s.block.byte t.length u) 0 (t ++ u).length = t ++ u
    rw [List.length_append, slice_add, slice_overlay_of_disjoint _ (Or.inl (by omega)), h.bytes,
      Nat.zero_add, slice_overlay_self]
  · rw [List.length_append]
    exact hfit
  · exact ⟨fun hnone => (by cases hnone), fun h0 => absurd h0 hsz⟩

/-- **Bytes and a NUL behind the bytes.** -/
theorem Begins.finish (h : Begins s t) (hsz : s.dataSz ≠ 0) (hnul : 0 ∉ u)
    (hfit : t.length + u.length ≤ s.dataSz) :
    ∃ b, s.store t.length (u ++ [0]) = some { s with data := some b } ∧
      Ends { s with data := some b } (t ++ u) := by
  have hlen : (u ++ [(0 : UInt8)]).length = u.length + 1 := by simp
  have hfit' : t.length + (u ++ [(0 : UInt8)]).length ≤ s.dataSz + 1 := by omega
  obtain ⟨hst, hblock⟩ := h.store_eq hsz hfit'
  have hstr : CStr ⟨s.dataSz + 1, overlay s.block.byte t.length (u ++ [0])⟩ 0 (t ++ u) := by
    refine CStr.of_slice h.bytes (by simp [h.nul_free, hnul]) ?_
    rw [Nat.zero_add]
    exact hblock
  have hnul' := hstr.nul
  rw [Nat.zero_add] at hnul'
  refine ⟨_, hst, ⟨hstr.nul_free, hstr.bytes, ?_, rfl, ?_, h.shift, h.sz_le⟩, hnul'⟩
  · rw [List.length_append]
    exact hfit
  · exact ⟨fun hnone => (by cases hnone), fun h0 => absurd h0 hsz⟩

/-- A NUL behind the first `n` bytes. -/
theorem Begins.cut (h : Begins s t) (hsz : s.dataSz ≠ 0) {n : Nat} (hn : n ≤ t.length) :
    ∃ b, s.store n [0] = some { s with data := some b } ∧
      Ends { s with data := some b } (t.take n) := by
  have hlen : (t.take n).length = n := List.length_take_of_le hn
  have hfin := (h.take hn).finish hsz (List.not_mem_nil : (0 : UInt8) ∉ []) (h.take hn).room
  rwa [hlen, List.append_nil, List.nil_append] at hfin

/-! ## 2. Growing -/

/-- The doubling loop ends above `min`, and not far above it. -/
theorem grow_spec {min : Nat} (hmin : 2 * min + blockSize ≤ intMax) (nsz shiftCnt : Nat)
    (hshift : blockSize * 2 ^ shiftCnt ≤ nsz + blockSize) (hsz : nsz ≤ intMax) :
    ∃ nsz' shiftCnt', grow min nsz shiftCnt = some (nsz', shiftCnt') ∧ min < nsz' ∧
      nsz' ≤ intMax ∧ blockSize * 2 ^ shiftCnt' ≤ nsz' + blockSize := by
  fun_induction grow min nsz shiftCnt with
  | case1 nsz shiftCnt hle hover => omega
  | case2 nsz shiftCnt hle hfit ih =>
    have hmax : intMax = 2 ^ 31 - 1 := rfl
    have hadd : SizeT.add nsz (blockSize * 2 ^ shiftCnt) = nsz + blockSize * 2 ^ shiftCnt :=
      SizeT.add_of_lt (by omega)
    rw [hadd] at ih ⊢
    refine ih ?_ (by omega)
    rw [Nat.pow_succ, ← Nat.mul_assoc]
    omega
  | case3 nsz shiftCnt hgt => exact ⟨nsz, shiftCnt, rfl, Nat.not_le.mp hgt, hsz, hshift⟩

/-- The block grows, and keeps its bytes. -/
theorem Begins.reserve (h : Begins s t) {shiftCnt size : Nat} (hlt : s.dataSz < size)
    (hle : size ≤ intMax) (hshift : blockSize * 2 ^ shiftCnt ≤ size + blockSize)
    (junk : Nat → UInt8) :
    ∃ b, Str.reserve { s with shiftCnt } size (some junk)
        = some (0, { s with shiftCnt, data := some b, dataSz := size }) ∧
      Begins { s with shiftCnt, data := some b, dataSz := size } t := by
  have hmax : intMax = 2 ^ 31 - 1 := rfl
  have hadd : SizeT.add size 1 = size + 1 := SizeT.add_of_lt (by omega)
  have hroom := h.room
  have hsize := h.size
  -- the old bytes are those of the block, unless there was none
  have hold : slice ((s.data.getD ⟨0, junk⟩).resize (size + 1) junk).byte 0 t.length = t := by
    cases hdata : s.data with
    | none =>
      have hsz := h.data.mp hdata
      obtain rfl : t = [] := List.length_eq_zero_iff.mp (by omega)
      rfl
    | some b =>
      rw [block_of_some hdata] at hsize
      have hbytes := h.bytes
      rw [block_of_some hdata] at hbytes
      rw [Option.getD_some]
      refine (slice_congr fun i hi => ?_).trans hbytes
      exact if_pos (by omega)
  obtain ⟨b, hst, hbsize, hbytes⟩ : ∃ b : Block UInt8,
      ((s.data.getD ⟨0, junk⟩).resize (size + 1) junk).store size [0] = some b ∧
        b.size = size + 1 ∧ slice b.byte 0 t.length = t := by
    refine ⟨_, Block.store_of_le (le_refl (size + 1)), rfl, ?_⟩
    rw [slice_overlay_of_disjoint _ (Or.inl (by omega)), hold]
  refine ⟨b, ?_, h.nul_free, hbytes, hroom.trans hlt.le, hbsize, ?_, hshift, hle⟩
  · rw [Str.reserve, if_neg (Nat.not_le.mpr hlt)]
    dsimp only
    rw [hadd, hst]
    rfl
  · refine ⟨fun hnone => (by cases hnone), fun h0 => ?_⟩
    change size = 0 at h0
    omega

/-! ## 3. Calls -/

/-- The call on `s` has ended with code `ret`, has left the string `t`, and `null` as it was. -/
def Gives (s : Str) (r : Option (Int × Str)) (ret : Int) (t : List UInt8) : Prop :=
  ∃ s', r = some (ret, s') ∧ Holds s' t ∧ s'.null = s.null

theorem clear_spec (h : Holds s t) : Gives s s.clear 0 [] := by
  unfold clear
  split
  · next hsz =>
    obtain ⟨b, hst, hends⟩ := h.cut hsz (Nat.zero_le t.length)
    rw [hst]
    exact ⟨_, rfl, hends.holds rfl, rfl⟩
  · next hsz =>
    have hroom := h.room
    obtain rfl : t = [] := List.length_eq_zero_iff.mp (by omega)
    exact ⟨s, rfl, h, rfl⟩

theorem strncpy_self (hnul : 0 ∉ u) : strncpy u u.length = u := by
  have hall : u.takeWhile (· ≠ 0) = u := by
    refine List.takeWhile_eq_self_iff.mpr fun c hc => ?_
    simpa using fun h0 : c = 0 => hnul (h0 ▸ hc)
  rw [strncpy, List.take_length, hall]
  simp

/-- The first half of `u_string_append` makes room. -/
theorem Holds.makeRoom (h : Holds s t) {n : Nat} (hfits : Fits (t.length + n))
    (junk : Nat → UInt8) :
    ∃ s', s.makeRoom n (some junk) = some (0, s') ∧ Begins s' t ∧ t.length + n < s'.dataSz ∧
      s'.dataLen = t.length ∧ s'.null = s.null := by
  have hmax : intMax = 2 ^ 31 - 1 := rfl
  have hblock : blockSize = 64 := rfl
  unfold Fits at hfits
  have hmin : SizeT.add (SizeT.add s.dataLen n) 1 = t.length + n + 1 := by
    rw [h.len, SizeT.add_of_lt (by omega : t.length + n < 2 ^ 64), SizeT.add_of_lt (by omega)]
  unfold Str.makeRoom
  dsimp only
  rw [hmin]
  split
  · next hlt =>
    obtain ⟨nsz, shiftCnt, hgrow, hgt, hle, hshift⟩ :=
      grow_spec (by omega : 2 * (t.length + n + 1) + blockSize ≤ intMax) s.dataSz s.shiftCnt
        h.shift h.sz_le
    obtain ⟨b, hres, hbegins⟩ := h.toBegins.reserve (hlt.trans hgt) hle hshift junk
    refine ⟨_, ?_, hbegins, (Nat.lt_succ_self _).trans hgt, h.len, rfl⟩
    rw [hgrow]
    exact hres
  · next hge => exact ⟨s, rfl, h.toBegins, by omega, h.len, rfl⟩

/-- **Appending** what strncpy finds. -/
theorem appendFrom_spec (h : Holds s t) (hnul : 0 ∉ u) (hfits : Fits (t.length + u.length))
    (junk : Nat → UInt8) (text : Str → Option (List UInt8))
    (htext : ∀ s', s.makeRoom u.length (some junk) = some (0, s') → text s' = some u) :
    Gives s (s.appendFrom u.length text (some junk)) 0 (t ++ u) := by
  have hmax : intMax = 2 ^ 31 - 1 := rfl
  unfold appendFrom
  split
  · next hzero =>
    obtain rfl : u = [] := List.length_eq_zero_iff.mp hzero
    rw [List.append_nil]
    exact ⟨s, rfl, h, rfl⟩
  · next hne =>
    obtain ⟨s₁, hroom, h₁, hlt, hlen, hnull⟩ := h.makeRoom hfits junk
    unfold Fits at hfits
    have hadd : SizeT.add t.length u.length = (t ++ u).length := by
      rw [List.length_append]
      exact SizeT.add_of_lt (by omega)
    have hsz : s₁.dataSz ≠ 0 := by omega
    obtain ⟨b, hst, h₂⟩ := h₁.extend hsz hnul hlt.le
    obtain ⟨b', hst', hends⟩ :=
      (h₂.withLen (t ++ u).length).cut hsz (le_refl (t ++ u).length)
    rw [List.take_length] at hends
    refine ⟨_, ?_, ⟨hends, rfl⟩, hnull⟩
    have hfound := htext s₁ hroom
    rw [hroom]
    simp only [Option.bind_eq_bind, Option.bind_some, ne_eq, not_true_eq_false, if_false, hlen,
      hfound, hst, hadd, hst']

/-- **Appending** bytes of the caller. -/
theorem append_spec (h : Holds s t) (hnul : 0 ∉ u) (hfits : Fits (t.length + u.length))
    (junk : Nat → UInt8) : Gives s (s.append u (some junk)) 0 (t ++ u) := by
  refine appendFrom_spec h hnul hfits junk _ fun _ _ => ?_
  rw [strncpy_self hnul]

theorem setLength_spec (h : Holds s t) {n : Nat} (hn : n ≤ t.length) :
    Gives s (s.setLength n) 0 (t.take n) := by
  unfold setLength
  rw [h.len, if_neg (Nat.not_lt.mpr hn)]
  split
  · next hlt =>
    have hroom := h.room
    obtain ⟨b, hst, hends⟩ := (h.toBegins.withLen n).cut (by change s.dataSz ≠ 0; omega) hn
    rw [hst]
    exact ⟨_, rfl, ⟨hends, (List.length_take_of_le hn).symm⟩, rfl⟩
  · next hge =>
    rw [List.take_of_length_le (Nat.not_lt.mp hge)]
    exact ⟨s, rfl, h, rfl⟩

theorem setLength_refused (h : Holds s t) {n : Nat} (hn : t.length < n) :
    Gives s (s.setLength n) (-1) t := by
  unfold setLength
  rw [h.len, if_pos hn]
  exact ⟨s, rfl, h, rfl⟩

/-! ## 4. Trimming -/

/-- A string without its leading and trailing blanks. -/
def trimmed (t : List UInt8) : List UInt8 := (t.rdropWhile isblank).dropWhile isblank

/-- The walk from the end stops at the last byte that is not blank, or at the first byte. -/
theorem trimEnd_spec {b : Block UInt8} (hb : slice b.byte 0 t.length = t) (p : Nat)
    (hp : p < t.length) :
    trimEnd b p ≤ p ∧
      trimmed (t.take (p + 1)) = (t.take (trimEnd b p + 1)).dropWhile isblank := by
  have hbyte : ∀ i (hi : i < t.length), b.byte i = t[i] := by
    intro i hi
    have hget : (slice b.byte 0 t.length)[i]? = some (b.byte i) := by
      rw [getElem?_slice, if_pos hi, Nat.zero_add]
    rw [hb, List.getElem?_eq_getElem hi] at hget
    exact (Option.some.inj hget).symm
  induction p with
  | zero =>
    have hone : t.take 1 = [t[0]] := by
      rw [List.take_one, List.head?_eq_getElem?, List.getElem?_eq_getElem hp]
      rfl
    refine ⟨le_refl 0, ?_⟩
    rw [trimEnd, Nat.zero_add, hone, trimmed, List.rdropWhile_singleton]
    split
    · next hblank => simp [hblank]
    · rfl
  | succ p ih =>
    have hlast : t.take (p + 1 + 1) = t.take (p + 1) ++ [t[p + 1]] := by
      rw [List.take_add_one, List.getElem?_eq_getElem hp]
      rfl
    rw [trimEnd, hbyte (p + 1) hp]
    split
    · next hblank =>
      obtain ⟨hle, heq⟩ := ih (by omega)
      refine ⟨hle.trans (Nat.le_succ p), ?_⟩
      rw [← heq, hlast, trimmed, List.rdropWhile_concat_pos _ _ _ hblank, trimmed]
    · next hblank =>
      refine ⟨le_refl _, ?_⟩
      rw [hlast, trimmed, List.rdropWhile_concat_neg _ _ _ hblank]

/-- The walk from the start stops behind the blanks. -/
theorem trimStart_spec {b : Block UInt8} {n p : Nat} (h : CStr b p u) (hn : u.length < n) :
    trimStart b n p = some (p + (u.takeWhile isblank).length) := by
  induction u generalizing n p with
  | nil =>
    cases n with
    | zero => cases hn
    | succ n =>
      have hnul := h.nul
      rw [List.length_nil, Nat.add_zero] at hnul
      simp [trimStart, hnul]
  | cons c u ih =>
    cases n with
    | zero => cases hn
    | succ n =>
      have hc : b.byte p = c := h.byte_eq (Nat.zero_lt_succ u.length)
      have hc0 : c ≠ 0 := fun h0 => h.nul_free (h0 ▸ List.mem_cons_self ..)
      have htail : CStr b (p + 1) u := h.drop (u := [c])
      rw [trimStart, hc]
      by_cases hblank : isblank c = true
      · rw [if_pos (by simp [hc0, hblank]), ih htail (Nat.lt_of_succ_lt_succ hn),
          List.takeWhile_cons_of_pos hblank, List.length_cons, Nat.add_assoc,
          Nat.add_comm 1]
      · rw [if_neg (by simp [hblank]), List.takeWhile_cons_of_neg hblank]
        rfl

/-- `u_trim` of a string that is not empty. -/
theorem uTrim_spec (h : Ends s t) (hne : t ≠ []) :
    ∃ b, s.uTrim = some { s with data := some b } ∧ Ends { s with data := some b } (trimmed t) := by
  have hpos := List.length_pos_of_ne_nil hne
  have hroom := h.room
  have hsz : s.dataSz ≠ 0 := by omega
  obtain ⟨hle, htrim⟩ := trimEnd_spec h.bytes (t.length - 1) (by omega)
  rw [Nat.sub_add_cancel hpos, List.take_length] at htrim
  obtain ⟨b, hst, h₁⟩ := h.cut hsz (by omega : trimEnd s.block (t.length - 1) + 1 ≤ t.length)
  generalize hv : t.take (trimEnd s.block (t.length - 1) + 1) = v at htrim h₁
  have hstr : CStr b 0 v := h₁.cstr
  have hvlen : v.length ≤ s.dataSz := h₁.room
  have hbsize : b.size = s.dataSz + 1 := h₁.size
  have hstart := trimStart_spec hstr (by omega : v.length < b.size)
  rw [Nat.zero_add] at hstart
  have hsplit : v.takeWhile isblank ++ v.dropWhile isblank = v := List.takeWhile_append_dropWhile
  have hblock : ({ s with data := some b } : Str).block = b := rfl
  unfold uTrim
  rw [h.cstr.strlen]
  simp only [Option.bind_eq_bind, Option.bind_some, if_neg hpos.ne', hst, hblock, hstart]
  rw [htrim]
  split
  · -- the rest of the string moves to the front
    have hrest : CStr b (0 + (v.takeWhile isblank).length) (v.dropWhile isblank) := by
      rw [← hsplit] at hstr
      exact hstr.drop
    rw [Nat.zero_add] at hrest
    have hlen := congrArg List.length hsplit
    rw [List.length_append] at hlen
    have hfin := (h₁.take (Nat.zero_le v.length)).finish hsz hrest.nul_free
      (by rw [List.take_zero, List.length_nil]; change 0 + _ ≤ s.dataSz; omega)
    obtain ⟨b', hst', hends⟩ := hfin
    refine ⟨b', ?_, hends⟩
    rw [hrest.strlen]
    simp only [Option.bind_some, hrest.load]
    exact hst'
  · next hzero =>
    have hnil : v.takeWhile isblank = [] := List.length_eq_zero_iff.mp (by omega)
    rw [hnil, List.nil_append] at hsplit
    rw [hsplit]
    exact ⟨b, rfl, h₁⟩

theorem trim_spec (h : Holds s t) : Gives s s.trim 0 (trimmed t) := by
  unfold trim
  split
  · next hpos =>
    rw [h.len] at hpos
    obtain ⟨b, htrim, hends⟩ := uTrim_spec h.toEnds (List.ne_nil_of_length_pos hpos)
    rw [htrim]
    simp only [Option.bind_eq_bind, Option.bind_some]
    rw [hends.cstr.strlen]
    exact ⟨_, rfl, hends.holds rfl, rfl⟩
  · next hzero =>
    rw [h.len] at hzero
    obtain rfl : t = [] := List.length_eq_zero_iff.mp (by omega)
    exact ⟨s, rfl, h, rfl⟩

/-! ## 5. Printing -/

theorem sizeOfInt_ofNat {n : Nat} (h : n < 2 ^ 64) : sizeOfInt n = n := by
  unfold sizeOfInt
  omega

/-- A text that does not fit is cut, behind the bytes. -/
theorem Begins.vsnprintf_cut (h : Begins s t) (hu : u.length ≤ intMax)
    (hge : s.dataSz ≤ t.length + u.length) :
    ∃ data, s.vsnprintf t.length (s.dataSz - t.length) u
        = some ((u.length : Int), { s with data }) ∧ Begins { s with data } t := by
  have hsz := h.sz_le
  have hroom := h.room
  rw [vsnprintf, if_neg (by omega)]
  split
  · exact ⟨s.data, rfl, h⟩
  · next havail =>
    have hlen : (u.take (s.dataSz - t.length - 1) ++ [(0 : UInt8)]).length =
      s.dataSz - t.length := by
      rw [List.length_append, List.length_take_of_le (by omega), List.length_singleton]
      omega
    obtain ⟨b, hst, hbegins⟩ := h.store (by omega) (le_refl t.length) (by rw [hlen]; omega)
    rw [hst]
    exact ⟨some b, rfl, hbegins⟩

/-- A round in which the text does not fit makes room for it. -/
theorem Begins.retry (h : Begins s t) (hlen : s.dataLen = t.length)
    (hfits : Fits (t.length + u.length)) (hge : s.dataSz ≤ t.length + u.length) (fuel : Nat)
    (junk : Nat → UInt8) :
    ∃ s', vprintfLoop (fuel + 1) s u (some junk) = vprintfLoop fuel s' u (some junk) ∧
      Begins s' t ∧ s'.dataLen = t.length ∧ t.length + u.length < s'.dataSz ∧ s'.null = s.null := by
  have hmax : intMax = 2 ^ 31 - 1 := rfl
  have hroom := h.room
  have hshift := h.shift
  unfold Fits at hfits
  have havail : SizeT.sub s.dataSz t.length = s.dataSz - t.length :=
    SizeT.sub_of_le (by omega) h.room
  have hsize : SizeT.add (SizeT.add (SizeT.add s.dataSz t.length) (SizeT.shl1 u.length)) 1
      = s.dataSz + t.length + 2 * u.length + 1 := by
    rw [SizeT.shl1_of_lt (by omega : u.length < 2 ^ 63),
      SizeT.add_of_lt (by omega : s.dataSz + t.length < 2 ^ 64),
      SizeT.add_of_lt (by omega : s.dataSz + t.length + 2 * u.length < 2 ^ 64),
      SizeT.add_of_lt (by omega)]
  obtain ⟨data, hprint, h₁⟩ := h.vsnprintf_cut (by omega : u.length ≤ intMax) hge
  obtain ⟨b, hres, h₂⟩ := h₁.reserve
    (by change s.dataSz < s.dataSz + t.length + 2 * u.length + 1; omega) (by omega)
    (by omega : blockSize * 2 ^ s.shiftCnt ≤ _) junk
  obtain ⟨b', hst, h₃⟩ := h₂.cut (Nat.succ_ne_zero _) (le_refl t.length)
  rw [List.take_length] at h₃
  refine ⟨_, ?_, h₃.toBegins, hlen, ?_, rfl⟩
  · rw [vprintfLoop, hlen, havail, hprint]
    simp only [Option.bind_eq_bind, Option.bind_some,
      sizeOfInt_ofNat (by omega : u.length < 2 ^ 64)]
    simp only [hlen] at hres hst ⊢
    rw [if_pos (by omega), hsize, hres]
    simp only [Option.bind_some, ne_eq, not_true_eq_false, if_false, hst]
  · change t.length + u.length < s.dataSz + t.length + 2 * u.length + 1
    omega

/-- A round in which the text fits. -/
theorem Begins.print (h : Begins s t) (hlen : s.dataLen = t.length) (hnul : 0 ∉ u)
    (hfits : Fits (t.length + u.length)) (hlt : t.length + u.length < s.dataSz) (fuel : Nat)
    (junk : Nat → UInt8) :
    Gives s (vprintfLoop (fuel + 1) s u (some junk)) 0 (t ++ u) := by
  have hmax : intMax = 2 ^ 31 - 1 := rfl
  have hsz := h.sz_le
  unfold Fits at hfits
  have havail : SizeT.sub s.dataSz s.dataLen = s.dataSz - t.length := by
    rw [hlen]
    exact SizeT.sub_of_le (by omega) h.room
  obtain ⟨b, hst, hends⟩ := h.finish (by omega) hnul hlt.le
  have htake : u.take (s.dataSz - t.length - 1) = u := List.take_of_length_le (by omega)
  have hadd : SizeT.add t.length u.length = (t ++ u).length := by
    rw [List.length_append]
    exact SizeT.add_of_lt (by omega)
  rw [← htake] at hst
  have hprint : s.vsnprintf t.length (s.dataSz - t.length) u
      = some ((u.length : Int), { s with data := some b }) := by
    rw [vsnprintf, if_neg (by omega), if_neg (by omega), hst]
    rfl
  refine ⟨_, ?_, hends.holds rfl, rfl⟩
  rw [vprintfLoop, havail, hlen, hprint]
  simp only [Option.bind_eq_bind, Option.bind_some, sizeOfInt_ofNat (by omega : u.length < 2 ^ 64)]
  rw [if_neg (by omega), hlen, hadd]

/-- **The retry loop ends in its second round**, if not in its first. -/
theorem vprintfLoop_spec (h : Begins s t) (hlen : s.dataLen = t.length) (hnul : 0 ∉ u)
    (hfits : Fits (t.length + u.length)) {fuel : Nat} (hfuel : 2 ≤ fuel) (junk : Nat → UInt8) :
    Gives s (vprintfLoop fuel s u (some junk)) 0 (t ++ u) := by
  obtain ⟨n, rfl⟩ := Nat.exists_eq_add_of_le' hfuel
  by_cases hlt : t.length + u.length < s.dataSz
  · exact h.print hlen hnul hfits hlt (n + 1) junk
  · obtain ⟨s₁, heq, h₁, hlen₁, hlt₁, hnull₁⟩ :=
      h.retry hlen hfits (Nat.not_lt.mp hlt) (n + 1) junk
    obtain ⟨s₂, hprint, h₂, hnull₂⟩ := h₁.print hlen₁ hnul hfits hlt₁ n junk
    exact ⟨s₂, heq.trans hprint, h₂, hnull₂.trans hnull₁⟩

theorem aprintf_spec (h : Holds s t) (hnul : 0 ∉ u) (hfits : Fits (t.length + u.length))
    {fuel : Nat} (hfuel : 2 ≤ fuel) (junk : Nat → UInt8) :
    Gives s (s.aprintf fuel u (some junk)) 0 (t ++ u) :=
  vprintfLoop_spec h.toBegins h.len hnul hfits hfuel junk

theorem sprintf_spec (h : Holds s t) (hnul : 0 ∉ u) (hfits : Fits u.length)
    {fuel : Nat} (hfuel : 2 ≤ fuel) (junk : Nat → UInt8) :
    Gives s (s.sprintf fuel u (some junk)) 0 u := by
  obtain ⟨s₁, hclear, h₁, hnull₁⟩ := clear_spec h
  have hfits' : Fits (([] : List UInt8).length + u.length) := by
    rwa [List.length_nil, Nat.zero_add]
  obtain ⟨s₂, hprint, h₂, hnull₂⟩ := vprintfLoop_spec h₁.toBegins h₁.len hnul hfits' hfuel junk
  refine ⟨s₂, ?_, h₂, hnull₂.trans hnull₁⟩
  rw [sprintf, doVprintf, if_pos rfl, hclear]
  exact hprint

/-! ## 6. Text of the string itself

`u_string_append` finds it as long as the block stays, which is while there is room; behind
`u_string_clear`, which writes a NUL to the front of the block, it is what does not overlap with its
new place. -/

/-- `len` bytes of `t`, from `off` on. -/
def part (t : List UInt8) (off len : Nat) : List UInt8 := (t.drop off).take len

theorem part_nul_free (hnul : 0 ∉ t) (off len : Nat) : 0 ∉ part t off len :=
  fun hmem => hnul (List.mem_of_mem_drop (List.mem_of_mem_take hmem))

theorem length_part {off len : Nat} (hin : off + len ≤ t.length) :
    (part t off len).length = len := by
  rw [part, List.length_take, List.length_drop]
  omega

theorem slice_part {m : Nat → UInt8} {off len : Nat} (hm : slice m 0 t.length = t)
    (hin : off + len ≤ t.length) : slice m off len = part t off len := by
  rw [part, ← hm, drop_slice m 0 (by omega), take_slice _ _ (by omega), Nat.zero_add]

/-- strncpy finds bytes without a NUL. -/
theorem strncpyFrom_spec {b : Block UInt8} {off : Nat} (hm : slice b.byte off u.length = u)
    (hnul : 0 ∉ u) (hsize : off + u.length ≤ b.size) :
    strncpyFrom b off u.length = some u := by
  rw [strncpyFrom, min_eq_left (by omega), hm, if_pos (Or.inr (le_refl _)), strncpy_self hnul]

theorem Holds.strncpyFrom_part (h : Holds s t) {off len : Nat} (hin : off + len ≤ t.length) :
    strncpyFrom s.block off len = some (part t off len) := by
  have hroom := h.room
  have hsize := h.size
  have hlen := length_part hin
  have hfound : strncpyFrom s.block off (part t off len).length = some (part t off len) :=
    strncpyFrom_spec (by rw [hlen]; exact slice_part h.bytes hin)
      (part_nul_free h.nul_free off len) (by rw [hlen]; omega)
  rwa [hlen] at hfound

/-- A string with room stays where it is. -/
theorem Holds.makeRoom_self (h : Holds s t) {len : Nat} (hroom : t.length + len < s.dataSz)
    (alloc : Alloc) : s.makeRoom len alloc = some (0, s) := by
  have hsz := h.sz_le
  have hmax : intMax = 2 ^ 31 - 1 := rfl
  unfold Str.makeRoom
  dsimp only
  rw [h.len, SizeT.add_of_lt (by omega : t.length + len < 2 ^ 64), SizeT.add_of_lt (by omega),
    if_neg (by omega)]

theorem Begins.isSome_data (h : Begins s t) (hsz : s.dataSz ≠ 0) : s.data.isNone = false := by
  obtain ⟨b, hb⟩ := Option.ne_none_iff_exists'.mp fun hnone => hsz (h.data.mp hnone)
  rw [hb]
  rfl

/-- **Own text is appended**, where the string has room for it. -/
theorem appendOwn_spec (h : Holds s t) {off len : Nat} (hin : off + len ≤ t.length)
    (hfits : Fits (t.length + len)) (hroom : len = 0 ∨ t.length + len < s.dataSz)
    (junk : Nat → UInt8) : Gives s (s.appendOwn off len (some junk)) 0 (t ++ part t off len) := by
  have hlen := length_part hin
  have happ := appendFrom_spec h (part_nul_free h.nul_free off len) (by rwa [hlen]) junk
    (s.ownText off len)
  rw [hlen] at happ
  rcases hroom with rfl | hroom
  · refine ⟨s, rfl, ?_, rfl⟩
    rw [part, List.take_zero, List.append_nil]
    exact h
  · refine happ fun s' hs' => ?_
    rw [h.makeRoom_self hroom] at hs'
    cases hs'
    rw [ownText, if_neg (by rw [h.isSome_data (by omega)]; exact Bool.false_ne_true),
      if_neg (Nat.lt_irrefl _), h.strncpyFrom_part hin, h.len]
    simp only [Option.bind_eq_bind, Option.bind_some]
    rw [if_neg (by omega)]

/-- **Own text is gone** when the string grows for it. -/
theorem appendOwn_released (h : Holds s t) (hsz : s.dataSz ≠ 0) {len : Nat}
    (hfits : Fits (t.length + len)) (hpos : 0 < len) (hgrow : s.dataSz ≤ t.length + len) (off : Nat)
    (junk : Nat → UInt8) : s.appendOwn off len (some junk) = none := by
  obtain ⟨s', hs', -, hlt, -, -⟩ := h.makeRoom hfits junk
  have hgone : s.ownText off len s' = none := by
    rw [ownText, if_neg (by rw [h.isSome_data hsz]; exact Bool.false_ne_true), if_pos (by omega)]
  rw [appendOwn, appendFrom, if_neg hpos.ne', hs']
  simp only [Option.bind_eq_bind, Option.bind_some, ne_eq, not_true_eq_false, if_false, hgone,
    Option.bind_none]

/-- `u_string_clear` of a string that is not empty writes its first byte only. -/
theorem clear_block (h : Holds s t) (hpos : 0 < t.length) :
    ∃ s', s.clear = some (0, s') ∧ Holds s' [] ∧ s'.null = s.null ∧ s'.dataSz = s.dataSz ∧
      s'.block.byte 0 = 0 ∧ ∀ i, 0 < i → s'.block.byte i = s.block.byte i := by
  have hroom := h.room
  have hsz : s.dataSz ≠ 0 := by omega
  obtain ⟨s', hclear, h', hnull⟩ := clear_spec h
  have hst := (@Begins.store_eq _ _ h.toBegins hsz 0 [0] (by simp)).1
  have heq := hclear
  rw [clear, if_pos hsz, hst] at heq
  cases heq
  refine ⟨_, hclear, h', hnull, rfl, ?_, fun i hi => ?_⟩
  · exact h'.nul
  · change overlay s.block.byte 0 [0] i = s.block.byte i
    exact overlay_of_not_mem _ _ (Or.inr hi)

/-- What is behind the first byte of a cleared string is still found. -/
theorem strncpyFrom_cleared (h : Holds s t) (h' : Holds s' []) (hsz : s'.dataSz = s.dataSz)
    (hrest : ∀ i, 0 < i → s'.block.byte i = s.block.byte i) {off len : Nat} (hoff : 0 < off)
    (hin : off + len ≤ t.length) : strncpyFrom s'.block off len = some (part t off len) := by
  have hroom := h.room
  have hsize := h'.size
  have hlen := length_part hin
  have hsame : slice s'.block.byte off len = part t off len :=
    (slice_congr fun i _ => hrest (off + i) (by omega)).trans (slice_part h.bytes hin)
  have hfound : strncpyFrom s'.block off (part t off len).length = some (part t off len) :=
    strncpyFrom_spec (by rw [hlen]; exact hsame) (part_nul_free h.nul_free off len)
      (by rw [hlen]; omega)
  rwa [hlen] at hfound

/-- **Own text is set**, where it is behind its new place. -/
theorem set_own_spec (h : Holds s t) {off len : Nat} (hin : off + len ≤ t.length)
    (hfits : Fits len) (hoff : len ≤ off) (junk : Nat → UInt8) :
    ∃ s₁, s.clear = some (0, s₁) ∧
      Gives s (s₁.appendOwn off len (some junk)) 0 (part t off len) := by
  have hroom := h.room
  rcases Nat.eq_zero_or_pos len with rfl | hpos
  · obtain ⟨s₁, hclear, h₁, hnull⟩ := clear_spec h
    refine ⟨s₁, hclear, s₁, rfl, ?_, hnull⟩
    rwa [part, List.take_zero]
  obtain ⟨s₁, hclear, h₁, hnull, hsz, -, hrest⟩ := clear_block h (by omega)
  have hlen := length_part hin
  have happ := appendFrom_spec h₁ (part_nul_free h.nul_free off len)
    (by rwa [hlen, List.length_nil, Nat.zero_add]) junk (s₁.ownText off len)
  rw [hlen, List.nil_append] at happ
  obtain ⟨s₂, happ, h₂, hnull₂⟩ := happ fun s' hs' => by
    rw [h₁.makeRoom_self (by rw [List.length_nil]; omega)] at hs'
    cases hs'
    rw [ownText, if_neg (by rw [h₁.isSome_data (by omega)]; exact Bool.false_ne_true),
      if_neg (Nat.lt_irrefl _), strncpyFrom_cleared h h₁ hsz hrest (by omega) hin, h₁.len]
    simp only [Option.bind_eq_bind, Option.bind_some, List.length_nil]
    rw [if_neg (by omega)]
  exact ⟨s₁, hclear, s₂, happ, h₂, hnull₂.trans hnull⟩

/-- What a caller sees of a string: the bytes before its NUL, and its length.  Stores are checked
against the size of the block, which is one more than the capacity. -/
structure Reads (s : Str) (t : List UInt8) : Prop where
  c : s.c = some t
  len : s.len = t.length
  size : s.block.size = s.dataSz + 1

/-- A string whose first byte is NUL reads as the empty one. -/
theorem Reads.eq_nil (h : Reads s t) (h0 : s.block.byte 0 = 0) : t = [] := by
  have hsize := h.size
  have hc := h.c
  have hlen : s.block.strlen 0 = some 0 :=
    List.find?_range_eq_some.mpr ⟨by simpa using h0, List.mem_range.mpr (by omega), by omega⟩
  unfold Str.c Block.cstr at hc
  rw [hlen] at hc
  simp only [Option.bind_eq_bind, Option.bind_some] at hc
  rw [Block.load_of_le (by omega)] at hc
  exact (Option.some.inj hc).symm

/-- strncpy finds a NUL, and writes NULs only. -/
theorem strncpyFrom_nul {b : Block UInt8} {len : Nat} (h0 : b.byte 0 = 0) (hpos : 0 < len)
    (hsize : 0 < b.size) : strncpyFrom b 0 len = some (List.replicate len 0) := by
  obtain ⟨n, hn⟩ : ∃ n, min len (b.size - 0) = 1 + n := ⟨min len b.size - 1, by omega⟩
  obtain ⟨m, rfl⟩ := Nat.exists_eq_add_of_le' hpos
  have hbuf : slice b.byte 0 (1 + n) = 0 :: slice b.byte 1 n := by
    rw [slice_add]
    change [b.byte 0] ++ slice b.byte (0 + 1) n = _
    rw [h0]
    rfl
  rw [strncpyFrom, hn, hbuf, if_pos (Or.inl (List.mem_cons_self ..)), strncpy, List.take_succ_cons,
    List.takeWhile_cons_of_neg (by simp)]
  rfl

/-- A store of NULs keeps a NUL at the front. -/
theorem store_nuls {n off : Nat} (h0 : s.block.byte 0 = 0)
    (hst : s.store off (List.replicate n 0) = some s') : s'.block.byte 0 = 0 := by
  have hover : ∀ m : Nat → UInt8, m 0 = 0 → overlay m off (List.replicate n 0) 0 = 0 := by
    intro m hm
    unfold overlay
    split
    · rw [List.getElem?_replicate]
      split
      · rfl
      · exact hm
    · exact hm
  have hblock : ∀ b b' : Block UInt8, b.byte 0 = 0 → b.store off (List.replicate n 0) = some b' →
      b'.byte 0 = 0 := by
    intro b b' hb hstore
    unfold Block.store at hstore
    split at hstore
    · cases hstore
      exact hover _ hb
    · cases hstore
  unfold Str.store at hst
  cases hdata : s.data with
  | some b =>
    rw [hdata] at hst
    obtain ⟨b', hstore, rfl⟩ := Option.map_eq_some_iff.mp hst
    rw [block_of_some hdata] at h0
    exact hblock b b' h0 hstore
  | none =>
    rw [hdata] at hst
    obtain ⟨null, hstore, rfl⟩ := Option.map_eq_some_iff.mp hst
    rw [block, hdata] at h0
    change null.byte 0 = 0
    exact hblock s.null null h0 hstore

/-- **Own text is lost** behind `u_string_clear`, where it overlaps with its new place. -/
theorem set_own_cleared (h : Holds s t) {off len : Nat} (hin : off + len ≤ t.length)
    (hfits : Fits len) (hoff : off < len) (junk : Nat → UInt8) :
    ∃ s₁, s.clear = some (0, s₁) ∧ ∀ ret s₂, s₁.appendOwn off len (some junk) = some (ret, s₂) →
      s₂.block.byte 0 = 0 := by
  have hroom := h.room
  obtain ⟨s₁, hclear, h₁, -, hsz, h0, hrest⟩ := clear_block h (by omega)
  refine ⟨s₁, hclear, fun ret s₂ happ => ?_⟩
  have hsize := h₁.size
  have hsome := h₁.isSome_data (by omega)
  rcases Nat.lt_or_ge len s₁.dataSz with hlt | hge
  · -- the text stays where it is
    have happ' := happ
    rw [appendOwn, appendFrom, if_neg (by omega), h₁.makeRoom_self (by simpa using hlt)] at happ'
    simp only [Option.bind_eq_bind, Option.bind_some, ne_eq, not_true_eq_false, if_false,
      ownText, hsome, Bool.false_eq_true, Nat.lt_irrefl, h₁.len, List.length_nil] at happ'
    rcases Nat.eq_zero_or_pos off with rfl | hpos
    · -- its first byte is the NUL of `u_string_clear`
      rw [strncpyFrom_nul h0 hoff (by omega)] at happ'
      simp only [Option.bind_some, not_true_eq_false, false_and, if_false] at happ'
      obtain ⟨s₃, hst₃, hrest₃⟩ := Option.bind_eq_some_iff.mp happ'
      obtain ⟨s₄, hst₄, heq⟩ := Option.bind_eq_some_iff.mp hrest₃
      cases heq
      have hnul₃ : s₃.block.byte 0 = 0 := store_nuls h0 hst₃
      exact store_nuls (s := { s₃ with dataLen := SizeT.add s₃.dataLen len }) (n := 1) hnul₃ hst₄
    · rw [strncpyFrom_cleared h h₁ hsz hrest hpos hin] at happ'
      rw [Option.bind_some, if_pos ⟨hpos.ne', by omega, by omega⟩] at happ'
      cases happ'
  · rw [appendOwn_released h₁ (by omega) (by simpa using hfits) (by omega) (by simpa using hge)]
      at happ
    cases happ

/-! ## 7. Many strings -/

variable {ι : Type}

/-- The bytes in variable `i`, changed by `f`; nothing is done to a NULL variable. -/
def change [DecidableEq ι] (a : ι → Option (List UInt8)) (i : ι) (f : List UInt8 →
    Int × List UInt8) : Int × (ι → Option (List UInt8)) :=
  match a i with
  | none => (-1, a)
  | some t => ((f t).1, Function.update a i (some (f t).2))

/-- The bytes in variable `dst` are those in `src`. -/
def copied [DecidableEq ι] (a : ι → Option (List UInt8)) (dst src : ι) :
    Int × (ι → Option (List UInt8)) :=
  match a src with
  | none => (-1, a)
  | some u => change a dst fun _ => (0, u)

/-- The bytes of a text, in the variables `a`. -/
def Src.read (a : ι → Option (List UInt8)) : Src ι → Option (List UInt8)
  | .bytes buf => some buf
  | .within j off len => (a j).map fun t => part t off len

/-- **The abstract machine**: variables hold lists of bytes. -/
def Op.apply [DecidableEq ι] (a : ι → Option (List UInt8)) :
    Op ι → Int × (ι → Option (List UInt8))
  | .create i buf _ => (0, Function.update a i (some (buf.getD [])))
  | .set i src _ => change a i fun _ => (src.read a).elim (-1, []) fun u => (0, u)
  | .append i src _ => change a i fun t => (src.read a).elim (-1, t) fun u => (0, t ++ u)
  | .copy dst src _ => copied a dst src
  | .clear i => change a i fun _ => (0, [])
  | .trim i => change a i fun t => (0, trimmed t)
  | .setLength i n => change a i fun t => if n ≤ t.length then (0, t.take n) else (-1, t)
  | .sprintf i text _ => change a i fun _ => (0, text)
  | .aprintf i text _ => change a i fun t => (0, t ++ text)

/-- A step of the abstract machine. -/
def Follows [DecidableEq ι] (a : ι → Option (List UInt8)) (op : Op ι) (ret : Int)
    (a' : ι → Option (List UInt8)) : Prop := (ret, a') = op.apply a

/-- The strings read as the abstract ones. -/
def AllRead (st : Strings ι) (a : ι → Option (List UInt8)) : Prop :=
  ∀ i, Option.Rel Reads (st.get i) (a i)

/-- The length of the string in variable `i`. -/
def lenAt (st : Strings ι) (i : ι) : Nat := (st.get i).elim 0 len

/-- The capacity of the string in variable `i`. -/
def sizeAt (st : Strings ι) (i : ι) : Nat := (st.get i).elim 0 dataSz

def Src.len : Src ι → Nat
  | .bytes buf => buf.length
  | .within _ _ len => len

/-- The text has no NUL, or lies within a string. -/
def Src.Valid (st : Strings ι) : Src ι → Prop
  | .bytes buf => 0 ∉ buf
  | .within j off len => off + len ≤ lenAt st j

/-- A call is given bytes without a NUL and has memory, and strings of length `n` are short
enough. -/
def Given (u : List UInt8) (alloc : Alloc) (n : Nat) : Prop := 0 ∉ u ∧ alloc.isSome ∧ Fits n

/-- What every call may rely on. -/
def Op.Allowed (st : Strings ι) : Op ι → Prop
  | .create _ none _ => True
  | .create _ (some buf) alloc => Given buf alloc buf.length
  | .set _ src alloc => src.Valid st ∧ Given [] alloc src.len
  | .append i src alloc => src.Valid st ∧ Given [] alloc (lenAt st i + src.len)
  | .copy dst src alloc => dst ≠ src ∧ Given [] alloc (lenAt st src)
  | .clear _ => True
  | .trim _ => True
  | .setLength _ _ => True
  | .sprintf _ text alloc => Given text alloc text.length
  | .aprintf i text alloc => Given text alloc (lenAt st i + text.length)

/-- **No call loses its text**: one that is in the block of the string that is written to is behind
its new place, for `u_string_set`, and leaves it without growing, for `u_string_append`. -/
def Op.Apart (st : Strings ι) : Op ι → Prop
  | .set i (.within j off len) _ => j = i → len ≤ off
  | .append i (.within j _ len) _ => j = i → len = 0 ∨ lenAt st i + len < sizeAt st i
  | _ => True

instance (u : List UInt8) (alloc : Alloc) (n : Nat) : Decidable (Given u alloc n) :=
  inferInstanceAs (Decidable (_ ∧ _ ∧ _))

instance (st : Strings ι) : ∀ src : Src ι, Decidable (src.Valid st)
  | .bytes _ => inferInstanceAs (Decidable (¬ _))
  | .within .. => inferInstanceAs (Decidable (_ ≤ _))

instance [DecidableEq ι] (st : Strings ι) : ∀ op : Op ι, Decidable (op.Allowed st)
  | .create _ none _ => .isTrue trivial
  | .create _ (some _) _ => inferInstanceAs (Decidable (Given ..))
  | .set .. => inferInstanceAs (Decidable (_ ∧ _))
  | .append .. => inferInstanceAs (Decidable (_ ∧ _))
  | .copy .. => inferInstanceAs (Decidable (_ ∧ _))
  | .clear _ => .isTrue trivial
  | .trim _ => .isTrue trivial
  | .setLength .. => .isTrue trivial
  | .sprintf .. => inferInstanceAs (Decidable (Given ..))
  | .aprintf .. => inferInstanceAs (Decidable (Given ..))

instance [DecidableEq ι] (st : Strings ι) : ∀ op : Op ι, Decidable (op.Apart st)
  | .set _ (.within ..) _ => inferInstanceAs (Decidable (_ → _))
  | .append _ (.within ..) _ => inferInstanceAs (Decidable (_ → _ ∨ _))
  | .set _ (.bytes _) _ => .isTrue trivial
  | .append _ (.bytes _) _ => .isTrue trivial
  | .create .. => .isTrue trivial
  | .copy .. => .isTrue trivial
  | .clear _ => .isTrue trivial
  | .trim _ => .isTrue trivial
  | .setLength .. => .isTrue trivial
  | .sprintf .. => .isTrue trivial
  | .aprintf .. => .isTrue trivial

/-- The invariant of a program's strings: nobody has written to `null`. -/
structure Inv (st : Strings ι) (a : ι → Option (List UInt8)) : Prop where
  null : st.null = nullCstr
  holds : ∀ i, Option.Rel Holds (st.get i) (a i)

variable {st : Strings ι} {a : ι → Option (List UInt8)}

theorem Holds.reads (h : Holds s t) : Reads s t := ⟨h.cstr.cstr, h.len, h.size⟩

theorem Inv.allRead (h : Inv st a) : AllRead st a := by
  intro i
  have hi := h.holds i
  generalize st.get i = x at hi ⊢
  generalize a i = y at hi ⊢
  cases hi with
  | some hs => exact .some hs.reads
  | none => exact .none

theorem inv_init : Inv (Strings.init : Strings ι) fun _ => none := ⟨rfl, fun _ => .none⟩

/-- The length that a call may rely on is the one of the abstract string. -/
theorem Holds.lenAt_eq (h : Holds s t) {i : ι} (hget : st.get i = some s) :
    lenAt st i = t.length := by
  rw [lenAt, hget]
  exact h.len

theorem sizeAt_eq {i : ι} (hget : st.get i = some s) : sizeAt st i = s.dataSz := by
  rw [sizeAt, hget]
  rfl

/-- A text within the string in variable `i` that is not empty: the string is there. -/
theorem Inv.exists_own (h : Inv st a) {i : ι} {off len : Nat} (hpos : 0 < len)
    (hvalid : off + len ≤ lenAt st i) :
    ∃ s t, st.get i = some s ∧ a i = some t ∧ Holds s t ∧ off + len ≤ t.length := by
  have hi := h.holds i
  cases hget : st.get i with
  | none =>
    rw [lenAt, hget] at hvalid
    change off + len ≤ 0 at hvalid
    omega
  | some s =>
    rw [hget] at hi
    cases ha : a i with
    | none => rw [ha] at hi; cases hi
    | some t =>
      rw [ha] at hi
      have hs : Holds s t := by cases hi; assumption
      rw [hs.lenAt_eq hget] at hvalid
      exact ⟨s, t, rfl, rfl, hs, hvalid⟩

theorem Given.exists_junk {alloc : Alloc} {n : Nat} (h : Given u alloc n) :
    0 ∉ u ∧ Fits n ∧ ∃ junk, alloc = some junk :=
  ⟨h.1, h.2.2, Option.isSome_iff_exists.mp h.2.1⟩

variable [DecidableEq ι]

/-- A string is put into a variable. -/
theorem Inv.put (h : Inv st a) {i : ι} (hs : Holds s t) (hnull : s.null = nullCstr) :
    Inv (st.put i s) (Function.update a i (some t)) := by
  refine ⟨hnull, fun j => ?_⟩
  by_cases hj : j = i
  · subst hj
    have hget : (st.put j s).get j = some s := by
      simp [Strings.get, Strings.put]
    rw [hget, Function.update_self]
    exact .some hs
  · have hget : (st.put i s).get j = st.get j := by
      simp [Strings.get, Strings.put, Function.update_of_ne hj, hnull, h.null]
    rw [hget, Function.update_of_ne hj]
    exact h.holds j

/-- A call on one string. -/
theorem Inv.on (h : Inv st a) (i : ι) {f : Str → Option (Int × Str)}
    {g : List UInt8 → Int × List UInt8}
    (hf : ∀ s t, st.get i = some s → a i = some t → Holds s t →
      Gives s (f s) (g t).1 (g t).2) :
    ∃ st', st.on i f = some ((change a i g).1, st') ∧ Inv st' (change a i g).2 := by
  unfold Strings.on change
  have hi := h.holds i
  cases hget : st.get i with
  | none =>
    rw [hget] at hi
    cases ha : a i with
    | none => exact ⟨st, rfl, h⟩
    | some t => rw [ha] at hi; cases hi
  | some s =>
    rw [hget] at hi
    cases ha : a i with
    | none => rw [ha] at hi; cases hi
    | some t =>
      rw [ha] at hi
      obtain ⟨s', hs', hholds, hnull⟩ := hf s t hget ha (by cases hi; assumption)
      have hsnull : s.null = nullCstr := by
        obtain ⟨s₀, -, rfl⟩ := Option.map_eq_some_iff.mp hget
        exact h.null
      refine ⟨st.put i s', ?_, h.put hholds (hnull.trans hsnull)⟩
      dsimp only
      rw [hs']
      rfl

/-- **Copying**, between two variables. -/
theorem Inv.copy (h : Inv st a) {dst src : ι} {alloc : Alloc}
    (hallow : (Op.copy dst src alloc).Allowed st) :
    ∃ st', Str.copy st dst src alloc = some ((copied a dst src).1, st') ∧
      Inv st' (copied a dst src).2 := by
  obtain ⟨hne, hgiven⟩ := hallow
  obtain ⟨-, hfits, junk, rfl⟩ := hgiven.exists_junk
  unfold Str.copy copied
  have hsrc := h.holds src
  cases hget : st.get src with
  | none =>
    rw [hget] at hsrc
    cases ha : a src with
    | none => exact ⟨st, rfl, h⟩
    | some u => rw [ha] at hsrc; cases hsrc
  | some x =>
    rw [hget] at hsrc
    cases ha : a src with
    | none => rw [ha] at hsrc; cases hsrc
    | some u =>
      rw [ha] at hsrc
      have hx : Holds x u := by cases hsrc; assumption
      rw [hx.lenAt_eq hget] at hfits
      rw [if_neg (by simp)]
      refine h.on dst fun s t hgets hat hs => ?_
      obtain ⟨s₁, hclear, h₁, hnull₁⟩ := clear_spec hs
      have hfits' : Fits (([] : List UInt8).length + u.length) := by
        rwa [List.length_nil, Nat.zero_add]
      obtain ⟨s₂, happ, h₂, hnull₂⟩ := append_spec h₁ hx.nul_free hfits' junk
      have hsnull : s₁.null = st.null := by
        obtain ⟨s₀, -, rfl⟩ := Option.map_eq_some_iff.mp hgets
        exact hnull₁
      -- the source is another string, and has not changed
      have hsame : (st.put dst s₁).get src = some x := by
        rw [← hget]
        simp [Strings.get, Strings.put, Function.update_of_ne hne.symm, hsnull]
      have hload : x.block.load 0 x.dataLen = some u := by
        have hroom := hx.room
        have hsize := hx.size
        rw [hx.len, Block.load_of_le (by omega), hx.bytes]
      refine ⟨s₂, ?_, h₂, hnull₂.trans hnull₁⟩
      rw [hclear]
      simp only [Option.bind_eq_bind, Option.bind_some, hsame, hload]
      exact happ

/-- **Appending** text that is not in the string's own block. -/
theorem Inv.appendSrc (h : Inv st a) {i : ι} (hs : Holds s t) {src : Src ι}
    (hother : ∀ j off len, src = .within j off len → j ≠ i) (hvalid : src.Valid st)
    (hfits : Fits (t.length + src.len)) (junk : Nat → UInt8) :
    Gives s (Str.appendSrc st i s (some junk) src)
      ((src.read a).elim (-1, t) fun u => (0, t ++ u)).1
      ((src.read a).elim (-1, t) fun u => (0, t ++ u)).2 := by
  cases src with
  | bytes buf => exact append_spec hs hvalid hfits junk
  | within j off len =>
    have hne := hother j off len rfl
    rw [Str.appendSrc, if_neg hne, Src.read]
    have hj := h.holds j
    cases hget : st.get j with
    | none =>
      rw [hget] at hj
      cases ha : a j with
      | none => exact ⟨s, rfl, hs, rfl⟩
      | some v => rw [ha] at hj; cases hj
    | some x =>
      rw [hget] at hj
      cases ha : a j with
      | none => rw [ha] at hj; cases hj
      | some v =>
        rw [ha] at hj
        have hx : Holds x v := by cases hj; assumption
        have hin : off + len ≤ v.length := by
          rw [← hx.lenAt_eq hget]
          exact hvalid
        have hlen := length_part hin
        have happ := appendFrom_spec hs (part_nul_free hx.nul_free off len)
          (by rw [hlen]; exact hfits) junk (fun _ => strncpyFrom x.block off len)
          (fun _ _ => hx.strncpyFrom_part hin)
        rwa [hlen] at happ

/-- **Setting**, where a text in the string's own block is behind its new place. -/
theorem Inv.set (h : Inv st a) {i : ι} {src : Src ι} {alloc : Alloc}
    (hallow : (Op.set i src alloc).Allowed st) (happart : (Op.set i src alloc).Apart st)
    (hget : st.get i = some s) (hat : a i = some t) (hs : Holds s t) :
    Gives s (Str.set st i s alloc src) ((src.read a).elim (-1, []) fun u => (0, u)).1
      ((src.read a).elim (-1, []) fun u => (0, u)).2 := by
  obtain ⟨hvalid, hgiven⟩ := hallow
  obtain ⟨-, hfits, junk, rfl⟩ := hgiven.exists_junk
  by_cases hown : ∃ off len, src = .within i off len
  · obtain ⟨off, len, rfl⟩ := hown
    have hin : off + len ≤ t.length := by
      rw [← hs.lenAt_eq hget]
      exact hvalid
    obtain ⟨s₁, hclear, happ⟩ := set_own_spec hs hin hfits (happart rfl) junk
    rw [Str.set, hclear, Src.read, hat]
    simp only [Option.bind_eq_bind, Option.bind_some, Str.appendSrc, if_true]
    exact happ
  · obtain ⟨s₁, hclear, h₁, hnull₁⟩ := clear_spec hs
    obtain ⟨s₂, happ, h₂, hnull₂⟩ := h.appendSrc (i := i) h₁
      (fun j off len heq hj => hown ⟨off, len, by rw [heq, hj]⟩) hvalid
      (by rwa [List.length_nil, Nat.zero_add]) junk
    refine ⟨s₂, ?_, h₂, hnull₂.trans hnull₁⟩
    rw [Str.set, hclear]
    exact happ

/-- **Appending**, where a text in the string's own block stays where it is. -/
theorem Inv.append (h : Inv st a) {i : ι} {src : Src ι} {alloc : Alloc}
    (hallow : (Op.append i src alloc).Allowed st) (happart : (Op.append i src alloc).Apart st)
    (hget : st.get i = some s) (hat : a i = some t) (hs : Holds s t) :
    Gives s (Str.appendSrc st i s alloc src) ((src.read a).elim (-1, t) fun u => (0, t ++ u)).1
      ((src.read a).elim (-1, t) fun u => (0, t ++ u)).2 := by
  obtain ⟨hvalid, hgiven⟩ := hallow
  obtain ⟨-, hfits, junk, rfl⟩ := hgiven.exists_junk
  rw [hs.lenAt_eq hget] at hfits
  by_cases hown : ∃ off len, src = .within i off len
  · obtain ⟨off, len, rfl⟩ := hown
    have hin : off + len ≤ t.length := by
      rw [← hs.lenAt_eq hget]
      exact hvalid
    have hroom := happart rfl
    rw [hs.lenAt_eq hget, sizeAt_eq hget] at hroom
    rw [Str.appendSrc, if_pos rfl, Src.read, hat]
    exact appendOwn_spec hs hin hfits hroom junk
  · exact h.appendSrc hs (fun j off len heq hj => hown ⟨off, len, by rw [heq, hj]⟩) hvalid hfits
      junk

/-- **One call follows the abstract machine.** -/
theorem exec_spec (h : Inv st a) (op : Op ι) (hallow : op.Allowed st) (happart : op.Apart st)
    {fuel : Nat} (hfuel : 2 ≤ fuel) :
    ∃ st', op.exec fuel st = some ((op.apply a).1, st') ∧ Inv st' (op.apply a).2 := by
  match op with
  | .create i none alloc =>
    refine ⟨_, rfl, ?_⟩
    rw [h.null]
    exact h.put holds_null rfl
  | .create i (some buf) alloc =>
    obtain ⟨hnul, hfits, junk, rfl⟩ := hallow.exists_junk
    have hfits' : Fits (([] : List UInt8).length + buf.length) := by
      rwa [List.length_nil, Nat.zero_add]
    obtain ⟨s', happ, hs', hnull⟩ := append_spec holds_null hnul hfits' junk
    refine ⟨st.put i s', ?_, h.put hs' hnull⟩
    rw [Op.exec, create, h.null, happ]
    rfl
  | .set i src alloc => exact h.on i fun s t hget hat hs => h.set hallow happart hget hat hs
  | .append i src alloc => exact h.on i fun s t hget hat hs => h.append hallow happart hget hat hs
  | .copy dst src alloc => exact h.copy hallow
  | .clear i => exact h.on i fun s t _ _ hs => clear_spec hs
  | .trim i => exact h.on i fun s t _ _ hs => trim_spec hs
  | .setLength i n =>
    refine h.on i fun s t _ _ hs => ?_
    split
    · next hn => exact setLength_spec hs hn
    · next hn => exact setLength_refused hs (Nat.not_le.mp hn)
  | .sprintf i text alloc =>
    obtain ⟨hnul, hfits, junk, rfl⟩ := hallow.exists_junk
    exact h.on i fun s t _ _ hs => sprintf_spec hs hnul hfits hfuel junk
  | .aprintf i text alloc =>
    obtain ⟨hnul, hfits, junk, rfl⟩ := hallow.exists_junk
    refine h.on i fun s t hget _ hs => ?_
    rw [hs.lenAt_eq hget] at hfits
    exact aprintf_spec hs hnul hfits hfuel junk

/-- **A call that loses its text** has no result, or leaves a string that does not read as it
should. -/
theorem exec_lost (h : Inv st a) (op : Op ι) (hallow : op.Allowed st) (hlost : ¬ op.Apart st)
    {fuel : Nat} {ret : Int} {st' : Strings ι} (hexec : op.exec fuel st = some (ret, st')) :
    ¬ AllRead st' (op.apply a).2 := by
  intro hread
  match op with
  | .set i (.within j off len) alloc =>
    simp only [Op.Apart, Classical.not_imp, not_le] at hlost
    obtain ⟨rfl, hoff⟩ := hlost
    obtain ⟨hvalid, hgiven⟩ := hallow
    obtain ⟨-, hfits, junk, rfl⟩ := hgiven.exists_junk
    obtain ⟨s, t, hget, hat, hs, hin⟩ := h.exists_own (by omega) hvalid
    obtain ⟨s₁, hclear, hnul⟩ := set_own_cleared hs hin hfits hoff junk
    simp only [Op.exec, Strings.on, hget, Str.set, hclear, Str.appendSrc, if_true,
      Option.bind_eq_bind, Option.bind_some, Option.bind_eq_some_iff, Prod.exists,
      Option.some.injEq, Prod.mk.injEq] at hexec
    obtain ⟨r, s₂, happ, -, rfl⟩ := hexec
    have hj := hread j
    rw [show (st.put j s₂).get j = some s₂ by simp [Strings.get, Strings.put]] at hj
    simp only [Op.apply, change, hat, Src.read, Option.map_some, Option.elim_some,
      Function.update_self] at hj
    have hempty : part t off len = [] := by
      cases hj
      exact Reads.eq_nil (by assumption) (hnul r s₂ happ)
    have hlen := length_part hin
    rw [hempty, List.length_nil] at hlen
    omega
  | .append i (.within j off len) alloc =>
    simp only [Op.Apart, Classical.not_imp, not_or, not_lt] at hlost
    obtain ⟨rfl, hpos, hgrow⟩ := hlost
    obtain ⟨hvalid, hgiven⟩ := hallow
    obtain ⟨-, hfits, junk, rfl⟩ := hgiven.exists_junk
    obtain ⟨s, t, hget, hat, hs, hin⟩ := h.exists_own (Nat.pos_of_ne_zero hpos) hvalid
    have hroom := hs.room
    rw [hs.lenAt_eq hget] at hfits hgrow
    rw [sizeAt_eq hget] at hgrow
    have hnone : s.appendOwn off len (some junk) = none :=
      appendOwn_released hs (by omega) hfits (Nat.pos_of_ne_zero hpos) hgrow off junk
    simp [Op.exec, Strings.on, hget, Str.appendSrc, hnone] at hexec
  | .set i (.bytes buf) alloc => exact hlost trivial
  | .append i (.bytes buf) alloc => exact hlost trivial
  | .create i buf alloc => exact hlost trivial
  | .copy dst src alloc => exact hlost trivial
  | .clear i => exact hlost trivial
  | .trim i => exact hlost trivial
  | .setLength i n => exact hlost trivial
  | .sprintf i text alloc => exact hlost trivial
  | .aprintf i text alloc => exact hlost trivial

/-- **`u_string_t` refines strings**, as long as no call loses its text.  In a run of calls on any
number of strings, in which bytes without a NUL are given, allocations succeed and no `int`
overflows, every call ends without a store outside of a block, returns what the abstract machine
does, and leaves strings that read as the abstract ones, if and only if every text that is in the
block of the string it is written to is `Apart` from its new place. -/
theorem strings_refine_iff {fuel : Nat} (hfuel : 2 ≤ fuel) {ops : List (Op ι)}
    (h : Guarded (Op.exec fuel) Op.Allowed Strings.init ops) :
    Tracks (Op.exec fuel) Follows AllRead Strings.init (fun _ => none) ops ↔
      Guarded (Op.exec fuel) Op.Apart Strings.init ops := by
  refine tracks_iff_guarded_of_promised Op.Allowed Inv ?_ ?_ ?_ inv_init h
  · intro a op r a₁ a₂ h₁ h₂
    exact congrArg Prod.snd (h₁.trans h₂.symm)
  · intro st a op hinv hallow happart
    obtain ⟨st', hst, hinv'⟩ := exec_spec hinv op hallow happart hfuel
    exact ⟨_, st', _, hst, rfl, hinv'.allRead, hinv'⟩
  · intro st a op r st' a' hinv hallow hlost hst hfollow hread
    obtain rfl : a' = (op.apply a).2 := congrArg Prod.snd hfollow
    exact exec_lost hinv op hallow hlost hst hread

/-- A string is created, printed to, trimmed, appended to itself, set to its end and cut, and set
from another one. -/
theorem strings_refine_nat : Tracks (Op.exec 2) Follows AllRead (Strings.init : Strings Nat)
    (fun _ => none)
    [.create 0 (some [112, 105]) (some fun _ => 255),
      .sprintf 0 [32, 51, 46, 49, 52, 9] (some fun _ => 255), .trim 0,
      .append 0 (.within 0 1 2) (some fun _ => 255), .set 0 (.within 0 3 3) (some fun _ => 255),
      .setLength 0 1, .create 1 none (some fun _ => 255),
      .set 1 (.within 0 0 1) (some fun _ => 255)] :=
  (strings_refine_iff (le_refl 2) (by decide +kernel)).mpr (by decide +kernel)

/-- `u_string_set(s, u_string_c(s), 3)` on the string "abc": it is "" with length 3. -/
theorem not_strings_refine :
    ((run (Op.exec 2) (Strings.init : Strings Nat)
      [.create 0 (some [97, 98, 99]) (some fun _ => 255),
        .set 0 (.within 0 0 3) (some fun _ => 255)]).map fun r =>
          (r.1, (r.2.get 0).map fun s => (s.c, s.len))) = some ([0, 0], some (some [], 3)) ∧
    ¬ Tracks (Op.exec 2) Follows AllRead (Strings.init : Strings Nat) (fun _ => none)
      [.create 0 (some [97, 98, 99]) (some fun _ => 255),
        .set 0 (.within 0 0 3) (some fun _ => 255)] := by
  have hrun : ((run (Op.exec 2) (Strings.init : Strings Nat)
      [.create 0 (some [97, 98, 99]) (some fun _ => 255),
        .set 0 (.within 0 0 3) (some fun _ => 255)]).map fun r =>
          (r.1, (r.2.get 0).map fun s => (s.c, s.len))) = some ([0, 0], some (some [], 3)) := by
    decide +kernel
  refine ⟨hrun, ?_⟩
  rintro ⟨r₁, st₁, a₁, hst₁, hfollow₁, -, r₂, st₂, a₂, hst₂, hfollow₂, hread, -⟩
  obtain rfl : a₁ = _ := congrArg Prod.snd hfollow₁
  obtain rfl : a₂ = _ := congrArg Prod.snd hfollow₂
  rw [run, hst₁] at hrun
  simp only [Option.bind_eq_bind, Option.bind_some] at hrun
  rw [run, hst₂] at hrun
  have hrun := congrArg Prod.snd (Option.some.inj hrun)
  have hget : (st₂.get 0).map (fun s => (s.c, s.len)) = some (some [], 3) := hrun
  obtain ⟨s, hs, hc⟩ := Option.map_eq_some_iff.mp hget
  have h0 := hread 0
  rw [hs] at h0
  simp only [Op.apply, change, Function.update_self, Src.read, Option.map_some, Option.elim_some]
    at h0
  cases h0 with
  | some hreads =>
    have hempty := hreads.c
    rw [(Prod.mk.inj hc).1] at hempty
    cases hempty

end Libu.Str
