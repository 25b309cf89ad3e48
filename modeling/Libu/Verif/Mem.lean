/-
# Machine sizes, memory blocks and circular windows

What code over one heap block needs.

* `SizeT`: unsigned 64-bit sizes as natural numbers below `2 ^ 64`, with the wrapping the
  machine does made explicit.
* `Block`: one allocated block.  `load` and `store` are memcpy out of and into it, and have no
  result (`none`) when they would touch a byte outside of it.
* `slice` and `ringSlice`: the bytes at consecutive offsets, and at consecutive offsets of a
  buffer of `sz` bytes that folds back on itself.  `ringIdx` spells the fold as a case split: an
  offset below `sz` advanced by at most `sz` crosses the end at most once.
* `Mirrored`: memory whose second half repeats the first; `loadTwice` and `storeTwice`: memory
  that is mapped twice, so that the system keeps the halves alike.
-/
import Mathlib.Algebra.Group.Int.Defs
import Mathlib.Algebra.Group.Nat.Defs
import Mathlib.Data.List.Basic

namespace Verif

/-! ## 1. Sizes -/

namespace SizeT

/-- `a + b` on `size_t`. -/
def add (a b : Nat) : Nat := (a + b) % 2 ^ 64

/-- `a - b` on `size_t`. -/
def sub (a b : Nat) : Nat := (a + (2 ^ 64 - b % 2 ^ 64)) % 2 ^ 64

/-- `a << 1` on `size_t`. -/
def shl1 (a : Nat) : Nat := 2 * a % 2 ^ 64

/-- A `size_t` read as `ssize_t`. -/
def toSigned (a : Nat) : Int := if a < 2 ^ 63 then a else (a : Int) - 2 ^ 64

/-- Where the sum fits, it is the sum. -/
theorem add_of_lt {a b : Nat} (h : a + b < 2 ^ 64) : add a b = a + b := Nat.mod_eq_of_lt h

/-- Where nothing is borrowed, it is the difference. -/
theorem sub_of_le {a b : Nat} (ha : a < 2 ^ 64) (h : b ≤ a) : sub a b = a - b := by
  unfold sub
  omega

/-- Where the first number is smaller, the difference wraps around from the top. -/
theorem sub_of_lt {a b : Nat} (hb : b < 2 ^ 64) (h : a < b) : sub a b = 2 ^ 64 - (b - a) := by
  unfold sub
  omega

/-- Taking one away always changes a number. -/
theorem sub_one_ne (a : Nat) : sub a 1 ≠ a := by
  unfold sub
  omega

/-- Twice a number, as long as its top bit is clear. -/
theorem shl1_of_lt {a : Nat} (h : a < 2 ^ 63) : shl1 a = 2 * a := by
  unfold shl1
  omega

/-- A number with a clear top bit is the same, signed or not. -/
theorem toSigned_of_lt {a : Nat} (h : a < 2 ^ 63) : toSigned a = a := if_pos h

/-- `a + b` on `size_t`, unless it wraps around. -/
def exactAdd (a b : Nat) : Option Nat := if a + b < 2 ^ 64 then some (a + b) else none

/-- `a - b` on `size_t`, unless it wraps around. -/
def exactSub (a b : Nat) : Option Nat := if b ≤ a then some (a - b) else none

/-- `a * b` on `size_t`, unless it wraps around. -/
def exactMul (a b : Nat) : Option Nat := if a * b < 2 ^ 64 then some (a * b) else none

/-- The checks of the sizes pass where the number fits; the three lemmas are how a proof uses them.
-/
theorem exactAdd_of_lt {a b : Nat} (h : a + b < 2 ^ 64) : exactAdd a b = some (a + b) := if_pos h

theorem exactSub_of_le {a b : Nat} (h : b ≤ a) : exactSub a b = some (a - b) := if_pos h

theorem exactMul_of_lt {a b : Nat} (h : a * b < 2 ^ 64) : exactMul a b = some (a * b) := if_pos h

end SizeT

/-! ## 2. Blocks -/

section Slice

variable {α : Type*}

/-- The `n` bytes from offset `off` on. -/
def slice (m : Nat → α) (off n : Nat) : List α := (List.range n).map fun i => m (off + i)

/-- Memory after the bytes `bs` have been stored from offset `off` on. -/
def overlay (m : Nat → α) (off : Nat) (bs : List α) : Nat → α :=
  fun i => if off ≤ i then (bs[i - off]?).getD (m i) else m i

@[simp] theorem length_slice (m : Nat → α) (off n : Nat) : (slice m off n).length = n := by
  simp [slice]

@[simp] theorem slice_zero (m : Nat → α) (off : Nat) : slice m off 0 = [] := rfl

/-- The bytes of a slice, by their places. -/
theorem getElem?_slice (m : Nat → α) (off n i : Nat) :
    (slice m off n)[i]? = if i < n then some (m (off + i)) else none := by
  unfold slice
  split
  · next h => simp [h]
  · next h => simp [h]

/-- A slice in two parts. -/
theorem slice_add (m : Nat → α) (off a b : Nat) :
    slice m off (a + b) = slice m off a ++ slice m (off + a) b := by
  unfold slice
  rw [List.range_add, List.map_append, List.map_map]
  congr 1
  refine List.map_congr_left ?_
  intro i _
  exact congrArg m (Nat.add_assoc off a i).symm

/-- A slice depends on its own bytes only. -/
theorem slice_congr {m m' : Nat → α} {off n : Nat} (h : ∀ i < n, m (off + i) = m' (off + i)) :
    slice m off n = slice m' off n := by
  unfold slice
  refine List.map_congr_left ?_
  intro i hi
  exact h i (List.mem_range.mp hi)

/-- A front of a slice is a shorter slice. -/
theorem take_slice (m : Nat → α) (off : Nat) {n t : Nat} (h : t ≤ n) :
    (slice m off n).take t = slice m off t := by
  obtain ⟨d, rfl⟩ := Nat.exists_eq_add_of_le h
  rw [slice_add, List.take_left' (length_slice m off t)]

/-- The rest of a slice is a slice further on. -/
theorem drop_slice (m : Nat → α) (off : Nat) {n t : Nat} (h : t ≤ n) :
    (slice m off n).drop t = slice m (off + t) (n - t) := by
  obtain ⟨d, rfl⟩ := Nat.exists_eq_add_of_le h
  rw [slice_add, List.drop_left' (length_slice m off t), Nat.add_sub_cancel_left]

/-- Inside the stored range the new bytes are read back. -/
theorem overlay_of_mem (m : Nat → α) (off : Nat) {bs : List α} {i : Nat} (h : i < bs.length) :
    overlay m off bs (off + i) = bs[i] := by
  unfold overlay
  rw [if_pos (Nat.le_add_right off i), Nat.add_sub_cancel_left, List.getElem?_eq_getElem h]
  rfl

/-- Outside of it nothing has changed. -/
theorem overlay_of_not_mem (m : Nat → α) (off : Nat) {bs : List α} {i : Nat}
    (h : i < off ∨ off + bs.length ≤ i) : overlay m off bs i = m i := by
  unfold overlay
  split
  · next hle =>
    have hlen : bs.length ≤ i - off := by omega
    rw [List.getElem?_eq_none hlen]
    rfl
  · rfl

/-- What is stored is read back. -/
theorem slice_overlay_self (m : Nat → α) (off : Nat) (bs : List α) :
    slice (overlay m off bs) off bs.length = bs := by
  refine List.ext_getElem? ?_
  intro i
  rw [getElem?_slice]
  split
  · next h => rw [overlay_of_mem m off h, List.getElem?_eq_getElem h]
  · next h => rw [List.getElem?_eq_none (Nat.le_of_not_lt h)]

/-- A slice that has no byte in common with what is stored is as it was. -/
theorem slice_overlay_of_disjoint (m : Nat → α) {off n off' : Nat} {bs : List α}
    (h : off + n ≤ off' ∨ off' + bs.length ≤ off) :
    slice (overlay m off' bs) off n = slice m off n := by
  refine slice_congr ?_
  intro i hi
  exact overlay_of_not_mem m off' (by omega)

end Slice

/-- An allocated block: its size, and a byte at every offset (only those below `size` count). -/
structure Block (α : Type*) where
  size : Nat
  byte : Nat → α

namespace Block

variable {α : Type*}

/-- memcpy out of the block. -/
def load (b : Block α) (off n : Nat) : Option (List α) :=
  if off + n ≤ b.size then some (slice b.byte off n) else none

/-- memcpy into the block. -/
def store (b : Block α) (off : Nat) (bs : List α) : Option (Block α) :=
  if off + bs.length ≤ b.size then some { b with byte := overlay b.byte off bs } else none

/-- One byte of the block. -/
def read (b : Block α) (off : Nat) : Option α := if off < b.size then some (b.byte off) else none

theorem read_of_lt {b : Block α} {off : Nat} (h : off < b.size) : b.read off = some (b.byte off) :=
  if_pos h

/-- Reading within the block has a result. -/
theorem load_of_le {b : Block α} {off n : Nat} (h : off + n ≤ b.size) :
    b.load off n = some (slice b.byte off n) := if_pos h

/-- Reading beyond its end has none. -/
theorem load_of_lt {b : Block α} {off n : Nat} (h : b.size < off + n) :
    b.load off n = none := if_neg (Nat.not_le.mpr h)

/-- Storing within the block has a result. -/
theorem store_of_le {b : Block α} {off : Nat} {bs : List α} (h : off + bs.length ≤ b.size) :
    b.store off bs = some { b with byte := overlay b.byte off bs } := if_pos h

/-- Storing beyond its end has none. -/
theorem store_of_lt {b : Block α} {off : Nat} {bs : List α} (h : b.size < off + bs.length) :
    b.store off bs = none := if_neg (Nat.not_le.mpr h)

end Block

/-! ## 3. Circular windows -/

section Ring

variable {α : Type*}

/-- The offset `i` places after `off` in a buffer of `sz` bytes that folds back on itself. -/
def ringIdx (sz off i : Nat) : Nat := if off + i < sz then off + i else off + i - sz

/-- The `n` bytes from offset `off` on, around the fold. -/
def ringSlice (m : Nat → α) (sz off n : Nat) : List α :=
  (List.range n).map fun i => m (ringIdx sz off i)

/-- The case split is the remainder, as long as the end is crossed at most once. -/
theorem ringIdx_eq_mod {sz off i : Nat} (hoff : off < sz) (hi : i ≤ sz) :
    ringIdx sz off i = (off + i) % sz := by
  unfold ringIdx
  split
  · next h => exact (Nat.mod_eq_of_lt h).symm
  · next h =>
    rw [Nat.mod_eq_sub_mod (Nat.le_of_not_lt h), Nat.mod_eq_of_lt (by omega)]

/-- An offset that is folded back is in the buffer. -/
theorem ringIdx_lt {sz off i : Nat} (hoff : off < sz) (hi : i ≤ sz) : ringIdx sz off i < sz := by
  unfold ringIdx
  split <;> omega

/-- Advancing twice is advancing once, by both. -/
theorem ringIdx_add {sz off a b : Nat} (hoff : off < sz) (hab : a + b ≤ sz) :
    ringIdx sz (ringIdx sz off a) b = ringIdx sz off (a + b) := by
  unfold ringIdx
  split <;> split <;> split <;> omega

@[simp] theorem length_ringSlice (m : Nat → α) (sz off n : Nat) :
    (ringSlice m sz off n).length = n := by
  simp [ringSlice]

@[simp] theorem ringSlice_zero (m : Nat → α) (sz off : Nat) : ringSlice m sz off 0 = [] := rfl

/-- A circular window depends on its own bytes only. -/
theorem ringSlice_congr {m m' : Nat → α} {sz off n : Nat}
    (h : ∀ i < n, m (ringIdx sz off i) = m' (ringIdx sz off i)) :
    ringSlice m sz off n = ringSlice m' sz off n := by
  unfold ringSlice
  refine List.map_congr_left ?_
  intro i hi
  exact h i (List.mem_range.mp hi)

/-- A circular window in two parts. -/
theorem ringSlice_add (m : Nat → α) {sz off a b : Nat} (hoff : off < sz) (hab : a + b ≤ sz) :
    ringSlice m sz off (a + b) = ringSlice m sz off a ++ ringSlice m sz (ringIdx sz off a) b := by
  unfold ringSlice
  rw [List.range_add, List.map_append, List.map_map]
  congr 1
  refine List.map_congr_left ?_
  intro i hi
  have hi' : i < b := List.mem_range.mp hi
  exact congrArg m (ringIdx_add hoff (by omega)).symm

/-- A window that ends at or before the fold is a plain slice. -/
theorem ringSlice_eq_slice (m : Nat → α) {sz off n : Nat} (h : off + n ≤ sz) :
    ringSlice m sz off n = slice m off n := by
  unfold ringSlice slice
  refine List.map_congr_left ?_
  intro i hi
  have hi' : i < n := List.mem_range.mp hi
  exact congrArg m (if_pos (by omega))

/-- A window that crosses the fold is a tail and a head. -/
theorem ringSlice_eq_append (m : Nat → α) {sz off n : Nat} (hoff : off < sz) (hn : n ≤ sz)
    (h : sz ≤ off + n) :
    ringSlice m sz off n = slice m off (sz - off) ++ slice m 0 (n - (sz - off)) := by
  have hsplit : n = (sz - off) + (n - (sz - off)) := by omega
  have hfold : ringIdx sz off (sz - off) = 0 := by
    unfold ringIdx
    split <;> omega
  conv_lhs => rw [hsplit]
  rw [ringSlice_add m hoff (by omega), hfold, ringSlice_eq_slice m (by omega),
    ringSlice_eq_slice m (by omega)]

/-- A front of a circular window is a shorter one. -/
theorem take_ringSlice (m : Nat → α) {sz off n t : Nat} (hoff : off < sz) (hn : n ≤ sz)
    (ht : t ≤ n) : (ringSlice m sz off n).take t = ringSlice m sz off t := by
  obtain ⟨d, rfl⟩ := Nat.exists_eq_add_of_le ht
  rw [ringSlice_add m hoff hn, List.take_left' (length_ringSlice m sz off t)]

/-- The rest of a circular window is one further on. -/
theorem drop_ringSlice (m : Nat → α) {sz off n t : Nat} (hoff : off < sz) (hn : n ≤ sz)
    (ht : t ≤ n) :
    (ringSlice m sz off n).drop t = ringSlice m sz (ringIdx sz off t) (n - t) := by
  obtain ⟨d, rfl⟩ := Nat.exists_eq_add_of_le ht
  rw [ringSlice_add m hoff hn, List.drop_left' (length_ringSlice m sz off t),
    Nat.add_sub_cancel_left]

/-- **Appending to a window.**  If `m'` holds `bs` behind the window of `m` and agrees with `m` on
the window, its window is the one of `m` followed by `bs`. -/
theorem ringSlice_append {m m' : Nat → α} {sz off n : Nat} {bs : List α} (hoff : off < sz)
    (hlen : n + bs.length ≤ sz)
    (hold : ∀ i < n, m' (ringIdx sz off i) = m (ringIdx sz off i))
    (hnew : ringSlice m' sz (ringIdx sz off n) bs.length = bs) :
    ringSlice m' sz off (n + bs.length) = ringSlice m sz off n ++ bs := by
  rw [ringSlice_add m' hoff hlen, hnew, ringSlice_congr hold]

/-- Storing behind a window in one piece, when the piece ends at or before the fold. -/
theorem ringSlice_overlay (m : Nat → α) {sz off n : Nat} {bs : List α} (hoff : off < sz)
    (hlen : n + bs.length ≤ sz) (hfit : ringIdx sz off n + bs.length ≤ sz) :
    ringSlice (overlay m (ringIdx sz off n) bs) sz off (n + bs.length)
      = ringSlice m sz off n ++ bs := by
  refine ringSlice_append hoff hlen ?_ ?_
  · intro i hi
    refine overlay_of_not_mem m _ ?_
    unfold ringIdx at hfit ⊢
    split at hfit <;> split <;> omega
  · rw [ringSlice_eq_slice _ hfit]
    exact slice_overlay_self m _ bs

/-- Storing behind a window in two pieces, one up to the fold and one from the start. -/
theorem ringSlice_overlay_overlay (m : Nat → α) {sz off n : Nat} {bs₁ bs₂ : List α}
    (hoff : off < sz) (hlen : n + (bs₁ ++ bs₂).length ≤ sz)
    (hfit : ringIdx sz off n + bs₁.length = sz) :
    ringSlice (overlay (overlay m (ringIdx sz off n) bs₁) 0 bs₂) sz off (n + (bs₁ ++ bs₂).length)
      = ringSlice m sz off n ++ (bs₁ ++ bs₂) := by
  have hlen' : n + (bs₁.length + bs₂.length) ≤ sz := List.length_append ▸ hlen
  have hlt : ringIdx sz off n < sz := ringIdx_lt hoff (by omega)
  refine ringSlice_append hoff hlen ?_ ?_
  · intro i hi
    have hi₂ : 0 + bs₂.length ≤ ringIdx sz off i ∧ (ringIdx sz off i < ringIdx sz off n ∨
        ringIdx sz off n + bs₁.length ≤ ringIdx sz off i) := by
      unfold ringIdx at hfit ⊢
      split at hfit <;> split <;> omega
    rw [overlay_of_not_mem _ 0 (Or.inr hi₂.1), overlay_of_not_mem _ _ hi₂.2]
  · have hself := slice_overlay_self (overlay m (ringIdx sz off n) bs₁) 0 bs₂
    have hdisj : ringIdx sz off n + bs₁.length ≤ 0 ∨ 0 + bs₂.length ≤ ringIdx sz off n := by
      unfold ringIdx at hfit ⊢
      split at hfit <;> split <;> omega
    rw [ringSlice_eq_append _ hlt (by omega) (by rw [List.length_append]; omega),
      List.length_append, show sz - ringIdx sz off n = bs₁.length by omega,
      Nat.add_sub_cancel_left, hself, slice_overlay_of_disjoint _ hdisj, slice_overlay_self]

end Ring

/-! ## 4. Mirrored memory -/

section Mirrored

variable {α : Type*}

/-- The bytes from `sz` on repeat the bytes before `sz`. -/
def Mirrored (m : Nat → α) (sz : Nat) : Prop := ∀ i < sz, m (i + sz) = m i

/-- A piece that lies in the repeated half has a copy in the first one. -/
theorem Mirrored.slice_sub {m : Nat → α} {sz off n : Nat} (h : Mirrored m sz) (hoff : sz ≤ off)
    (hn : off + n ≤ 2 * sz) : slice m (off - sz) n = slice m off n := by
  unfold slice
  refine List.map_congr_left ?_
  intro i hi
  have hi' : i < n := List.mem_range.mp hi
  rw [← h (off - sz + i) (by omega)]
  exact congrArg m (by omega)

/-- Bytes stored in the first half and stored again `sz` further on. -/
theorem Mirrored.overlay_left {m : Nat → α} {sz p : Nat} {bs : List α} (h : Mirrored m sz)
    (hfit : p + bs.length ≤ sz) : Mirrored (overlay (overlay m p bs) (p + sz) bs) sz := by
  intro i hi
  by_cases hin : p ≤ i ∧ i < p + bs.length
  · obtain ⟨j, rfl⟩ := Nat.exists_eq_add_of_le hin.1
    have hj : j < bs.length := by omega
    rw [overlay_of_not_mem _ (p + sz) (show p + j < p + sz ∨ _ by omega), overlay_of_mem m p hj,
      show p + j + sz = p + sz + j by omega, overlay_of_mem _ (p + sz) hj]
  · rw [overlay_of_not_mem _ (p + sz) (by omega), overlay_of_not_mem _ p (by omega),
      overlay_of_not_mem _ (p + sz) (by omega), overlay_of_not_mem _ p (by omega), h i hi]

/-- Bytes stored in the second half and stored again `sz` before. -/
theorem Mirrored.overlay_right {m : Nat → α} {sz p : Nat} {bs : List α} (h : Mirrored m sz)
    (hp : sz ≤ p) (hfit : p + bs.length ≤ 2 * sz) :
    Mirrored (overlay (overlay m p bs) (p - sz) bs) sz := by
  intro i hi
  by_cases hin : p ≤ i + sz ∧ i + sz < p + bs.length
  · obtain ⟨j, hj⟩ := Nat.exists_eq_add_of_le hin.1
    have hlt : j < bs.length := by omega
    rw [overlay_of_not_mem _ (p - sz) (by omega), hj, overlay_of_mem m p hlt,
      show i = p - sz + j by omega, overlay_of_mem _ (p - sz) hlt]
  · rw [overlay_of_not_mem _ (p - sz) (by omega), overlay_of_not_mem _ p (by omega),
      overlay_of_not_mem _ (p - sz) (by omega), overlay_of_not_mem _ p (by omega), h i hi]

/-- Bytes stored across the middle: the part before it is stored again at the end of the second
half, the part after it at the start of the first. -/
theorem Mirrored.overlay_cross {m : Nat → α} {sz p : Nat} {bs₁ bs₂ : List α} (h : Mirrored m sz)
    (hmid : p + bs₁.length = sz) (hfit : bs₂.length ≤ p) :
    Mirrored (overlay (overlay (overlay m p (bs₁ ++ bs₂)) (p + sz) bs₁) 0 bs₂) sz := by
  have hlen : (bs₁ ++ bs₂).length = bs₁.length + bs₂.length := List.length_append
  intro i hi
  by_cases hright : i < bs₂.length
  · have hj : bs₁.length + i < (bs₁ ++ bs₂).length := by omega
    have h₀ : overlay (overlay (overlay m p (bs₁ ++ bs₂)) (p + sz) bs₁) 0 bs₂ (0 + i) = bs₂[i] :=
      overlay_of_mem _ 0 hright
    rw [Nat.zero_add] at h₀
    rw [h₀, overlay_of_not_mem _ 0 (by omega), overlay_of_not_mem _ (p + sz) (by omega),
      show i + sz = p + (bs₁.length + i) by omega, overlay_of_mem m p hj,
      List.getElem_append_right (Nat.le_add_right _ _)]
    simp only [Nat.add_sub_cancel_left]
  · by_cases hleft : p ≤ i
    · obtain ⟨j, rfl⟩ := Nat.exists_eq_add_of_le hleft
      have hj : j < bs₁.length := by omega
      rw [overlay_of_not_mem _ 0 (show _ ∨ 0 + bs₂.length ≤ p + j + sz by omega),
        show p + j + sz = p + sz + j by omega, overlay_of_mem _ (p + sz) hj,
        overlay_of_not_mem _ 0 (show _ ∨ 0 + bs₂.length ≤ p + j by omega),
        overlay_of_not_mem _ (p + sz) (show p + j < p + sz ∨ _ by omega),
        overlay_of_mem m p (show j < (bs₁ ++ bs₂).length by omega), List.getElem_append_left hj]
    · rw [overlay_of_not_mem _ 0 (by omega), overlay_of_not_mem _ (p + sz) (by omega),
        overlay_of_not_mem _ p (by omega), overlay_of_not_mem _ 0 (by omega),
        overlay_of_not_mem _ (p + sz) (by omega), overlay_of_not_mem _ p (by omega), h i hi]

end Mirrored

/-! ## 5. Memory that is mapped twice -/

namespace Block

variable {α : Type*}

/-- memcpy out of two mappings of the block, one behind the other. -/
def loadTwice (b : Block α) (off n : Nat) : Option (List α) :=
  if off + n ≤ 2 * b.size then some (slice (fun i => b.byte (i % b.size)) off n) else none

/-- memcpy into two mappings of the block, one behind the other; it has no result where one byte
would be stored over another. -/
def storeTwice (b : Block α) (off : Nat) (bs : List α) : Option (Block α) :=
  if off + bs.length ≤ 2 * b.size ∧ bs.length ≤ b.size then
    some { b with
      byte := fun j => (bs[(j + b.size - off % b.size) % b.size]?).getD (b.byte j) }
  else none

variable {b : Block α} {off n : Nat}

/-- Through the two mappings every window is one piece. -/
theorem loadTwice_of_lt (hoff : off < b.size) (hn : n ≤ b.size) :
    b.loadTwice off n = some (ringSlice b.byte b.size off n) := by
  rw [loadTwice, if_pos (by omega)]
  refine congrArg some (List.map_congr_left ?_)
  intro i hi
  have hi' : i < n := List.mem_range.mp hi
  rw [ringIdx_eq_mod hoff (by omega)]

/-- The distance between two offsets, around the fold. -/
theorem ring_distance {sz p j : Nat} (hp : p < sz) (hj : j < sz) :
    (j + sz - p) % sz = if p ≤ j then j - p else j + sz - p := by
  split
  · next h =>
    have hsplit : j + sz - p = j - p + sz := by omega
    rw [hsplit, Nat.add_mod_right, Nat.mod_eq_of_lt (by omega)]
  · next h => exact Nat.mod_eq_of_lt (by omega)

/-- Bytes stored behind a window in one piece. -/
theorem storeTwice_append {bs : List α} (hoff : off < b.size) (hlen : n + bs.length ≤ b.size) :
    ∃ m, b.storeTwice (off + n) bs = some { b with byte := m } ∧
      ringSlice m b.size off (n + bs.length) = ringSlice b.byte b.size off n ++ bs := by
  refine ⟨_, if_pos ⟨by omega, by omega⟩, ?_⟩
  have hp : (off + n) % b.size = ringIdx b.size off n :=
    (ringIdx_eq_mod hoff (by omega)).symm
  have hp_lt : ringIdx b.size off n < b.size := ringIdx_lt hoff (by omega)
  simp only [hp]
  refine ringSlice_append hoff hlen ?_ ?_
  · intro i hi
    rw [ring_distance hp_lt (ringIdx_lt hoff (by omega)), List.getElem?_eq_none]
    · rfl
    · unfold ringIdx at hp_lt ⊢
      split <;> split <;> split <;> omega
  · refine List.ext_getElem? ?_
    intro i
    unfold ringSlice
    rw [List.getElem?_map]
    by_cases hi : i < bs.length
    · rw [List.getElem?_range hi, Option.map_some, ringIdx_add hoff (by omega)]
      dsimp only
      rw [ring_distance hp_lt (ringIdx_lt hoff (by omega))]
      have hdist : (if ringIdx b.size off n ≤ ringIdx b.size off (n + i)
          then ringIdx b.size off (n + i) - ringIdx b.size off n
          else ringIdx b.size off (n + i) + b.size - ringIdx b.size off n) = i := by
        unfold ringIdx
        split <;> split <;> split <;> omega
      rw [hdist, List.getElem?_eq_getElem hi, Option.getD_some]
    · rw [List.getElem?_eq_none (by simpa using hi), List.getElem?_eq_none (by omega),
        Option.map_none]

end Block

end Verif
