/-
# Binary heaps

A heap has the positions `1` to `n`, and `i / 2` is the parent of `i`.  What is at them is a
function `f`, of which nothing is said at other positions.

* §1 is the order: no position is above its parent, so the greatest is at the top.
* §2: a position that may be above its parent is moved up, `UpHeap`.
* §3: one that may be below a child is moved down, `DownHeap`.
* §4: what is at the positions is the same, however it is moved about.
-/
import Mathlib.Logic.Equiv.Basic
import Mathlib.Order.Lattice
import Mathlib.Data.List.Nodup

namespace Verif

open Equiv

section Swap

variable {α : Type*} {f : ℕ → α} {k j i : ℕ}

theorem swap_left : (f ∘ swap k j) k = f j := congrArg f (swap_apply_left k j)

theorem swap_right : (f ∘ swap k j) j = f k := congrArg f (swap_apply_right k j)

theorem swap_of_ne (hk : i ≠ k) (hj : i ≠ j) : (f ∘ swap k j) i = f i :=
  congrArg f (swap_apply_of_ne_of_ne hk hj)

end Swap

/-! ## 1. Order -/

section Order

variable {κ : Type*} [LinearOrder κ] {f g : ℕ → κ} {n k j i : ℕ}

/-- No position is above its parent. -/
def MaxHeap (f : ℕ → κ) (n : ℕ) : Prop := ∀ i, 1 < i → i ≤ n → f i ≤ f (i / 2)

theorem maxHeap_zero : MaxHeap f 0 := by
  intro i hi hn
  omega

/-- **The top is the greatest**, by induction along the parents. -/
theorem MaxHeap.le_top (h : MaxHeap f n) : 0 < i → i ≤ n → f i ≤ f 1 := by
  induction i using Nat.strongRecOn with
  | ind i ih =>
    intro hi hn
    by_cases htop : i = 1
    · rw [htop]
    · have hpar : f i ≤ f (i / 2) := h i (by omega) hn
      exact le_trans hpar (ih (i / 2) (by omega) (by omega) (by omega))

/-! ## 2. Moving up -/

/-- A heap, but that what is at `k` may be above its parent. -/
structure UpHeap (f : ℕ → κ) (n k : ℕ) : Prop where
  pair : ∀ i, 1 < i → i ≤ n → i ≠ k → f i ≤ f (i / 2)
  grand : ∀ i, 1 < k → i ≤ n → i / 2 = k → f i ≤ f (k / 2)

/-- One more position, at the bottom. -/
theorem MaxHeap.push (h : MaxHeap f n) (hg : ∀ i, 0 < i → i ≤ n → g i = f i) :
    UpHeap g (n + 1) (n + 1) := by
  constructor
  · intro i hi hn hne
    rw [hg i (by omega) (by omega), hg (i / 2) (by omega) (by omega)]
    exact h i hi (by omega)
  · intro i _ hn hpar
    omega

/-- Moving up is over where the parent is not below, or at the top. -/
theorem UpHeap.done (h : UpHeap f n k) (hstop : 1 < k → f k ≤ f (k / 2)) : MaxHeap f n := by
  intro i hi hn
  by_cases hik : i = k
  · rw [hik] at hi ⊢
    exact hstop hi
  · exact h.pair i hi hn hik

/-- What is at `k` changes places with its parent: only the parent's place can then be wrong. -/
theorem UpHeap.move (h : UpHeap f n k) (hk : 1 < k) (hn : k ≤ n) (hlt : f (k / 2) < f k) :
    UpHeap (f ∘ swap k (k / 2)) n (k / 2) := by
  constructor
  · intro i hi hin hne
    by_cases hik : i = k
    · rw [hik, swap_left, swap_right]
      exact le_of_lt hlt
    · rw [swap_of_ne hik hne]
      by_cases hpk : i / 2 = k
      · rw [hpk, swap_left]
        exact h.grand i hk hin hpk
      · have hi' : f i ≤ f (i / 2) := h.pair i hi hin hik
        by_cases hpp : i / 2 = k / 2
        · rw [hpp, swap_right]
          rw [hpp] at hi'
          exact le_trans hi' (le_of_lt hlt)
        · rwa [swap_of_ne hpk hpp]
  · intro i hp hin hpar
    have hup : f (k / 2) ≤ f (k / 2 / 2) := h.pair (k / 2) hp (by omega) (by omega)
    rw [swap_of_ne (i := k / 2 / 2) (by omega) (by omega)]
    by_cases hik : i = k
    · rwa [hik, swap_left]
    · rw [swap_of_ne hik (by omega)]
      have hi' : f i ≤ f (i / 2) := h.pair i (by omega) hin hik
      rw [hpar] at hi'
      exact le_trans hi' hup

/-! ## 3. Moving down -/

/-- A heap, but that what is at `k` may be below its children. -/
structure DownHeap (f : ℕ → κ) (n k : ℕ) : Prop where
  pair : ∀ i, 1 < i → i ≤ n → i / 2 ≠ k → f i ≤ f (i / 2)
  grand : ∀ i, 1 < k → i ≤ n → i / 2 = k → f i ≤ f (k / 2)

/-- The last position has gone to the top, and one position less counts. -/
theorem MaxHeap.pop (h : MaxHeap f (n + 1)) : DownHeap (f ∘ swap 1 (n + 1)) n 1 := by
  constructor
  · intro i hi hn hne
    rw [swap_of_ne (by omega) (by omega), swap_of_ne hne (by omega)]
    exact h i hi (by omega)
  · intro i h1
    omega

/-- Moving down is over where no child is above. -/
theorem DownHeap.done (h : DownHeap f n k)
    (hstop : ∀ i, 1 < i → i ≤ n → i / 2 = k → f i ≤ f k) : MaxHeap f n := by
  intro i hi hn
  by_cases hik : i / 2 = k
  · rw [hik]
    exact hstop i hi hn hik
  · exact h.pair i hi hn hik

/-- What is at `k` changes places with the greater child `j`. -/
theorem DownHeap.move (h : DownHeap f n k) (hk : 0 < k) (hj : j ≤ n)
    (hpar : j / 2 = k) (hlt : f k < f j)
    (hmax : ∀ i, i ≤ n → i / 2 = k → f i ≤ f j) : DownHeap (f ∘ swap k j) n j := by
  constructor
  · intro i hi hin hne
    by_cases hij : i = j
    · rw [hij, hpar, swap_left, swap_right]
      exact le_of_lt hlt
    · by_cases hik : i = k
      · rw [hik] at hi ⊢
        rw [swap_left, swap_of_ne (by omega) (by omega)]
        exact h.grand j hi hj hpar
      · rw [swap_of_ne hik hij]
        by_cases hip : i / 2 = k
        · rw [hip, swap_left]
          exact hmax i hin hip
        · rw [swap_of_ne hip hne]
          exact h.pair i hi hin hip
  · intro i hj1 hin hij
    rw [hpar, swap_left, swap_of_ne (by omega) (by omega)]
    have hi' : f i ≤ f (i / 2) := h.pair i (by omega) hin (by omega)
    rwa [hij] at hi'

end Order

/-! ## 4. What is at the positions -/

section Slots

variable {α : Type*} {f g : ℕ → α} {n k j : ℕ}

/-- What is at the positions, in their order. -/
def slots (f : ℕ → α) (n : ℕ) : List α := (List.range' 1 n).map f

theorem slots_succ : slots f (n + 1) = slots f n ++ [f (n + 1)] := by
  rw [slots, List.range'_concat, List.map_append, Nat.one_mul, Nat.add_comm 1 n]
  rfl

theorem slots_cons (hn : 0 < n) : (slots f n).Perm (f n :: slots f (n - 1)) := by
  cases n with
  | zero => cases hn
  | succ n =>
    rw [slots_succ]
    exact List.perm_append_singleton _ _

/-- What is at some position. -/
theorem mem_slots {x : α} : x ∈ slots f n ↔ ∃ i, 0 < i ∧ i ≤ n ∧ f i = x := by
  rw [slots, List.mem_map]
  constructor
  · rintro ⟨i, hi, rfl⟩
    have hi := List.mem_range'_1.mp hi
    exact ⟨i, by omega, by omega, rfl⟩
  · rintro ⟨i, hi, hn, rfl⟩
    exact ⟨i, List.mem_range'_1.mpr ⟨by omega, by omega⟩, rfl⟩

/-- Only the positions count. -/
theorem slots_congr (h : ∀ i, 0 < i → i ≤ n → f i = g i) : slots f n = slots g n := by
  refine List.map_congr_left fun i hi => ?_
  have hi := List.mem_range'_1.mp hi
  exact h i (by omega) (by omega)

/-- Two of them change places. -/
theorem slots_swap (hk : 0 < k) (hkn : k ≤ n) (hj : 0 < j) (hjn : j ≤ n) :
    (slots (f ∘ swap k j) n).Perm (slots f n) := by
  have hmem : ∀ i, i ∈ List.range' 1 n ↔ 0 < i ∧ i ≤ n := by
    intro i
    rw [List.mem_range'_1]
    omega
  have hin : ∀ i, i ∈ List.range' 1 n → swap k j i ∈ List.range' 1 n := by
    intro i hi
    rw [hmem] at hi ⊢
    rw [swap_apply_def]
    split
    · exact ⟨hj, hjn⟩
    · split
      · exact ⟨hk, hkn⟩
      · exact hi
  have hperm : ((List.range' 1 n).map (swap k j)).Perm (List.range' 1 n) := by
    have hnd : (List.range' 1 n).Nodup := List.nodup_range'
    refine (List.perm_ext_iff_of_nodup (hnd.map (swap k j).injective) hnd).mpr ?_
    intro i
    rw [List.mem_map]
    constructor
    · rintro ⟨a, ha, rfl⟩
      exact hin a ha
    · intro hi
      exact ⟨swap k j i, hin i hi, swap_apply_self k j i⟩
  have heq : slots (f ∘ swap k j) n = ((List.range' 1 n).map (swap k j)).map f := by
    rw [slots, List.map_map]
  rw [heq]
  exact hperm.map f

end Slots

end Verif
