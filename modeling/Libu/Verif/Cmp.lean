/-
# Three-way comparison functions and the lists they sort

A comparison function in the C style is `cmp : κ → κ → Int`: negative, zero or positive as the
first key is below, equal to or above the second.  `IsPreorder cmp` says that it is a total
preorder (keys may be equal without being the same).

The second part is about lists of records sorted by such a comparison of their keys, and the
STABLE insertion into them: a new record goes after every record with an equal key.  The lemmas
are the ones a search tree needs: how a sorted list splits at a record, and on which side of it
the insertion happens.  The last part is about records none of which share a key.
-/
import Mathlib.Data.List.Sort

namespace Verif

/-! ## 1. Comparison functions -/

section Cmp

variable {κ : Type*} {cmp : κ → κ → Int}

/-- `cmp` is a total preorder: swapping the arguments flips the sign, and `≤` is transitive. -/
structure IsPreorder (cmp : κ → κ → Int) : Prop where
  swap : ∀ a b, cmp a b < 0 ↔ 0 < cmp b a
  trans : ∀ a b c, cmp a b ≤ 0 → cmp b c ≤ 0 → cmp a c ≤ 0

namespace IsPreorder

/-- A key is equal to itself. -/
theorem refl (h : IsPreorder cmp) (a : κ) : cmp a a = 0 := by
  have := h.swap a a
  omega

/-- Being equal is symmetric. -/
theorem zero_comm (h : IsPreorder cmp) {a b : κ} : cmp a b = 0 ↔ cmp b a = 0 := by
  have h1 := h.swap a b
  have h2 := h.swap b a
  omega

/-- `a ≤ b` fails exactly when `b < a`. -/
theorem le_iff_not_lt (h : IsPreorder cmp) {a b : κ} : cmp a b ≤ 0 ↔ ¬ cmp b a < 0 := by
  have := h.swap b a
  omega

/-- Below, and then not above. -/
theorem lt_of_lt_of_le (h : IsPreorder cmp) {a b c : κ} (hab : cmp a b < 0)
    (hbc : cmp b c ≤ 0) : cmp a c < 0 := by
  by_contra hac
  have hca : cmp c a ≤ 0 := h.le_iff_not_lt.mpr hac
  have hba : cmp b a ≤ 0 := h.trans b c a hbc hca
  have := h.swap a b
  omega

/-- Not above, and then below. -/
theorem lt_of_le_of_lt (h : IsPreorder cmp) {a b c : κ} (hab : cmp a b ≤ 0)
    (hbc : cmp b c < 0) : cmp a c < 0 := by
  by_contra hac
  have hca : cmp c a ≤ 0 := h.le_iff_not_lt.mpr hac
  have hcb : cmp c b ≤ 0 := h.trans c a b hca hab
  have := h.swap b c
  omega

end IsPreorder

end Cmp

/-! ## 2. Sorted lists and stable insertion -/

section Sorted

variable {κ ε : Type*} (cmp : κ → κ → Int) (key : ε → κ)

/-- The records of `l` appear in ascending order of their keys, equal keys allowed. -/
def SortedBy (l : List ε) : Prop := l.Pairwise fun x y => cmp (key x) (key y) ≤ 0

/-- Insert `e` before the first record with a greater key: after every record whose key is
equal, when the list is sorted. -/
def stableInsert (e : ε) (l : List ε) : List ε :=
  l.orderedInsert (fun x y => cmp (key x) (key y) < 0) e

/-- The records of `es`, inserted one after the other. -/
def stableSort (es : List ε) : List ε := es.foldl (fun l e => stableInsert cmp key e l) []

variable {cmp key}

@[simp] theorem stableInsert_nil (e : ε) : stableInsert cmp key e [] = [e] := rfl

@[simp] theorem stableInsert_ne_nil (e : ε) (l : List ε) : stableInsert cmp key e l ≠ [] := by
  intro h
  have := (List.perm_orderedInsert (fun x y => cmp (key x) (key y) < 0) e l).length_eq
  rw [show l.orderedInsert (fun x y => cmp (key x) (key y) < 0) e = [] from h] at this
  simp at this

/-- Insertion adds the one record and loses none. -/
theorem stableInsert_perm (e : ε) (l : List ε) : (stableInsert cmp key e l).Perm (e :: l) :=
  List.perm_orderedInsert _ e l

@[simp] theorem mem_stableInsert {e x : ε} {l : List ε} :
    x ∈ stableInsert cmp key e l ↔ x = e ∨ x ∈ l := by
  rw [(stableInsert_perm e l).mem_iff, List.mem_cons]

/-- A record with a greater key bounds the insertion to what comes before it. -/
theorem stableInsert_append_of_lt {e x : ε} {l₁ l₂ : List ε} (h : cmp (key e) (key x) < 0) :
    stableInsert cmp key e (l₁ ++ x :: l₂) = stableInsert cmp key e l₁ ++ x :: l₂ := by
  induction l₁ with
  | nil => simp [stableInsert, h]
  | cons y l₁ ih =>
    simp only [stableInsert, List.cons_append, List.orderedInsert_cons] at ih ⊢
    split
    · rfl
    · rw [ih, List.cons_append]

/-- Records whose keys are not greater are all passed over. -/
theorem stableInsert_append_of_le {e : ε} {l₁ l₂ : List ε}
    (h : ∀ y ∈ l₁, ¬ cmp (key e) (key y) < 0) :
    stableInsert cmp key e (l₁ ++ l₂) = l₁ ++ stableInsert cmp key e l₂ := by
  induction l₁ with
  | nil => rfl
  | cons y l₁ ih =>
    have hy : ¬ cmp (key e) (key y) < 0 := h y (by simp)
    have ih' := ih fun z hz => h z (by simp [hz])
    simp only [stableInsert, List.cons_append, List.orderedInsert_cons, if_neg hy] at ih' ⊢
    rw [ih']

section Preorder

variable (hc : IsPreorder cmp)
include hc

/-- In a sorted list, what comes before a record that is not above `e` is passed over, and so
is the record. -/
theorem stableInsert_append_of_not_lt {e x : ε} {l₁ l₂ : List ε}
    (hs : SortedBy cmp key (l₁ ++ x :: l₂)) (h : ¬ cmp (key e) (key x) < 0) :
    stableInsert cmp key e (l₁ ++ x :: l₂) = l₁ ++ x :: stableInsert cmp key e l₂ := by
  have hle : ∀ y ∈ l₁ ++ [x], ¬ cmp (key e) (key y) < 0 := by
    intro y hy
    rcases List.mem_append.mp hy with hy | hy
    · have hyx : cmp (key y) (key x) ≤ 0 := (List.pairwise_append.mp hs).2.2 y hy x (by simp)
      exact hc.le_iff_not_lt.mp (hc.trans _ _ _ hyx (hc.le_iff_not_lt.mpr h))
    · rw [List.mem_singleton.mp hy]; exact h
  simpa using @stableInsert_append_of_le _ _ cmp key e (l₁ ++ [x]) l₂ hle

/-- Stable insertion keeps a list sorted. -/
theorem SortedBy.stableInsert {l : List ε} (hs : SortedBy cmp key l) (e : ε) :
    SortedBy cmp key (stableInsert cmp key e l) := by
  induction l with
  | nil => exact List.pairwise_singleton _ _
  | cons x l ih =>
    obtain ⟨hx, hl⟩ := List.pairwise_cons.mp hs
    by_cases h : cmp (key e) (key x) < 0
    · have heq : Verif.stableInsert cmp key e (x :: l) = e :: x :: l := by
        simp [Verif.stableInsert, h]
      rw [heq]
      refine List.pairwise_cons.mpr ⟨fun y hy => ?_, hs⟩
      rcases List.mem_cons.mp hy with rfl | hy
      · omega
      · exact hc.trans _ _ _ (by omega) (hx y hy)
    · have heq : Verif.stableInsert cmp key e (x :: l) = x :: Verif.stableInsert cmp key e l := by
        simp [Verif.stableInsert, h]
      rw [heq]
      refine List.pairwise_cons.mpr ⟨fun y hy => ?_, ih hl⟩
      rcases mem_stableInsert.mp hy with rfl | hy
      · exact hc.le_iff_not_lt.mpr h
      · exact hx y hy

/-- In a sorted list, a record equal to `k` that lies beside a record below `k` lies after it. -/
theorem SortedBy.mem_right_of_lt {k : κ} {x y : ε} {l₁ l₂ : List ε}
    (hs : SortedBy cmp key (l₁ ++ x :: l₂)) (hx : 0 < cmp k (key x))
    (hy : y ∈ l₁ ++ x :: l₂) (hky : cmp k (key y) = 0) : y ∈ l₂ := by
  have hxk : cmp (key x) k < 0 := (hc.swap _ _).mpr hx
  rcases List.mem_append.mp hy with h | h
  · have hyx : cmp (key y) (key x) ≤ 0 := (List.pairwise_append.mp hs).2.2 y h x (by simp)
    have hyk : cmp (key y) k < 0 := hc.lt_of_le_of_lt hyx hxk
    have := hc.zero_comm.mp hky
    omega
  · rcases List.mem_cons.mp h with rfl | h
    · omega
    · exact h

/-- Beside a record above `k`, a record with the key `k` is before it. -/
theorem SortedBy.mem_left_of_lt {k : κ} {x y : ε} {l₁ l₂ : List ε}
    (hs : SortedBy cmp key (l₁ ++ x :: l₂)) (hx : cmp k (key x) < 0)
    (hy : y ∈ l₁ ++ x :: l₂) (hky : cmp k (key y) = 0) : y ∈ l₁ := by
  rcases List.mem_append.mp hy with h | h
  · exact h
  · have hxk : 0 < cmp (key x) k := (hc.swap _ _).mp hx
    rcases List.mem_cons.mp h with rfl | h
    · omega
    · have hs' := (List.pairwise_append.mp hs).2.1
      have hxy : cmp (key x) (key y) ≤ 0 := (List.pairwise_cons.mp hs').1 y h
      have hyk : cmp (key y) k = 0 := hc.zero_comm.mp hky
      have := hc.trans _ _ _ hxy (by omega : cmp (key y) k ≤ 0)
      omega

end Preorder

/-- A part of a sorted list is sorted. -/
theorem SortedBy.sublist {l l' : List ε} (hs : SortedBy cmp key l) (h : l'.Sublist l) :
    SortedBy cmp key l' := List.Pairwise.sublist h hs

/-- Appending to the input of `stableSort` inserts into its output. -/
@[simp] theorem stableSort_concat (es : List ε) (e : ε) :
    stableSort cmp key (es ++ [e]) = stableInsert cmp key e (stableSort cmp key es) := by
  simp [stableSort]

end Sorted

/-! ## 3. Records with a key of their own -/

/-- A record is the one that a search for its key comes to, when no other has that key. -/
theorem find?_key {κ ε : Type*} [DecidableEq κ] {key : ε → κ} {l : List ε} {e : ε}
    (hkeys : (l.map key).Nodup) (he : e ∈ l) : (l.find? fun x => key x = key e) = some e := by
  cases hfind : l.find? fun x => key x = key e with
  | none => exact absurd (decide_eq_true rfl) (List.find?_eq_none.mp hfind e he)
  | some x =>
    have hkey := List.find?_some hfind
    rw [decide_eq_true_iff] at hkey
    rw [List.inj_on_of_nodup_map hkeys (List.mem_of_find?_eq_some hfind) he hkey]

end Verif
