/-
# Depths and ranks

Jobs that need others have a depth: no job without needs is above another one, and any other is one
above the deepest that it needs.  A scheduler that takes the jobs one by one, each time the first in
a list that may be taken, can count as it goes along: a job gets a rank when the last one that it
needs is taken, above all ranks so far.

* §1: depths.
* §2: the order in which such a scheduler takes the jobs.
* §3: the ranks are the depths exactly when what a job needs is always taken before all that is as
  deep as that job (`Counted.eq_depth_iff`).
-/
import Mathlib.Data.List.Basic

namespace Verif

variable {ι : Type*}

/-! ## 1. Depths -/

/-- The least number above all of a list. -/
def above (l : List Nat) : Nat := (l.map (· + 1)).foldr max 0

/-- What is above all of a list is as small as it can be. -/
theorem above_le_iff {l : List Nat} {n : Nat} : above l ≤ n ↔ ∀ x ∈ l, x < n := by
  induction l with
  | nil => simp [above]
  | cons x l ih =>
    rw [List.forall_mem_cons, ← ih]
    exact Nat.max_le

theorem lt_above_iff {l : List Nat} {n : Nat} : n < above l ↔ ∃ x ∈ l, n ≤ x := by
  rw [← Nat.not_le, above_le_iff]
  simp only [not_forall, Nat.not_lt, exists_prop]

/-- One more number in the list. -/
theorem above_concat (l : List Nat) (x : Nat) : above (l ++ [x]) = max (above l) (x + 1) := by
  induction l with
  | nil => rfl
  | cons y l ih =>
    change max (y + 1) (above (l ++ [x])) = max (max (y + 1) (above l)) (x + 1)
    rw [ih, Nat.max_assoc]

/-- A job without needs has depth 0, and any other job is one deeper than the deepest that it
needs. -/
def IsDepth (deps : ι → List ι) (depth : ι → Nat) : Prop :=
  ∀ i, depth i = above ((deps i).map depth)

variable {deps : ι → List ι} {depth : ι → Nat}

/-- What a job needs is less deep. -/
theorem IsDepth.lt (h : IsDepth deps depth) {i j : ι} (hj : j ∈ deps i) : depth j < depth i := by
  rw [h i, lt_above_iff]
  exact ⟨depth j, List.mem_map_of_mem hj, Nat.le_refl _⟩

/-- The needs determine the depths. -/
theorem IsDepth.unique {f g : ι → Nat} (hf : IsDepth deps f) (hg : IsDepth deps g) : f = g := by
  have heq : ∀ n i, f i < n → f i = g i := by
    intro n
    induction n with
    | zero => exact fun i hi => absurd hi (Nat.not_lt_zero _)
    | succ n ih =>
      intro i hi
      have hdeps : (deps i).map f = (deps i).map g := by
        refine List.map_congr_left fun j hj => ih j ?_
        exact Nat.lt_of_lt_of_le (hf.lt hj) (Nat.le_of_lt_succ hi)
      rw [hf i, hg i, hdeps]
  exact funext fun i => heq (f i + 1) i (Nat.lt_succ_self _)

/-- The depth of a job, if it is less than `n`. -/
def depthUpTo (deps : ι → List ι) : Nat → ι → Nat
  | 0, _ => 0
  | n + 1, i => above ((deps i).map (depthUpTo deps n))

/-- Where ranks go up along the needs, there are depths. -/
theorem exists_isDepth (rank : ι → Nat) (hrank : ∀ i, ∀ j ∈ deps i, rank j < rank i) :
    ∃ depth, IsDepth deps depth := by
  have hstable : ∀ n m i, rank i < n → rank i < m → depthUpTo deps n i = depthUpTo deps m i := by
    intro n
    induction n with
    | zero => exact fun m i hi => absurd hi (Nat.not_lt_zero _)
    | succ n ih =>
      intro m i hn hm
      obtain ⟨m, rfl⟩ := Nat.exists_eq_succ_of_ne_zero (Nat.ne_of_gt (Nat.zero_lt_of_lt hm))
      refine congrArg above (List.map_congr_left fun j hj => ih m j ?_ ?_)
      · exact Nat.lt_of_lt_of_le (hrank i j hj) (Nat.le_of_lt_succ hn)
      · exact Nat.lt_of_lt_of_le (hrank i j hj) (Nat.le_of_lt_succ hm)
  refine ⟨fun i => depthUpTo deps (rank i + 1) i, fun i => ?_⟩
  refine congrArg above (List.map_congr_left fun j hj => ?_)
  exact hstable _ _ j (hrank i j hj) (Nat.lt_succ_self _)

/-! ## 2. First come, first taken -/

section Order

variable [DecidableEq ι] {jobs order : List ι}

/-- The first job that is not taken and needs no other that is not taken. -/
def nextJob (jobs : List ι) (deps : ι → List ι) (taken : List ι) : Option ι :=
  jobs.find? fun i => i ∉ taken ∧ ∀ d ∈ deps i, d ∈ taken

/-- The order in which the jobs are taken, until none may be taken. -/
def FirstFit (jobs : List ι) (deps : ι → List ι) (order : List ι) : Prop :=
  ∀ n : Nat, order[n]? = nextJob jobs deps (order.take n)

theorem FirstFit.unique {order' : List ι} (h : FirstFit jobs deps order)
    (h' : FirstFit jobs deps order') : order = order' := by
  have htake : ∀ n : Nat, order.take n = order'.take n := by
    intro n
    induction n with
    | zero => rfl
    | succ n ih => rw [List.take_add_one, List.take_add_one, h n, h' n, ih]
  refine List.ext_getElem? fun n => ?_
  rw [h n, h' n, htake n]

/-- What a job needs is taken before it. -/
theorem FirstFit.needs (h : FirstFit jobs deps order) {i d : ι} (hi : i ∈ order) (hd : d ∈ deps i) :
    d ∈ order ∧ order.idxOf d < order.idxOf i := by
  have hlt : order.idxOf i < order.length := List.idxOf_lt_length_of_mem hi
  have hnext := h (order.idxOf i)
  rw [List.getElem?_eq_getElem hlt, List.getElem_idxOf hlt] at hnext
  have hfree := List.find?_some hnext.symm
  rw [decide_eq_true_iff] at hfree
  have htake : d ∈ order.take (order.idxOf i) := hfree.2 d hd
  have hmem : d ∈ order := List.mem_of_mem_take htake
  exact ⟨hmem, (List.mem_take_iff_idxOf_lt hmem).mp htake⟩

/-! ## 3. Counting -/

/-- What is counted for a job with the needs `needs`: above all ranks up to the last of these that
is taken. -/
def counted (rank : ι → Nat) (taken needs : List ι) : Nat :=
  above ((taken.take (above ((needs.filter (· ∈ taken)).map taken.idxOf))).map rank)

/-- When a job that is needed is taken, the count goes above all that were taken so far. -/
theorem counted_concat_of_mem {rank : ι → Nat} {taken needs : List ι} {a : ι} (hnew : a ∉ taken)
    (ha : a ∈ needs) : counted rank (taken ++ [a]) needs = above ((taken ++ [a]).map rank) := by
  have hall : (taken ++ [a]).length ≤
      above ((needs.filter (· ∈ taken ++ [a])).map (taken ++ [a]).idxOf) := by
    rw [List.length_append, List.length_singleton, Nat.succ_le_iff, lt_above_iff]
    refine ⟨_, List.mem_map_of_mem (List.mem_filter.mpr ⟨ha, ?_⟩), ?_⟩
    · exact decide_eq_true (List.mem_append_right _ (List.mem_singleton.mpr rfl))
    · rw [List.idxOf_append_of_notMem hnew]
      exact Nat.le_add_right _ _
  rw [counted, List.take_of_length_le hall]

/-- When another job is taken, the count stays. -/
theorem counted_concat_of_not_mem {rank : ι → Nat} {taken needs : List ι} {a : ι} (ha : a ∉ needs) :
    counted rank (taken ++ [a]) needs = counted rank taken needs := by
  have hfilter : needs.filter (· ∈ taken ++ [a]) = needs.filter (· ∈ taken) := by
    refine List.filter_congr fun d hd => ?_
    have hne : d ≠ a := fun heq => ha (heq ▸ hd)
    simp [hne]
  have hidx : (needs.filter (· ∈ taken)).map (taken ++ [a]).idxOf =
      (needs.filter (· ∈ taken)).map taken.idxOf :=
    List.map_congr_left fun d hd => List.idxOf_append_of_mem
    (of_decide_eq_true (List.mem_filter.mp hd).2)
  have hle : above ((needs.filter (· ∈ taken)).map taken.idxOf) ≤ taken.length := by
    rw [above_le_iff, List.forall_mem_map]
    exact fun d hd => List.idxOf_lt_length_of_mem (of_decide_eq_true (List.mem_filter.mp hd).2)
  rw [counted, hfilter, hidx, List.take_append_of_le_length hle, counted]

/-- The count depends on the ranks of the jobs that were taken. -/
theorem counted_congr {rank rank' : ι → Nat} {taken : List ι} (h : ∀ a ∈ taken, rank' a = rank a)
    (needs : List ι) : counted rank' taken needs = counted rank taken needs :=
  congrArg above (List.map_congr_left fun a ha => h a (List.mem_of_mem_take ha))

/-- Every job has the rank that has been counted for it. -/
def Counted (deps : ι → List ι) (order : List ι) (rank : ι → Nat) : Prop :=
  ∀ i ∈ order, rank i = counted rank order (deps i)

/-- What a job needs is taken before all that is as deep as that job, or deeper. -/
def LevelWise (deps : ι → List ι) (depth : ι → Nat) (order : List ι) : Prop :=
  ∀ i ∈ order, ∀ d ∈ deps i, ∀ a ∈ order, depth i ≤ depth a → order.idxOf d < order.idxOf a

/-- When all is taken that a job needs, what counts for it is taken no later than the last of
that. -/
theorem FirstFit.mem_counted (h : FirstFit jobs deps order) {i : ι} (hi : i ∈ order) {a : ι}
    (ha : a ∈ order) : a ∈ order.take (above (((deps i).filter (· ∈ order)).map order.idxOf)) ↔
      ∃ d ∈ deps i, order.idxOf a ≤ order.idxOf d := by
  have hall : (deps i).filter (· ∈ order) = deps i :=
    List.filter_eq_self.mpr fun d hd => decide_eq_true (h.needs hi hd).1
  rw [List.mem_take_iff_idxOf_lt ha, lt_above_iff, hall]
  simp only [List.mem_map, exists_exists_and_eq_and]

/-- **Ranks are depths** exactly when the jobs are taken level by level. -/
theorem Counted.eq_depth_iff {rank : ι → Nat} (hfit : FirstFit jobs deps order)
    (hcount : Counted deps order rank) (hdepth : IsDepth deps depth) :
    (∀ i ∈ order, rank i = depth i) ↔ LevelWise deps depth order := by
  constructor
  · intro heq i hi d hd a ha hdeep
    by_contra hle
    -- a job that is as deep, and no later than the last that `i` needs, counts for the rank of `i`
    have hbefore := (hfit.mem_counted hi ha).mpr ⟨d, hd, Nat.not_lt.mp hle⟩
    have hlt : rank a < rank i := by
      rw [hcount i hi, counted, lt_above_iff]
      exact ⟨_, List.mem_map_of_mem hbefore, Nat.le_refl _⟩
    rw [heq a ha, heq i hi] at hlt
    exact absurd hdeep (Nat.not_le.mpr hlt)
  · intro hlevel
    have heq : ∀ n, ∀ i ∈ order, order.idxOf i < n → rank i = depth i := by
      intro n
      induction n with
      | zero => exact fun i _ hi => absurd hi (Nat.not_lt_zero _)
      | succ n ih =>
        intro i hi hn
        rw [hcount i hi, counted]
        refine Nat.le_antisymm ?_ ?_
        · rw [above_le_iff, List.forall_mem_map]
          intro a hbefore
          have ha := List.mem_of_mem_take hbefore
          obtain ⟨d, hd, hle⟩ := (hfit.mem_counted hi ha).mp hbefore
          have hlast := (hfit.needs hi hd).2
          rw [ih a ha (by omega), ← Nat.not_le]
          exact fun hdeep => absurd (hlevel i hi d hd a ha hdeep) (Nat.not_lt.mpr hle)
        · rw [hdepth i, above_le_iff, List.forall_mem_map]
          intro d hd
          obtain ⟨hmem, hlast⟩ := hfit.needs hi hd
          have hbefore := (hfit.mem_counted hi hmem).mpr ⟨d, hd, Nat.le_refl _⟩
          rw [lt_above_iff]
          exact ⟨rank d, List.mem_map_of_mem hbefore, Nat.le_of_eq (ih d hmem (by omega)).symm⟩
    exact fun i hi => heq (order.idxOf i + 1) i hi (Nat.lt_succ_self _)

end Order

end Verif
