/-
# Going over the children of a container (`toolbox/json.c`)

`u_json_child_first` and `u_json_child_last` give an end of the list of children, from where an
iterator goes on in both directions, and gives out each time what is under it.

A pointer into a tree is a place of `Libu.Verif.Forest`: what it reaches, and the links that lead
back.  Going to the next sibling and to the one before are the two moves along the siblings, and the
two ends are where the code returns NULL.  An iterator may be moved to and fro as often as one
likes, which is what a run of it is.

* §1 is the code, on pointers into a tree.
* §2: an iterator is an index into the children, which is lost at the ends (`it_run`).

The links of a node that is in no list are NULL, and `TAILQ_PREV` follows one of them.
-/
import Libu.Json.Tree
import Libu.Verif.Run

namespace Libu.Json

open Verif

/-! ## 1. The code -/

/-- `TAILQ_NEXT` -/
def Ptr.next (p : Ptr) : Option Ptr :=
  match p.siblings with
  | .nil => none
  | .node a c s => some ⟨.sibling p.jo p.children :: p.above, a, c, s⟩

/-- `TAILQ_PREV`; it has no result on a node that is in no list. -/
def Ptr.prev (p : Ptr) : Option (Option Ptr) :=
  match p.above with
  | [] => none
  | .parent _ _ :: _ => some none
  | .sibling a c :: z => some (some ⟨z, a, c, p.reach⟩)

/-- `TAILQ_FIRST` of the list `f`, which is reached through `z`. -/
def listFirst (z : List (Crumb Cell)) : Forest Cell → Option Ptr
  | .nil => none
  | .node a c s => some ⟨z, a, c, s⟩

/-- `TAILQ_LAST` -/
def listLast (z : List (Crumb Cell)) : Forest Cell → Option Ptr
  | .nil => none
  | .node a c s =>
    match s with
    | .nil => some ⟨z, a, c, .nil⟩
    | s => listLast (.sibling a c :: z) s

/-- The way back from the children of a node. -/
def Ptr.inside (p : Ptr) : List (Crumb Cell) := .parent p.jo p.siblings :: p.above

/-- `u_json_child_first` -/
def Ptr.childFirst (p : Ptr) : Option Ptr :=
  if !isContainer p.jo.type then none else listFirst p.inside p.children

/-- `u_json_child_last` -/
def Ptr.childLast (p : Ptr) : Option Ptr :=
  if !isContainer p.jo.type then none else listLast p.inside p.children

/-- A call of `u_json_it_next` or `u_json_it_prev`. -/
inductive Move
  | next
  | prev

/-- `u_json_it_next` and `u_json_it_prev`: what they return, and `it->cur`. -/
def itStep (cur : Option Ptr) : Move → Option (Option Ptr × Option Ptr)
  | .next => some (cur, cur.bind Ptr.next)
  | .prev =>
    match cur with
    | none => some (none, none)
    | some jo => jo.prev.map fun cur => (some jo, cur)

/-! ## 2. Indices -/

/-- The node at an index of a list. -/
def listAt : List (Crumb Cell) → Forest Cell → Nat → Option Ptr
  | _, .nil, _ => none
  | z, .node a c s, 0 => some ⟨z, a, c, s⟩
  | z, .node a c s, k + 1 => listAt (.sibling a c :: z) s k

/-- The child at an index; there is none for a lost one. -/
def Ptr.child (p : Ptr) (i : Option Nat) : Option Ptr := i.bind (listAt p.inside p.children)

/-- An index into `n` children after a move: it is lost at the ends, and stays so. -/
def Move.index (n : Nat) : Move → Option Nat → Option Nat
  | .next, some k => if k + 1 < n then some (k + 1) else none
  | .prev, some (k + 1) => some k
  | _, _ => none

/-- The index of the first child of `n`. -/
def firstIndex (n : Nat) : Option Nat := if n = 0 then none else some 0

/-- The index of the last child of `n`. -/
def lastIndex (n : Nat) : Option Nat := if n = 0 then none else some (n - 1)

/-- The indices that some moves meet, and the last one. -/
def meets (n : Nat) : Option Nat → List Move → List (Option Nat) × Option Nat
  | i, [] => ([], i)
  | i, m :: ms => (i :: (meets n (m.index n i) ms).1, (meets n (m.index n i) ms).2)

section

variable {z : List (Crumb Cell)} {f : Forest Cell} {k : Nat} {p q : Ptr}

theorem listAt_isSome (z : List (Crumb Cell)) (f : Forest Cell) (k : Nat) :
    (listAt z f k).isSome = decide (k < f.length) := by
  induction f generalizing z k with
  | nil => simp [listAt, Forest.length]
  | node a c s _ ih =>
    cases k with
    | zero => simp [listAt, Forest.length]
    | succ k => simp [listAt, Forest.length, ih]

/-- It is the node at this index, in the same tree. -/
theorem listAt_spec (h : listAt z f k = some q) : f.heads[k]? = some (q.jo, q.children) ∧
    q.tree = Forest.plug z f := by
  induction f generalizing z k with
  | nil => simp [listAt] at h
  | node a c s _ ih =>
    cases k with
    | zero =>
      simp only [listAt, Option.some.injEq] at h
      subst h
      exact ⟨rfl, rfl⟩
    | succ k => exact ih h

theorem listAt_next (h : listAt z f k = some q) : q.next = listAt z f (k + 1) := by
  induction f generalizing z k with
  | nil => simp [listAt] at h
  | node a c s _ ih =>
    cases k with
    | zero =>
      simp only [listAt, Option.some.injEq] at h
      subst h
      cases s <;> rfl
    | succ k => exact ih h

theorem listAt_prev (h : listAt z f (k + 1) = some q) : q.prev = some (listAt z f k) := by
  induction f generalizing z k with
  | nil => simp [listAt] at h
  | node a c s _ ih =>
    cases k with
    | zero =>
      cases s with
      | nil => simp [listAt] at h
      | node a' c' s' =>
        simp only [listAt, Option.some.injEq] at h
        subst h
        rfl
    | succ k => exact ih h

theorem listFirst_eq (z : List (Crumb Cell)) (f : Forest Cell) : listFirst z f = listAt z f 0 := by
  cases f <;> rfl

theorem listLast_eq (z : List (Crumb Cell)) (f : Forest Cell) :
    listLast z f = listAt z f (f.length - 1) := by
  induction f generalizing z with
  | nil => rfl
  | node a c s _ ih =>
    cases s with
    | nil => rfl
    | node a' c' s' => exact ih (.sibling a c :: z)

theorem Move.index_lt {n : Nat} {i : Option Nat} (hi : ∀ k ∈ i, k < n) (m : Move) :
    ∀ k ∈ m.index n i, k < n := by
  intro k hk
  cases i with
  | none => cases m <;> simp [index] at hk
  | some j =>
    have hj : j < n := hi j rfl
    cases m with
    | next =>
      simp only [index, Option.mem_def, Option.ite_none_right_eq_some, Option.some.injEq] at hk
      omega
    | prev =>
      cases j with
      | zero => simp [index] at hk
      | succ j =>
        simp only [index, Option.mem_def, Option.some.injEq] at hk
        omega

/-- **One move of an iterator** moves its index. -/
theorem itStep_child (p : Ptr) {i : Option Nat} (hi : ∀ k ∈ i, k < p.children.length) (m : Move) :
    itStep (p.child i) m = some (p.child i, p.child (m.index p.children.length i)) := by
  cases i with
  | none => cases m <;> rfl
  | some k =>
    have hk : k < p.children.length := hi k rfl
    obtain ⟨q, hq⟩ : ∃ q, listAt p.inside p.children k = some q :=
      Option.isSome_iff_exists.mp (by simp [listAt_isSome, hk])
    have hchild : p.child (some k) = some q := hq
    cases m with
    | next =>
      have hnext : q.next = p.child (Move.next.index p.children.length (some k)) := by
        rw [listAt_next hq, Move.index]
        split
        · rfl
        · next hlast =>
          refine Option.not_isSome_iff_eq_none.mp ?_
          simp [listAt_isSome, hlast]
      rw [hchild, ← hnext]
      rfl
    | prev =>
      have hprev : q.prev = some (p.child (Move.prev.index p.children.length (some k))) := by
        cases k with
        | zero =>
          cases hc : p.children with
          | nil => simp [hc, Forest.length] at hk
          | node a c s =>
            rw [hc] at hq
            simp only [listAt, Option.some.injEq] at hq
            subst hq
            rfl
        | succ k => exact listAt_prev hq
      simp [hchild, itStep, hprev]

theorem run_itStep (p : Ptr) {i : Option Nat} (hi : ∀ k ∈ i, k < p.children.length)
    (moves : List Move) : run itStep (p.child i) moves =
      some ((meets p.children.length i moves).1.map p.child,
        p.child (meets p.children.length i moves).2) := by
  induction moves generalizing i with
  | nil => rfl
  | cons m ms ih =>
    rw [run, itStep_child p hi m]
    simp only [Option.bind_eq_bind, Option.bind_some, ih (Move.index_lt hi m), meets]
    rfl

/-- What an iterator that starts at `cur` gives out, and where it ends, are the children at the
indices that its moves come to from `i` on. -/
def Iterates (p : Ptr) (cur : Option Ptr) (i : Option Nat) (moves : List Move) : Prop :=
  run itStep cur moves = some ((meets p.children.length i moves).1.map p.child,
    p.child (meets p.children.length i moves).2)

/-- **An iterator is an index into the children.**  From either end of a container, every run of
`u_json_it_next` and `u_json_it_prev` gives out the nodes at the indices that the moves come to, in
the tree as it is: the index goes up and down by one, is lost behind the last child and before the
first, and stays lost. -/
theorem it_run (p : Ptr) (hc : isContainer p.jo.type = true) (moves : List Move) :
    Iterates p p.childFirst (firstIndex p.children.length) moves ∧
      Iterates p p.childLast (lastIndex p.children.length) moves ∧
      ∀ k, (p.child (some k)).map (fun q => (q.jo, q.children)) = p.children.heads[k]? ∧
        ∀ q, p.child (some k) = some q → q.tree = p.tree := by
  have hfirst : p.childFirst = p.child (firstIndex p.children.length) := by
    rw [Ptr.childFirst, hc, listFirst_eq, firstIndex, Ptr.child]
    cases hnil : p.children <;> simp [listAt, Forest.length]
  have hlast : p.childLast = p.child (lastIndex p.children.length) := by
    rw [Ptr.childLast, hc, listLast_eq, lastIndex, Ptr.child]
    cases hnil : p.children <;> simp [listAt, Forest.length]
  rw [hfirst, hlast]
  refine ⟨run_itStep p (fun k hk => ?_) moves, run_itStep p (fun k hk => ?_) moves,
    fun k => ⟨?_, fun q hq => (listAt_spec hq).2⟩⟩
  · simp only [firstIndex, Option.mem_def, Option.ite_none_left_eq_some, Option.some.injEq] at hk
    omega
  · simp only [lastIndex, Option.mem_def, Option.ite_none_left_eq_some, Option.some.injEq] at hk
    omega
  · cases hq : p.child (some k) with
    | none =>
      have hsome := listAt_isSome p.inside p.children k
      have hnone : listAt p.inside p.children k = none := hq
      rw [hnone] at hsome
      have hge : p.children.heads.length ≤ k := by
        rw [Forest.length_heads]
        simpa using hsome
      rw [List.getElem?_eq_none hge, Option.map_none]
    | some q => rw [(listAt_spec hq).1, Option.map_some]

/-- The tree of `[1,2]`. -/
def pairArray : Ptr := ⟨[], pairRoot, .node pairOne .nil (.node pairTwo .nil .nil), .nil⟩

/-- There and back, and once more. -/
theorem it_run_pair :
    Iterates pairArray (some ptrOne) (some 0) [.next, .prev, .prev, .next] ∧
      Iterates pairArray (some ptrTwo) (some 1) [.next, .prev, .prev, .next] ∧
      ∀ k, (pairArray.child (some k)).map (fun q => (q.jo, q.children)) =
          pairArray.children.heads[k]? ∧
        ∀ q, pairArray.child (some k) = some q → q.tree = pairArray.tree :=
  it_run pairArray rfl [.next, .prev, .prev, .next]

end

end Libu.Json
