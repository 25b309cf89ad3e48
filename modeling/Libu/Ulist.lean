/-
# Lists (`toolbox/list.c`)

A list is a tail queue of items, each with a pointer that belongs to the caller, and a count of
them.

* §1 is the code.  To follow NULL or a pointer to an item that has been freed is undefined (`none`).
* §2 is the purpose: a sequence of pointers, and a cursor for the iteration.
* §3: what the loops of the code find.
* §4: a run on one list follows the sequence exactly when no list is cleared that has items, and
  no item is asked for that has been deleted since the iteration came to it (`follows_iff`).

Memory never runs out, and an address is not given out twice: a pointer to an item that is freed
does not become one to another item.
-/
import Libu.Verif.Run
import Libu.Verif.Tailq
import Mathlib.Data.List.Perm.Subperm

namespace Libu

open Verif

/-! ## 1. The code -/

/-- `u_list_t`, with the next address of the heap.  NULL is a pointer too. -/
structure Ulist (β : Type) where
  head : Tailq (Option β)
  count : Nat
  brk : Nat

namespace Ulist

variable {β : Type}

/-- `u_list_create` -/
def create : Ulist β := ⟨.nil, 0, 0⟩

/-- The loops of `u_list_insert`, `u_list_del_n` and `u_list_get_n`: the item that is `n` behind
`item`, or NULL. -/
def nthItem (q : Tailq (Option β)) : Nat → Option Nat → Option (Option Nat)
  | _, none => some none
  | 0, some item => some (some item)
  | n + 1, some item => do
    let i ← q.mem item
    nthItem q n i.next

/-- `u_list_get_n` -/
def getN (list : Ulist β) (n : Nat) : Option (Option β) :=
  if n > list.count then some none
  else do
    match ← nthItem list.head n list.head.first with
    | none => some none
    | some item => do
      let i ← list.head.mem item
      some i.val

/-- How `u_list_insert` links the new item. -/
def insertItem (list : Ulist β) (item : Nat) (ptr : Option β) (n : Nat) :
    Option (Tailq (Option β)) :=
  if n = 0 then list.head.insertHead item ptr
  else if n = list.count then list.head.insertTail item ptr
  else do
    -- the loop may have come to NULL
    let prev ← (← nthItem list.head n list.head.first)
    list.head.insertBefore prev item ptr

/-- `u_list_insert`: whether it returns 0, and the list. -/
def insert (list : Ulist β) (ptr : Option β) (n : Nat) : Option (Bool × Ulist β) :=
  if n > list.count then some (false, list)
  else do
    let head ← insertItem list list.brk ptr n
    some (true, ⟨head, list.count + 1, list.brk + 1⟩)

/-- `u_list_add` -/
def add (list : Ulist β) (ptr : Option β) : Option (Bool × Ulist β) := insert list ptr list.count

section Del

variable [DecidableEq β]

/-- The loop of `u_list_del`. -/
def findItem (q : Tailq (Option β)) (ptr : Option β) : Nat → Option Nat → Option (Option Nat)
  | _, none => some none
  | 0, some _ => none
  | fuel + 1, some item => do
    let i ← q.mem item
    if i.val = ptr then some (some item) else findItem q ptr fuel i.next

/-- `u_list_del` -/
def del (list : Ulist β) (ptr : Option β) : Option (Bool × Ulist β) := do
  -- there are not more items than addresses that have been given out
  match ← findItem list.head ptr list.brk list.head.first with
  | none => some (false, list)
  | some item => do
    let head ← list.head.remove item
    some (true, { list with head := head.free item, count := list.count - 1 })

end Del

/-- `u_list_del_n`: the pointer of the item that is gone, if there is one. -/
def delN (list : Ulist β) (n : Nat) : Option (Option (Option β) × Ulist β) :=
  if n ≥ list.count then some (none, list)
  else do
    let item ← (← nthItem list.head n list.head.first)
    let i ← list.head.mem item
    let head ← list.head.remove item
    some (some i.val, { list with head := head.free item, count := list.count - 1 })

/-- The loop of `u_list_clear`. -/
def clearItems : Nat → Tailq (Option β) → Option (Tailq (Option β))
  | 0, q => if q.first = none then some q else none
  | fuel + 1, q =>
    match q.first with
    | none => some q
    | some item => do
      let q ← q.remove item
      clearItems fuel (q.free item)

/-- `u_list_clear` -/
def clear (list : Ulist β) : Option (Ulist β) := do
  let head ← clearItems list.brk list.head
  some { list with head }

/-- `u_list_first`: the pointer and the iterator. -/
def first (list : Ulist β) : Option (Option β × Option Nat) :=
  match list.head.first with
  | none => some (none, none)
  | some item => do
    let i ← list.head.mem item
    some (i.val, i.next)

/-- `u_list_next` -/
def next (list : Ulist β) (it : Option Nat) : Option (Option β × Option Nat) :=
  match it with
  | none => some (none, none)
  | some item => do
    let i ← list.head.mem item
    some (i.val, i.next)

/-- The calls on a list. -/
inductive Op (β : Type)
  | add (ptr : Option β)
  | insert (ptr : Option β) (n : Nat)
  | del (ptr : Option β)
  | delN (n : Nat)
  | getN (n : Nat)
  | count
  | first
  | next
  | clear

/-- What a call returns: 0, ~0, a count, or a pointer (that of `u_list_del_n` besides its 0). -/
inductive Res (β : Type)
  | ok
  | fail
  | num (n : Nat)
  | ptr (ptr : Option β)
  deriving DecidableEq

def Res.ofBool : Bool → Res β
  | true => .ok
  | false => .fail

/-- A list and an iterator of the caller, who sets it to NULL first. -/
structure State (β : Type) where
  list : Ulist β
  it : Option Nat

/-- A call, made by the caller with its one iterator. -/
def step [DecidableEq β] (s : State β) : Op β → Option (Res β × State β)
  | .add ptr => do
    let (rc, list) ← add s.list ptr
    some (.ofBool rc, { s with list })
  | .insert ptr n => do
    let (rc, list) ← insert s.list ptr n
    some (.ofBool rc, { s with list })
  | .del ptr => do
    let (rc, list) ← del s.list ptr
    some (.ofBool rc, { s with list })
  | .delN n => do
    let (pptr, list) ← delN s.list n
    some (pptr.elim .fail .ptr, { s with list })
  | .getN n => do
    let ptr ← getN s.list n
    some (.ptr ptr, s)
  | .count => some (.num s.list.count, s)
  | .first => do
    let (ptr, it) ← first s.list
    some (.ptr ptr, { s with it })
  | .next => do
    let (ptr, it) ← next s.list s.it
    some (.ptr ptr, { s with it })
  | .clear => do
    let list ← clear s.list
    some (.ok, { s with list })

/-! ## 2. Sequences -/

/-- Where an iteration is: past the end, before an element, or before one that is no more there. -/
inductive Cursor
  | done
  | before (i : Nat)
  | gone
  deriving DecidableEq

/-- The cursor once an element has been put at `n`. -/
def Cursor.insert (n : Nat) : Cursor → Cursor
  | .before i => if n ≤ i then .before (i + 1) else .before i
  | c => c

/-- The cursor once the element at `n` has been taken out. -/
def Cursor.erase (n : Nat) : Cursor → Cursor
  | .before i => if n < i then .before (i - 1) else if n = i then .gone else .before i
  | c => c

/-- The cursor once all elements have been taken out. -/
def Cursor.clear : Cursor → Cursor
  | .before _ => .gone
  | c => c

/-- The cursor before the element at `i`, if there is one. -/
def Cursor.at? (i length : Nat) : Cursor := if i < length then .before i else .done

/-- A sequence of pointers that is being iterated over. -/
structure Seq (β : Type) where
  items : List (Option β)
  cursor : Cursor

def Seq.insert (s : Seq β) (ptr : Option β) (n : Nat) : Seq β :=
  ⟨s.items.insertIdx n ptr, s.cursor.insert n⟩

def Seq.erase (s : Seq β) (n : Nat) : Seq β := ⟨s.items.eraseIdx n, s.cursor.erase n⟩

/-- A call on the sequence; an element that is no more there is not returned. -/
def Seq.step [DecidableEq β] (s : Seq β) : Op β → Option (Res β × Seq β)
  | .add ptr => some (.ok, s.insert ptr s.items.length)
  | .insert ptr n => some (if n ≤ s.items.length then (.ok, s.insert ptr n) else (.fail, s))
  | .del ptr =>
    some (match s.items.findIdx? (· = ptr) with
      | none => (.fail, s)
      | some n => (.ok, s.erase n))
  | .delN n =>
    some (match s.items[n]? with
      | none => (.fail, s)
      | some ptr => (.ptr ptr, s.erase n))
  | .getN n => some (.ptr s.items[n]?.join, s)
  | .count => some (.num s.items.length, s)
  | .first => some (.ptr s.items[0]?.join, { s with cursor := .at? 1 s.items.length })
  | .next =>
    match s.cursor with
    | .done => some (.ptr none, s)
    | .before i => some (.ptr s.items[i]?.join, { s with cursor := .at? (i + 1) s.items.length })
    | .gone => none
  | .clear => some (.ok, ⟨[], s.cursor.clear⟩)

/-! ## 3. Loops -/

section Loops

variable {q : Tailq (Option β)} {xs : List (Nat × Option β)} {l l' : Link}
    {o : Option Nat} {n : Nat}

theorem nthItem_seg (h : Tailq.Seg q.mem l o xs l' none) (n : Nat) :
    nthItem q n o = some (xs[n]?.map Prod.fst) := by
  induction xs generalizing l o n with
  | nil =>
    obtain ⟨-, rfl⟩ := h
    cases n <;> rfl
  | cons x xs ih =>
    obtain ⟨rfl, next, hmem, h⟩ := h
    cases n with
    | zero => rfl
    | succ n =>
      rw [nthItem, hmem, List.getElem?_cons_succ]
      exact ih h n

theorem nthItem_eq (h : q.Rep xs) (n : Nat) : nthItem q n q.first = some (xs[n]?.map Prod.fst) :=
  nthItem_seg h.seg n

/-- What the item at a place holds. -/
theorem mem_seg (h : Tailq.Seg q.mem l o xs l' none) {x : Nat × Option β} (hx : xs[n]? = some x) :
    ∃ prev, q.mem x.1 = some ⟨xs[n + 1]?.map Prod.fst, prev, x.2⟩ := by
  induction xs generalizing l o n with
  | nil => simp at hx
  | cons y xs ih =>
    obtain ⟨-, next, hmem, h⟩ := h
    cases n with
    | zero =>
      obtain rfl : y = x := by simpa using hx
      refine ⟨l, hmem.trans ?_⟩
      rw [h.head, List.getElem?_cons_succ, List.head?_eq_getElem?]
    | succ n => exact ih h (by simpa using hx)

theorem mem_eq (h : q.Rep xs) {x : Nat × Option β} (hx : xs[n]? = some x) :
    ∃ prev, q.mem x.1 = some ⟨xs[n + 1]?.map Prod.fst, prev, x.2⟩ :=
  mem_seg h.seg hx

theorem findItem_seg [DecidableEq β] (h : Tailq.Seg q.mem l o xs l' none)
    (ptr : Option β) {fuel : Nat} (hfuel : xs.length ≤ fuel) :
    findItem q ptr fuel o = some ((xs.findIdx? (·.2 = ptr)).bind fun n => xs[n]?.map Prod.fst) := by
  induction xs generalizing l o fuel with
  | nil =>
    obtain ⟨-, rfl⟩ := h
    cases fuel <;> rfl
  | cons x xs ih =>
    obtain ⟨rfl, next, hmem, h⟩ := h
    cases fuel with
    | zero => simp at hfuel
    | succ fuel =>
      by_cases hx : x.2 = ptr
      · simp [findItem, hmem, List.findIdx?_cons, hx]
      · have hrest := ih h (Nat.le_of_succ_le_succ hfuel)
        simp only [findItem, hmem, Option.bind_eq_bind, Option.bind_some, if_neg hx, hrest,
          List.findIdx?_cons]
        cases xs.findIdx? (·.2 = ptr) <;> simp [hx]

end Loops

/-- A list with these items. -/
structure Holds (list : Ulist β) (xs : List (Nat × Option β)) : Prop where
  rep : list.head.Rep xs
  count : list.count = xs.length
  brk : ∀ a ∈ Tailq.addrs xs, a < list.brk

section Holds

variable {list : Ulist β} {xs : List (Nat × Option β)} {n : Nat}

theorem holds_create : Holds (create : Ulist β) [] :=
  ⟨Tailq.rep_nil, rfl, fun a ha => (by cases ha)⟩

/-- Different addresses below a bound are not more than the bound. -/
theorem Holds.length_le (h : Holds list xs) : xs.length ≤ list.brk := by
  have hsub : Tailq.addrs xs ⊆ List.range list.brk := fun a ha => List.mem_range.mpr (h.brk a ha)
  have hle := (List.subperm_of_subset h.rep.nodup hsub).length_le
  simpa using hle

/-- A new address is one at which nothing is. -/
theorem Holds.brk_free (h : Holds list xs) : list.head.mem list.brk = none :=
  h.rep.free _ fun hmem => absurd (h.brk _ hmem) (Nat.lt_irrefl _)

theorem getN_eq (h : Holds list xs) (n : Nat) : getN list n = some (xs[n]?.map Prod.snd).join := by
  unfold getN
  split
  · next hgt =>
    rw [h.count] at hgt
    rw [List.getElem?_eq_none (by omega)]
    rfl
  · rw [nthItem_eq h.rep]
    cases hx : xs[n]? with
    | none => rfl
    | some x =>
      obtain ⟨prev, hmem⟩ := mem_eq h.rep hx
      simp [hmem]

theorem insert_fail (h : Holds list xs) (ptr : Option β) (hn : xs.length < n) :
    insert list ptr n = some (false, list) := by
  rw [insert, if_pos (by rw [h.count]; exact hn)]

/-- The items on both sides of a place. -/
theorem split_items (hn : n < xs.length) :
    ∃ pre item ptr post, xs = pre ++ (item, ptr) :: post ∧ n = pre.length := by
  refine ⟨xs.take n, xs[n].1, xs[n].2, xs.drop (n + 1), ?_, ?_⟩
  · exact (List.take_append_drop n xs).symm.trans (by rw [List.drop_eq_getElem_cons hn])
  · rw [List.length_take]
    omega

theorem insertIdx_between {α : Type} (pre post : List α) (y : α) :
    (pre ++ post).insertIdx pre.length y = pre ++ y :: post := by
  induction pre with
  | nil => rfl
  | cons x pre ih => simp [ih]

theorem insertItem_eq (h : Holds list xs) (ptr : Option β) (hn : n ≤ xs.length) :
    ∃ head, insertItem list list.brk ptr n = some head ∧
    head.Rep (xs.insertIdx n (list.brk, ptr)) := by
  unfold insertItem
  by_cases hzero : n = 0
  · subst hzero
    rw [if_pos rfl]
    exact h.rep.insertHead h.brk_free ptr
  · rw [if_neg hzero]
    by_cases hlast : n = list.count
    · rw [if_pos hlast, hlast, h.count, List.insertIdx_length_self]
      exact h.rep.insertTail h.brk_free ptr
    · have hlt : n < xs.length := by
        rw [h.count] at hlast
        omega
      obtain ⟨pre, item, ptr', post, rfl, rfl⟩ := split_items hlt
      have hnth := nthItem_eq h.rep pre.length
      obtain ⟨head, hins, hrep⟩ := h.rep.insertBefore h.brk_free ptr
      refine ⟨head, ?_, ?_⟩
      · rw [if_neg hlast, hnth]
        simpa using hins
      · rwa [insertIdx_between]

theorem insert_eq (h : Holds list xs) (ptr : Option β) (hn : n ≤ xs.length) :
    ∃ list', insert list ptr n = some (true, list') ∧ Holds list' (xs.insertIdx n (list.brk, ptr)) ∧
      list'.brk = list.brk + 1 := by
  obtain ⟨head, heq, hrep⟩ := insertItem_eq h ptr hn
  refine ⟨⟨head, list.count + 1, list.brk + 1⟩, ?_, ⟨hrep, ?_, ?_⟩, rfl⟩
  · rw [insert, if_neg (by rw [h.count]; omega), heq]
    rfl
  · rw [List.length_insertIdx_of_le_length hn, h.count]
  · intro a ha
    obtain ⟨x, hx, rfl⟩ := List.mem_map.mp ha
    rcases (List.mem_insertIdx hn).mp hx with rfl | hx
    · exact Nat.lt_succ_self _
    · exact Nat.lt_succ_of_lt (h.brk _ (List.mem_map_of_mem hx))

/-- An item is taken out and freed. -/
theorem remove_eq (h : Holds list xs) {x : Nat × Option β} (hx : xs[n]? = some x) :
    ∃ head, list.head.remove x.1 = some head ∧
      Holds { list with head := head.free x.1, count := list.count - 1 } (xs.eraseIdx n) := by
  obtain ⟨hn, -⟩ := List.getElem?_eq_some_iff.mp hx
  obtain ⟨pre, item, ptr, post, rfl, rfl⟩ := split_items hn
  obtain rfl : (item, ptr) = x := by simpa using hx
  obtain ⟨head, hrem, hrep⟩ := h.rep.remove
  have herase : (pre ++ (item, ptr) :: post).eraseIdx pre.length = pre ++ post := by
    simp [List.eraseIdx_append_of_length_le]
  refine ⟨head, hrem, ?_⟩
  rw [herase]
  refine ⟨hrep, ?_, ?_⟩
  · simp only [h.count, List.length_append, List.length_cons]
    omega
  · intro a ha
    refine h.brk a ?_
    simp only [Tailq.addrs, List.map_append, List.map_cons, List.mem_append, List.mem_cons] at ha ⊢
    exact ha.elim .inl fun hpost => .inr (.inr hpost)

theorem delN_eq (h : Holds list xs) {x : Nat × Option β} (hx : xs[n]? = some x) :
    ∃ list', delN list n = some (some x.2, list') ∧ Holds list' (xs.eraseIdx n) ∧
    list'.brk = list.brk := by
  obtain ⟨head, hrem, hholds⟩ := remove_eq h hx
  obtain ⟨prev, hmem⟩ := mem_eq h.rep hx
  obtain ⟨hn, -⟩ := List.getElem?_eq_some_iff.mp hx
  refine ⟨_, ?_, hholds, rfl⟩
  rw [delN, if_neg (by rw [h.count]; omega), nthItem_eq h.rep, hx]
  simp [hmem, hrem]

theorem delN_fail (h : Holds list xs) (hx : xs[n]? = none) : delN list n = some (none, list) := by
  rw [delN, if_pos (by rw [h.count]; simpa using hx)]

theorem del_eq [DecidableEq β] (h : Holds list xs) {ptr : Option β}
    (hn : xs.findIdx? (·.2 = ptr) = some n) :
    ∃ list', del list ptr = some (true, list') ∧ Holds list' (xs.eraseIdx n) ∧
    list'.brk = list.brk := by
  obtain ⟨hlt, -⟩ := List.findIdx?_eq_some_iff_getElem.mp hn
  have hx : xs[n]? = some xs[n] := List.getElem?_eq_getElem hlt
  obtain ⟨head, hrem, hholds⟩ := remove_eq h hx
  refine ⟨_, ?_, hholds, rfl⟩
  rw [del, findItem_seg h.rep.seg ptr h.length_le, hn]
  simp [hlt, hrem]

theorem del_fail [DecidableEq β] (h : Holds list xs) {ptr : Option β}
    (hn : xs.findIdx? (·.2 = ptr) = none) : del list ptr = some (false, list) := by
  rw [del, findItem_seg h.rep.seg ptr h.length_le, hn]
  rfl

theorem clearItems_eq {q : Tailq (Option β)} {xs : List (Nat × Option β)}
    (h : q.Rep xs) {fuel : Nat}
    (hfuel : xs.length ≤ fuel) : ∃ q', clearItems fuel q = some q' ∧ q'.Rep [] := by
  induction xs generalizing q fuel with
  | nil =>
    have hfirst : q.first = none := h.seg.2.symm
    cases fuel <;> exact ⟨q, by simp [clearItems, hfirst], h⟩
  | cons x xs ih =>
    cases fuel with
    | zero => simp at hfuel
    | succ fuel =>
      obtain ⟨q₁, hrem, hrep⟩ := @Tailq.Rep.remove _ q [] xs x.1 x.2 h
      obtain ⟨q', hclear, hrep'⟩ := ih hrep (Nat.le_of_succ_le_succ hfuel)
      refine ⟨q', ?_, hrep'⟩
      have hfirst : q.first = some x.1 := h.seg.1
      simp [clearItems, hfirst, hrem, hclear]

theorem first_eq (h : Holds list xs) :
    first list = some ((xs[0]?.map Prod.snd).join, xs[1]?.map Prod.fst) := by
  cases xs with
  | nil =>
    have hfirst : list.head.first = none := h.rep.seg.2.symm
    simp [first, hfirst]
  | cons x xs =>
    have hfirst : list.head.first = some x.1 := h.rep.seg.1
    obtain ⟨prev, hmem⟩ := mem_eq h.rep (x := x) (n := 0) rfl
    simp [first, hfirst, hmem]

/-- The items go, the count stays. -/
theorem clear_eq (h : Holds list xs) :
    ∃ head, clear list = some { list with head } ∧ head.Rep [] := by
  obtain ⟨head, hclear, hrep⟩ := clearItems_eq h.rep h.length_le
  exact ⟨head, by simp [clear, hclear], hrep⟩

end Holds

/-! ## 4. Runs -/

/-- The iterator is at the cursor. -/
def Points (xs : List (Nat × Option β)) (brk : Nat) (it : Option Nat) : Cursor → Prop
  | .done => it = none
  | .before i => ∃ x, xs[i]? = some x ∧ it = some x.1
  | .gone => ∃ item, it = some item ∧ item ∉ Tailq.addrs xs ∧ item < brk

section Points

variable {xs : List (Nat × Option β)} {brk n : Nat} {it : Option Nat} {c : Cursor}

theorem Points.insert (h : Points xs brk it c) (hn : n ≤ xs.length) (ptr : Option β) :
    Points (xs.insertIdx n (brk, ptr)) (brk + 1) it (c.insert n) := by
  cases c with
  | done => exact h
  | before i =>
    obtain ⟨x, hx, rfl⟩ := h
    by_cases hni : n ≤ i
    · simp only [Cursor.insert, if_pos hni]
      refine ⟨x, ?_, rfl⟩
      rw [List.getElem?_insertIdx_of_gt (Nat.lt_succ_of_le hni)]
      exact hx
    · simp only [Cursor.insert, if_neg hni]
      refine ⟨x, ?_, rfl⟩
      rw [List.getElem?_insertIdx_of_lt (Nat.lt_of_not_le hni)]
      exact hx
  | gone =>
    obtain ⟨item, rfl, hitem, hlt⟩ := h
    refine ⟨item, rfl, ?_, Nat.lt_succ_of_lt hlt⟩
    rintro hmem
    obtain ⟨x, hx, rfl⟩ := List.mem_map.mp hmem
    rcases (List.mem_insertIdx hn).mp hx with rfl | hx
    · exact absurd hlt (Nat.lt_irrefl _)
    · exact hitem (List.mem_map_of_mem hx)

theorem Points.erase (h : Points xs brk it c) (hnodup : (Tailq.addrs xs).Nodup)
    (hbrk : ∀ a ∈ Tailq.addrs xs, a < brk) (n : Nat) :
    Points (xs.eraseIdx n) brk it (c.erase n) := by
  cases c with
  | done => exact h
  | before i =>
    obtain ⟨x, hx, rfl⟩ := h
    rcases Nat.lt_trichotomy n i with hni | rfl | hni
    · simp only [Cursor.erase, if_pos hni]
      refine ⟨x, ?_, rfl⟩
      rw [List.getElem?_eraseIdx_of_ge (by omega), Nat.sub_add_cancel (by omega)]
      exact hx
    · simp only [Cursor.erase, Nat.lt_irrefl, if_false, if_true]
      refine ⟨x.1, rfl, ?_, hbrk _ (List.mem_map_of_mem (List.mem_of_getElem? hx))⟩
      intro hmem
      obtain ⟨y, hy, hyx⟩ := List.mem_map.mp hmem
      obtain ⟨j, hj, hyj⟩ := List.mem_eraseIdx_iff_getElem?.mp hy
      have hlt : j < (Tailq.addrs xs).length := by
        simpa using (List.getElem?_eq_some_iff.mp hyj).1
      exact hj ((List.getElem?_inj hlt hnodup).mp (by simp [hyj, hx, hyx]))
    · have hne : ¬ n < i := by omega
      have hne' : ¬ n = i := by omega
      simp only [Cursor.erase, if_neg hne, if_neg hne']
      refine ⟨x, ?_, rfl⟩
      rw [List.getElem?_eraseIdx_of_lt hni]
      exact hx
  | gone =>
    obtain ⟨item, rfl, hitem, hlt⟩ := h
    refine ⟨item, rfl, ?_, hlt⟩
    exact fun hmem => hitem ((List.eraseIdx_sublist xs n).map Prod.fst |>.subset hmem)

theorem Points.clear (h : Points xs brk it c) (hbrk : ∀ a ∈ Tailq.addrs xs, a < brk) :
    Points ([] : List (Nat × Option β)) brk it c.clear := by
  cases c with
  | done => exact h
  | before i =>
    obtain ⟨x, hx, rfl⟩ := h
    exact ⟨x.1, rfl, fun hmem => (by cases hmem), hbrk _
      (List.mem_map_of_mem (List.mem_of_getElem? hx))⟩
  | gone =>
    obtain ⟨item, rfl, -, hlt⟩ := h
    exact ⟨item, rfl, fun hmem => (by cases hmem), hlt⟩

/-- The iterator that follows a place. -/
theorem points_at? (xs : List (Nat × Option β)) (brk i : Nat) :
    Points xs brk (xs[i]?.map Prod.fst) (.at? i xs.length) := by
  unfold Cursor.at?
  split
  · next h => exact ⟨xs[i], List.getElem?_eq_getElem h, by rw [List.getElem?_eq_getElem h]; rfl⟩
  · next h => rw [List.getElem?_eq_none (Nat.le_of_not_lt h)]; rfl

end Points

/-- The state of the caller is that of the sequence. -/
structure Shows (s : State β) (a : Seq β) (xs : List (Nat × Option β)) : Prop where
  holds : Holds s.list xs
  items : xs.map Prod.snd = a.items
  cursor : Points xs s.list.brk s.it a.cursor

/-- A list is cleared when it is empty, and the item that an iteration goes on with has not been
freed. -/
def Allowed (s : State β) : Op β → Prop
  | .clear => s.list.head.first = none
  | .next => ∀ item ∈ s.it, s.list.head.mem item ≠ none
  | _ => True

section Step

variable {s : State β} {a : Seq β} {xs : List (Nat × Option β)} {op : Op β}

theorem Shows.length (h : Shows s a xs) : a.items.length = xs.length := by
  rw [← h.items, List.length_map]

theorem Shows.getElem? (h : Shows s a xs) (n : Nat) : a.items[n]? = xs[n]?.map Prod.snd := by
  rw [← h.items, List.getElem?_map]

theorem step_insert (h : Shows s a xs) (ptr : Option β) {n : Nat} (hn : n ≤ a.items.length) :
    ∃ list xs', insert s.list ptr n = some (true, list) ∧ Shows { s with list }
    (a.insert ptr n) xs' := by
  rw [h.length] at hn
  obtain ⟨list, hins, hholds, hbrk⟩ := insert_eq h.holds ptr hn
  refine ⟨list, xs.insertIdx n (s.list.brk, ptr), hins, hholds, ?_, ?_⟩
  · rw [Seq.insert, ← h.items, List.map_insertIdx]
  · exact hbrk ▸ h.cursor.insert hn ptr

theorem shows_erase (h : Shows s a xs) {n : Nat} {list : Ulist β}
    (hholds : Holds list (xs.eraseIdx n))
    (hbrk : list.brk = s.list.brk) : Shows { s with list } (a.erase n) (xs.eraseIdx n) := by
  refine ⟨hholds, ?_, ?_⟩
  · rw [Seq.erase, ← h.items, List.eraseIdx_map]
  · exact hbrk ▸ h.cursor.erase h.holds.rep.nodup h.holds.brk n

variable [DecidableEq β]

/-- **One call.** -/
theorem step_follows (h : Shows s a xs) (hop : Allowed s op) :
    ∃ r s' a' xs', step s op = some (r, s') ∧ a.step op = some (r, a') ∧ Shows s' a' xs' := by
  cases op with
  | add ptr =>
    obtain ⟨list, xs', hins, hshows⟩ := step_insert h ptr (Nat.le_refl _)
    refine ⟨.ok, { s with list }, _, xs', ?_, rfl, hshows⟩
    rw [h.length, ← h.holds.count] at hins
    simp [step, add, hins, Res.ofBool]
  | insert ptr n =>
    by_cases hn : n ≤ a.items.length
    · obtain ⟨list, xs', hins, hshows⟩ := step_insert h ptr hn
      exact ⟨.ok, { s with list }, _, xs', by simp [step, hins, Res.ofBool], by simp [Seq.step, hn],
        hshows⟩
    · have hins := insert_fail h.holds ptr (by rw [← h.length]; omega : xs.length < n)
      exact ⟨.fail, s, a, xs, by simp [step, hins, Res.ofBool], by simp [Seq.step, hn], h⟩
  | del ptr =>
    have hfind : a.items.findIdx? (· = ptr) = xs.findIdx? (·.2 = ptr) := by
      rw [← h.items, List.findIdx?_map]
      rfl
    cases hn : xs.findIdx? (·.2 = ptr) with
    | none =>
      have hdel := del_fail h.holds hn
      exact ⟨.fail, s, a, xs, by simp [step, hdel, Res.ofBool], by simp only [Seq.step, hfind, hn],
        h⟩
    | some n =>
      obtain ⟨list, hdel, hholds, hbrk⟩ := del_eq h.holds hn
      exact ⟨.ok, { s with list }, _, _, by simp [step, hdel, Res.ofBool], by simp only [Seq.step,
        hfind, hn], shows_erase h hholds hbrk⟩
  | delN n =>
    cases hx : xs[n]? with
    | none =>
      have hdel := delN_fail h.holds hx
      exact ⟨.fail, s, a, xs, by simp [step, hdel], by simp [Seq.step, h.getElem?, hx], h⟩
    | some x =>
      obtain ⟨list, hdel, hholds, hbrk⟩ := delN_eq h.holds hx
      exact ⟨.ptr x.2, { s with list }, _, _, by simp [step, hdel], by simp [Seq.step, h.getElem?,
        hx], shows_erase h hholds hbrk⟩
  | getN n =>
    exact ⟨.ptr (xs[n]?.map Prod.snd).join, s, a, xs, by simp [step, getN_eq h.holds],
      by simp [Seq.step, h.getElem?], h⟩
  | count =>
    exact ⟨.num xs.length, s, a, xs, by simp [step, h.holds.count], by simp [Seq.step, h.length], h⟩
  | first =>
    refine ⟨.ptr (xs[0]?.map Prod.snd).join, { s with it := xs[1]?.map Prod.fst },
      { a with cursor := .at? 1 xs.length },
      xs, by simp [step, first_eq h.holds], ?_, h.holds, h.items, points_at? xs s.list.brk 1⟩
    rw [Seq.step, h.getElem?, h.length]
  | next =>
    cases hc : a.cursor with
    | done =>
      have hit : s.it = none := by simpa [hc, Points] using h.cursor
      refine ⟨.ptr none, s, a, xs, ?_, by simp [Seq.step, hc], h⟩
      rw [step, hit]
      simp [next, ← hit]
    | before i =>
      obtain ⟨x, hx, hit⟩ : ∃ x, xs[i]? = some x ∧ s.it =
        some x.1 := by simpa [hc, Points] using h.cursor
      obtain ⟨prev, hmem⟩ := mem_eq h.holds.rep hx
      refine ⟨.ptr x.2, { s with it := xs[i + 1]?.map Prod.fst },
        { a with cursor := .at? (i + 1) xs.length }, xs, ?_, ?_, h.holds, h.items,
        points_at? xs s.list.brk (i + 1)⟩
      · simp [step, next, hit, hmem]
      · simp [Seq.step, hc, h.getElem?, hx, h.length]
    | gone =>
      obtain ⟨item, hit, hitem, -⟩ : ∃ item, s.it = some item ∧ item ∉ Tailq.addrs xs ∧
        item < s.list.brk := by
        have := h.cursor
        rwa [hc] at this
      exact absurd (h.holds.rep.free item hitem) (hop item hit)
  | clear =>
    obtain rfl : xs = [] := by
      have hfirst : none = xs.head?.map Prod.fst := hop.symm.trans h.holds.rep.seg.head
      cases xs with
      | nil => rfl
      | cons x xs => cases hfirst
    obtain ⟨head, hclear, hrep⟩ := clear_eq h.holds
    refine ⟨.ok, { s with list := { s.list with head } }, ⟨[], a.cursor.clear⟩,
      [], by simp [step, hclear], rfl, ⟨hrep, h.holds.count,
        h.holds.brk⟩, rfl, h.cursor.clear h.holds.brk⟩

/-- A call that is not allowed is undefined, or leaves the count wrong. -/
theorem step_wrong (h : Shows s a xs) (hop : ¬ Allowed s op) {r : Res β} {s' : State β} {a' : Seq β}
    (hs : step s op = some (r, s')) (ha : a.step op = some (r, a')) :
    s'.list.count ≠ a'.items.length := by
  cases op with
  | clear =>
    obtain ⟨head, hclear, -⟩ := clear_eq h.holds
    obtain ⟨-, rfl⟩ : _ ∧ { s with list := { s.list with head } } =
      s' := by simpa [step, hclear] using hs
    obtain ⟨-, rfl⟩ : _ ∧ (⟨[], a.cursor.clear⟩ : Seq β) = a' := by simpa [Seq.step] using ha
    intro hcount
    have hnil : xs = [] := List.length_eq_zero_iff.mp (h.holds.count.symm.trans hcount)
    subst hnil
    exact hop h.holds.rep.seg.2.symm
  | next =>
    simp only [Allowed, not_forall, not_not] at hop
    obtain ⟨item, hit, hmem⟩ := hop
    obtain hit : s.it = some item := hit
    simp [step, next, hit, hmem] at hs
  | _ => exact absurd trivial hop

/-- **Every run on a list follows the sequence**, and the count is its length, exactly when no list
is cleared that has items, and no item is asked for that has been freed. -/
theorem follows_iff (ops : List (Op β)) :
    Tracks step (fun a op r a' => Seq.step a op = some (r, a'))
    (fun s a => s.list.count = a.items.length)
        ⟨create, none⟩ ⟨[], .done⟩ ops ↔
      Guarded step Allowed (⟨create, none⟩ : State β) ops := by
  have hinit : Shows (⟨create, none⟩ : State β) ⟨[], .done⟩ [] := ⟨holds_create, rfl, rfl⟩
  refine tracks_iff_guarded_of_det (fun s a => ∃ xs, Shows s a xs) ?_ ?_ ?_ ⟨[], hinit⟩
  · intro a op r a₁ a₂ h₁ h₂
    rw [h₁] at h₂
    exact (Prod.mk.inj (Option.some.inj h₂)).2
  · rintro s a op ⟨xs, h⟩ hop
    obtain ⟨r, s', a', xs', hs, ha, h'⟩ := step_follows h hop
    exact ⟨r, s', a', hs, ha, h'.holds.count.trans h'.length.symm, xs', h'⟩
  · rintro s a op r s' a' ⟨xs, h⟩ hop hs ha
    exact step_wrong h hop hs ha

/-- A list of one pointer is cleared: its count is 1, and a deletion at 0 follows NULL. -/
theorem cleared_list_count :
    ¬ Tracks step (fun a op r a' => Seq.step a op = some (r, a'))
    (fun s a => s.list.count = a.items.length)
        ⟨create, none⟩ ⟨[], .done⟩ [.add (some 7), .clear] ∧
      run step (⟨create, none⟩ : State Nat) [.add (some 7), .clear, .delN 0] = none := by
  refine ⟨?_, rfl⟩
  rintro ⟨r, s, a, hs, ha, -, r', s', a', hs', ha', hcount, -⟩
  obtain ⟨-, rfl⟩ := Prod.mk.inj (Option.some.inj hs)
  obtain ⟨-, rfl⟩ := Prod.mk.inj (Option.some.inj ha)
  obtain ⟨-, rfl⟩ := Prod.mk.inj (Option.some.inj hs')
  obtain ⟨-, rfl⟩ := Prod.mk.inj (Option.some.inj ha')
  exact absurd hcount (by decide)

end Step

end Ulist

end Libu
