/-
# Priority queues (`toolbox/pqueue.c`)

A queue is a heap in an array that `u_pq_create` asks for with room for `nitems + 1` items, of which
those from 1 to `nelems` are in use.  The items that are not in use have zeroes, or what was
deleted.  Keys are of a linear order, as floating point numbers are without NaN.

The sum `nitems + 1` is one of `size_t`.  For `SIZE_MAX` elements it is 0, an array of no items is
made, and the queue takes itself for an empty one with room.  A push that writes behind the array
has no result (`none`); a deletion never leaves it, for only what is in use is touched.

* §1 is the queue.
* §2: what is in it are the items that were pushed and not yet deleted, and a deleted one is a
  greatest.
* §3: that is what becomes of every run, for exactly the queues whose array has a slot more than
  elements (`priority_queue`).
-/
import Mathlib.Data.Nat.Basic
import Libu.Verif.Heap
import Libu.Verif.Mem
import Libu.Verif.Run

namespace Libu.Pqueue

open Verif

/-! ## 1. The queue -/

/-- `u_pq_item_t` -/
structure Item (κ ν : Type) where
  key : κ
  val : ν
  deriving DecidableEq, Inhabited

/-- `u_pq_t`; `q` has as many items as were asked for. -/
structure Pq (κ ν : Type) where
  nelems : Nat
  nitems : Nat
  q : Vector (Item κ ν) (SizeT.add nitems 1)
  nelems_le : nelems ≤ nitems
  /-- What is in use is in the array. -/
  nelems_lt : nelems = 0 ∨ nelems < SizeT.add nitems 1

section Queue

variable {κ ν : Type} [LinearOrder κ] {m k n : Nat}

def pqItemComp (pi pj : Item κ ν) : Bool := decide (pi.key < pj.key)

def bubbleUp (q : Vector (Item κ ν) m) (k : Nat) (hk : k < m) : Vector (Item κ ν) m :=
  if h : 1 < k ∧ pqItemComp q[k / 2] q[k] then bubbleUp (q.swap k (k / 2)) (k / 2) (by omega) else q
termination_by k

/-- The child that the parent at `k` is compared with. -/
def child (q : Vector (Item κ ν) m) (k n : Nat) (hn : n < m) (_hk : 2 * k ≤ n) : Nat :=
  if h : 2 * k < n then
    if pqItemComp q[2 * k] q[2 * k + 1] then 2 * k + 1 else 2 * k
  else 2 * k

theorem child_spec (q : Vector (Item κ ν) m) (hn : n < m) (hk : 2 * k ≤ n) :
    child q k n hn hk ≤ n ∧ child q k n hn hk / 2 = k := by
  rw [child]
  split
  · split <;> omega
  · omega

def bubbleDown (q : Vector (Item κ ν) m) (k n : Nat) (hn : n < m) (hk : 0 < k) :
    Vector (Item κ ν) m :=
  if h : 2 * k ≤ n then
    have hj := child_spec q hn h
    if pqItemComp q[k] q[child q k n hn h] then
      bubbleDown (q.swap k (child q k n hn h)) (child q k n hn h) n hn (by omega)
    else q
  else q
termination_by n - k

namespace Pq

/-- `u_pq_create`: at least 2 elements, and memory for both blocks (`mem`).  calloc itself refuses
an array whose bytes `size_t` does not count; an item is 16 of them. -/
def create [Inhabited κ] [Inhabited ν] (nitems : Nat) (mem : Bool) : Option (Pq κ ν) :=
  if nitems < 2 then none
  else if mem = false ∨ 2 ^ 64 ≤ SizeT.add nitems 1 * 16 then none
  else some ⟨0, nitems, .replicate _ default, Nat.zero_le _, .inl rfl⟩

def empty (pq : Pq κ ν) : Bool := pq.nelems == 0

def full (pq : Pq κ ν) : Bool := pq.nelems == pq.nitems

/-- `u_pq_push` -/
def push (pq : Pq κ ν) (key : κ) (val : ν) : Option (Pq κ ν × Int) :=
  if h : pq.full then some (pq, -2)
  else if hroom : pq.nelems + 1 < SizeT.add pq.nitems 1 then
    have hlt : pq.nelems < pq.nitems := Nat.lt_of_le_of_ne pq.nelems_le (by simpa [full] using h)
    let q := pq.q.set (pq.nelems + 1) ⟨key, val⟩
    some ({ pq with
      nelems := pq.nelems + 1
      q := bubbleUp q (pq.nelems + 1) hroom
      nelems_le := hlt
      nelems_lt := .inr hroom }, 0)
  -- the slot is behind the array
  else none

/-- `u_pq_delmax`: the evicted key and value, and `none` for an empty queue. -/
def delmax (pq : Pq κ ν) : Pq κ ν × Option (Item κ ν) :=
  have hle := pq.nelems_le
  if h : pq.nelems = 0 then (pq, none)
  else
    have hlt := pq.nelems_lt.resolve_left h
    let q := pq.q.swap 1 pq.nelems
    let q := bubbleDown q 1 (pq.nelems - 1) (by omega) Nat.one_pos
    ({ pq with nelems := pq.nelems - 1, q, nelems_le := by omega, nelems_lt := by omega },
      some q[pq.nelems])

theorem push_full {pq : Pq κ ν} {key : κ} {val : ν} (hfull : pq.full = true) :
    pq.push key val = some (pq, -2) := by
  rw [push, dif_pos hfull]

/-- A push that finds no slot. -/
theorem push_outside {pq : Pq κ ν} {key : κ} {val : ν} (hfull : pq.full = false)
    (hroom : SizeT.add pq.nitems 1 ≤ pq.nelems + 1) : pq.push key val = none := by
  rw [push, dif_neg (by rw [hfull]; exact Bool.false_ne_true), dif_neg (Nat.not_lt.mpr hroom)]

theorem delmax_empty {pq : Pq κ ν} (hempty : pq.empty = true) : pq.delmax = (pq, none) := by
  have h0 : pq.nelems = 0 := by simpa [empty] using hempty
  rw [delmax]
  exact dif_pos h0

/-- Delete until the queue is empty, or `n` times. -/
def drain : Nat → Pq κ ν → List (Item κ ν)
  | 0, _ => []
  | n + 1, pq => if pq.empty then [] else pq.delmax.2.toList ++ drain n pq.delmax.1

end Pq

inductive Op (κ ν : Type)
  | push (key : κ) (val : ν)
  | delmax

/-- What was done, with what it returned. -/
inductive Event (κ ν : Type)
  | push (key : κ) (val : ν) (rc : Int)
  | delmax (evicted : Option (Item κ ν))

def Event.pushed : Event κ ν → List (Item κ ν)
  | .push key val rc => if rc = 0 then [⟨key, val⟩] else []
  | .delmax _ => []

def Event.deleted : Event κ ν → List (Item κ ν)
  | .push .. => []
  | .delmax evicted => evicted.toList

def Pq.exec (pq : Pq κ ν) : Op κ ν → Option (Event κ ν × Pq κ ν)
  | .push key val => (pq.push key val).map fun r => (.push key val r.2, r.1)
  | .delmax => some (.delmax pq.delmax.2, pq.delmax.1)

/-- An operation on a queue whose array has no slot for a first element leaves it as it is, if it
has a result. -/
theorem Pq.exec_slotless {pq : Pq κ ν} (h0 : pq.nelems = 0) (hslots : SizeT.add pq.nitems 1 ≤ 1)
    (hpos : 0 < pq.nitems) {op : Op κ ν} {ev : Event κ ν} {pq' : Pq κ ν}
    (hexec : pq.exec op = some (ev, pq')) : pq' = pq := by
  cases op with
  | push key val =>
    have hfull : pq.full = false := by simpa [Pq.full, h0] using hpos.ne
    rw [Pq.exec, Pq.push_outside hfull (by rw [h0]; exact hslots)] at hexec
    cases hexec
  | delmax =>
    rw [Pq.exec, Pq.delmax_empty (by simp [Pq.empty, h0])] at hexec
    cases hexec
    rfl

theorem Pq.run_slotless {pq : Pq κ ν} (h0 : pq.nelems = 0) (hslots : SizeT.add pq.nitems 1 ≤ 1)
    (hpos : 0 < pq.nitems) : ∀ (ops : List (Op κ ν)) {log : List (Event κ ν)} {pq' : Pq κ ν},
    run Pq.exec pq ops = some (log, pq') → pq' = pq
  | [], _, _, hrun => by
    cases hrun
    rfl
  | op :: ops, log, pq', hrun => by
    simp only [run, Option.bind_eq_bind, Option.bind_eq_some_iff, Prod.exists] at hrun
    obtain ⟨ev, pq₁, hexec, log₁, pq₂, hrun₁, heq⟩ := hrun
    obtain ⟨-, rfl⟩ : ev :: log₁ = log ∧ pq₂ = pq' := by simpa using heq
    obtain rfl := Pq.exec_slotless h0 hslots hpos hexec
    exact Pq.run_slotless h0 hslots hpos ops hrun₁

end Queue

/-! ## 2. A queue is a heap -/

section Items

variable {κ ν : Type} [Inhabited κ] [Inhabited ν] {m : Nat} {q : Vector (Item κ ν) m}

def item (q : Vector (Item κ ν) m) (i : Nat) : Item κ ν := q[i]?.getD default

def keyAt (q : Vector (Item κ ν) m) (i : Nat) : κ := (item q i).key

theorem item_eq {i : Nat} (hi : i < m) : item q i = q[i] := by
  rw [item, Vector.getElem?_eq_getElem hi, Option.getD_some]

theorem item_swap {i j : Nat} (hi : i < m) (hj : j < m) :
    item (q.swap i j) = item q ∘ Equiv.swap i j := by
  funext a
  rw [item, Vector.getElem?_swap, Function.comp_apply, Equiv.swap_apply_def]
  by_cases hai : a = i
  · rw [if_pos hai, item_eq hj]
    split
    · next hja => subst hja hai; rfl
    · rw [if_pos hai.symm]
      rfl
  · rw [if_neg hai, if_neg (Ne.symm hai)]
    by_cases haj : a = j
    · rw [if_pos haj, if_pos haj.symm, item_eq hi]
      rfl
    · rw [if_neg haj, if_neg (Ne.symm haj)]
      rfl

theorem keyAt_swap {i j : Nat} (hi : i < m) (hj : j < m) :
    keyAt (q.swap i j) = keyAt q ∘ Equiv.swap i j := by
  funext a
  rw [keyAt, item_swap hi hj]
  rfl

theorem item_set {i : Nat} {x : Item κ ν} (hi : i < m) : item (q.set i x) i = x := by
  rw [item_eq hi, Vector.getElem_set_self]

theorem item_set_of_ne {i j : Nat} {x : Item κ ν} (hi : i < m) (hne : j ≠ i) :
    item (q.set i x) j = item q j := by
  rw [item, Vector.getElem?_set, if_neg (Ne.symm hne), item]

end Items

section Heap

variable {κ ν : Type} [LinearOrder κ] [Inhabited κ] [Inhabited ν] {m k n : Nat}
  {q : Vector (Item κ ν) m} {pq pq' : Pq κ ν}

theorem pqItemComp_iff {i j : Nat} (hi : i < m) (hj : j < m) :
    pqItemComp q[i] q[j] = true ↔ keyAt q i < keyAt q j := by
  rw [pqItemComp, decide_eq_true_iff, keyAt, keyAt, item_eq hi, item_eq hj]

theorem bubbleUp_spec (hk : k < m) (h0 : 0 < k) (hkn : k ≤ n) (hup : UpHeap (keyAt q) n k) :
    MaxHeap (keyAt (bubbleUp q k hk)) n ∧
      (slots (item (bubbleUp q k hk)) n).Perm (slots (item q) n) := by
  fun_induction bubbleUp q k hk with
  | case1 q k hk h ih =>
    have hlt := (pqItemComp_iff (by omega) hk).mp h.2
    have hmove := hup.move h.1 hkn hlt
    rw [← keyAt_swap hk (by omega)] at hmove
    obtain ⟨hheap, hperm⟩ := ih (by omega) (by omega) hmove
    refine ⟨hheap, hperm.trans ?_⟩
    rw [item_swap hk (by omega)]
    exact slots_swap h0 hkn (by omega) (by omega)
  | case2 q k hk h =>
    refine ⟨hup.done fun h1 => ?_, List.Perm.refl _⟩
    by_contra hlt
    exact h ⟨h1, (pqItemComp_iff (by omega) hk).mpr (not_le.mp hlt)⟩

/-- The child is the greater one. -/
theorem le_child (hn : n < m) (hk : 2 * k ≤ n) :
    ∀ i, i ≤ n → i / 2 = k → keyAt q i ≤ keyAt q (child q k n hn hk) := by
  intro i hin hik
  have hi : i = 2 * k ∨ i = 2 * k + 1 := by omega
  rw [child]
  split
  · next hlt =>
    split
    · next hcomp =>
      have hle := le_of_lt ((pqItemComp_iff (by omega) (by omega)).mp hcomp)
      rcases hi with rfl | rfl
      · exact hle
      · exact le_rfl
    · next hcomp =>
      have hle := not_lt.mp fun hlt => hcomp ((pqItemComp_iff (by omega) (by omega)).mpr hlt)
      rcases hi with rfl | rfl
      · exact le_rfl
      · exact hle
  · rcases hi with rfl | rfl
    · exact le_rfl
    · omega

theorem bubbleDown_spec (hn : n < m) (h0 : 0 < k) (hdown : DownHeap (keyAt q) n k) :
    MaxHeap (keyAt (bubbleDown q k n hn h0)) n ∧
      (slots (item (bubbleDown q k n hn h0)) n).Perm (slots (item q) n) ∧
      ∀ i, n < i → item (bubbleDown q k n hn h0) i = item q i := by
  fun_induction bubbleDown q k n hn h0 with
  | case1 q k h0 hle hj hcomp ih =>
    have hlt := (pqItemComp_iff (by omega) (by omega)).mp hcomp
    have hmove := hdown.move h0 hj.1 hj.2 hlt (le_child hn hle)
    rw [← keyAt_swap (by omega) (by omega)] at hmove
    obtain ⟨hheap, hperm, hrest⟩ := ih hmove
    refine ⟨hheap, hperm.trans ?_, fun i hi => (hrest i hi).trans ?_⟩
    · rw [item_swap (by omega) (by omega)]
      exact slots_swap h0 (by omega) (by omega) hj.1
    · rw [item_swap (by omega) (by omega)]
      exact swap_of_ne (by omega) (by omega)
  | case2 q k h0 hle hj hcomp =>
    refine ⟨hdown.done fun i _ hin hik => ?_, List.Perm.refl _, fun _ _ => rfl⟩
    have hstop := not_lt.mp fun hlt => hcomp ((pqItemComp_iff (by omega) (by omega)).mpr hlt)
    exact le_trans (le_child hn hle i hin hik) hstop
  | case3 q k h0 hle =>
    refine ⟨hdown.done fun i _ hin hik => ?_, List.Perm.refl _, fun _ _ => rfl⟩
    omega

namespace Pq

/-- The items of a queue. -/
def items (pq : Pq κ ν) : List (Item κ ν) := slots (item pq.q) pq.nelems

def IsHeap (pq : Pq κ ν) : Prop := MaxHeap (keyAt pq.q) pq.nelems

omit [LinearOrder κ] in
theorem create_sizes {nitems : Nat} {mem : Bool} (h : create nitems mem = some pq) :
    2 ≤ pq.nitems ∧ pq.nitems = nitems ∧ pq.nelems = 0 := by
  rw [create] at h
  split at h
  · cases h
  · next htwo =>
    split at h
    · cases h
    · obtain rfl := Option.some.inj h
      exact ⟨Nat.not_lt.mp htwo, rfl, rfl⟩

/-- A queue without elements is a heap. -/
theorem isHeap_empty (h0 : pq.nelems = 0) : pq.IsHeap ∧ pq.items = [] := by
  rw [IsHeap, items, h0]
  exact ⟨maxHeap_zero, rfl⟩

/-- The array has a slot for every element, and the one at 0. -/
def Roomy (pq : Pq κ ν) : Prop := SizeT.add pq.nitems 1 = pq.nitems + 1

/-- **One push.** -/
theorem push_spec (hheap : pq.IsHeap) (hroomy : pq.Roomy) (key : κ) (val : ν)
    (hfull : pq.full = false) :
    ∃ pq', pq.push key val = some (pq', 0) ∧ pq'.IsHeap ∧ pq'.nitems = pq.nitems ∧
      pq'.items.Perm (⟨key, val⟩ :: pq.items) := by
  have hne : pq.nelems ≠ pq.nitems := by simpa [full] using hfull
  have hlt : pq.nelems + 1 < SizeT.add pq.nitems 1 := by
    rw [show SizeT.add pq.nitems 1 = pq.nitems + 1 from hroomy]
    exact Nat.succ_lt_succ (Nat.lt_of_le_of_ne pq.nelems_le hne)
  have hold : ∀ i, 0 < i → i ≤ pq.nelems →
      item (pq.q.set (pq.nelems + 1) ⟨key, val⟩) i = item pq.q i := by
    intro i _ hi
    exact item_set_of_ne hlt (by omega)
  have hup : UpHeap (keyAt (pq.q.set (pq.nelems + 1) ⟨key, val⟩)) (pq.nelems + 1) (pq.nelems + 1) :=
    MaxHeap.push hheap fun i h0 hi => congrArg Item.key (hold i h0 hi)
  obtain ⟨hheap', hperm⟩ := bubbleUp_spec hlt (Nat.succ_pos _) (Nat.le_refl _) hup
  have hnot : ¬ pq.full = true := by
    rw [hfull]
    exact Bool.false_ne_true
  refine ⟨_, (dif_neg hnot).trans (dif_pos hlt), hheap', rfl, hperm.trans ?_⟩
  have hcons := slots_cons (f := item (pq.q.set (pq.nelems + 1) ⟨key, val⟩))
    (Nat.succ_pos pq.nelems)
  rwa [Nat.succ_eq_add_one, Nat.add_sub_cancel, slots_congr hold, item_set hlt] at hcons

/-- **One deletion.** -/
theorem delmax_spec (hheap : pq.IsHeap) (hempty : pq.empty = false) :
    ∃ pq' x, pq.delmax = (pq', some x) ∧
    pq'.IsHeap ∧ pq'.nitems = pq.nitems ∧ pq'.nelems + 1 = pq.nelems ∧
      pq.items.Perm (x :: pq'.items) ∧ ∀ y ∈ pq.items, y.key ≤ x.key := by
  have h0 : pq.nelems ≠ 0 := by simpa [empty] using hempty
  have hlt := pq.nelems_lt.resolve_left h0
  obtain ⟨n, hn⟩ := Nat.exists_eq_succ_of_ne_zero h0
  have hsub : pq.nelems - 1 = n := by omega
  have hdown : DownHeap (keyAt (pq.q.swap 1 pq.nelems)) (pq.nelems - 1) 1 := by
    rw [keyAt_swap (by omega) (by omega), hsub, hn]
    rw [IsHeap, hn] at hheap
    exact hheap.pop
  obtain ⟨hheap', hperm, hrest⟩ := bubbleDown_spec (by omega) Nat.one_pos hdown
  have hlast := hrest pq.nelems (by omega)
  have hmax : item (pq.q.swap 1 pq.nelems) pq.nelems = item pq.q 1 := by
    rw [item_swap (by omega) (by omega)]
    exact swap_right
  refine ⟨_, _, dif_neg h0, ?_, rfl, ?_, ?_, ?_⟩
  · exact hheap'
  · exact Nat.sub_add_cancel (Nat.pos_of_ne_zero h0)
  · rw [← item_eq (by omega), hlast]
    have hall := slots_swap (f := item pq.q) (k := 1) (j := pq.nelems) Nat.one_pos (by omega)
      (Nat.pos_of_ne_zero h0) (Nat.le_refl _)
    rw [← item_swap (by omega) (by omega)] at hall
    exact hall.symm.trans ((slots_cons (Nat.pos_of_ne_zero h0)).trans (hperm.symm.cons _))
  · intro y hy
    obtain ⟨i, hi0, hi, rfl⟩ := mem_slots.mp hy
    rw [← item_eq (by omega), hlast, hmax]
    exact hheap.le_top hi0 hi

/-- **A queue that is drained** gives its items in the order of their keys. -/
theorem drain_spec : ∀ {n : Nat} {pq : Pq κ ν}, pq.IsHeap → pq.nelems ≤ n →
    (drain n pq).Pairwise (fun x y => y.key ≤ x.key) ∧ (drain n pq).Perm pq.items
  | 0, pq, _, hn => by
    rw [items, Nat.le_zero.mp hn]
    exact ⟨.nil, List.Perm.refl _⟩
  | n + 1, pq, hheap, hn => by
    rw [drain]
    cases hempty : pq.empty with
    | true =>
      have h0 : pq.nelems = 0 := by simpa [empty] using hempty
      rw [if_pos rfl, items, h0]
      exact ⟨.nil, List.Perm.refl _⟩
    | false =>
      obtain ⟨pq', x, hdel, hheap', -, hlen, hperm, hmax⟩ := delmax_spec hheap hempty
      obtain ⟨hsorted, hrest⟩ := drain_spec hheap' (n := n) (by omega)
      rw [if_neg Bool.false_ne_true, hdel]
      refine ⟨List.pairwise_cons.mpr ⟨fun y hy => ?_, hsorted⟩, (hrest.cons x).trans hperm.symm⟩
      exact hmax y (hperm.mem_iff.mpr (List.mem_cons_of_mem _ (hrest.mem_iff.mp hy)))

end Pq

/-! ## 3. Runs -/

/-- What is promised of a queue after the operations in `log`. -/
structure Correct (pq : Pq κ ν) (log : List (Event κ ν)) : Prop where
  heap : ∀ i, 1 < i → i ≤ pq.nelems → keyAt pq.q i ≤ keyAt pq.q (i / 2)
  full : pq.full = true → ∀ key val, pq.push key val = some (pq, -2)
  push : pq.full = false → ∀ key val, ∃ pq', pq.push key val = some (pq', 0) ∧
    pq'.items.Perm (⟨key, val⟩ :: pq.items)
  delmax : pq.empty = false → ∃ pq' x, pq.delmax = (pq', some x) ∧
    pq.items.Perm (x :: pq'.items) ∧ ∀ y ∈ pq.items, y.key ≤ x.key
  /-- The keys come out in order. -/
  sorted : (pq.drain pq.nelems).Pairwise fun x y => y.key ≤ x.key
  /-- What was pushed has been deleted, or comes out. -/
  once : (log.flatMap Event.deleted ++ pq.drain pq.nelems).Perm (log.flatMap Event.pushed)

/-- The run is defined, and keeps the promises at its end. -/
def Keeps (pq : Pq κ ν) (ops : List (Op κ ν)) : Prop :=
  ∃ log pq', run Pq.exec pq ops = some (log, pq') ∧ Correct pq' log

namespace Pq

/-- One operation: what it adds and what it takes away. -/
theorem exec_spec (hheap : pq.IsHeap) (hroomy : pq.Roomy) (op : Op κ ν) :
    ∃ ev pq', pq.exec op = some (ev, pq') ∧ pq'.IsHeap ∧ pq'.Roomy ∧
      (ev.deleted ++ pq'.items).Perm (ev.pushed ++ pq.items) := by
  cases op with
  | push key val =>
    cases hfull : pq.full with
    | true =>
      refine ⟨.push key val (-2), pq, ?_, hheap, hroomy, List.Perm.refl _⟩
      rw [exec, push_full hfull]
      rfl
    | false =>
      obtain ⟨pq', hpush, hheap', hitems, hperm⟩ := push_spec hheap hroomy key val hfull
      refine ⟨.push key val 0, pq', ?_, hheap', ?_, hperm⟩
      · rw [exec, hpush]
        rfl
      · rwa [Roomy, hitems]
  | delmax =>
    cases hempty : pq.empty with
    | true =>
      refine ⟨.delmax none, pq, ?_, hheap, hroomy, List.Perm.refl _⟩
      rw [exec, delmax_empty hempty]
    | false =>
      obtain ⟨pq', x, hdel, hheap', hitems, -, hperm, -⟩ := delmax_spec hheap hempty
      refine ⟨.delmax (some x), pq', ?_, hheap', ?_, hperm.symm⟩
      · rw [exec, hdel]
      · rwa [Roomy, hitems]

theorem run_spec : ∀ (ops : List (Op κ ν)) {pq : Pq κ ν}, pq.IsHeap → pq.Roomy →
    ∃ log pq', run exec pq ops = some (log, pq') ∧ pq'.IsHeap ∧ pq'.Roomy ∧
      (log.flatMap Event.deleted ++ pq'.items).Perm (log.flatMap Event.pushed ++ pq.items)
  | [], pq, hheap, hroomy => ⟨[], pq, rfl, hheap, hroomy, List.Perm.refl _⟩
  | op :: ops, pq, hheap, hroomy => by
    obtain ⟨ev, pq₁, hexec, hheap₁, hroomy₁, hperm₁⟩ := exec_spec hheap hroomy op
    obtain ⟨log, pq₂, hrun, hheap₂, hroomy₂, hperm₂⟩ := run_spec ops hheap₁ hroomy₁
    refine ⟨ev :: log, pq₂, ?_, hheap₂, hroomy₂, ?_⟩
    · simp [run, hexec, hrun]
    · rw [List.flatMap_cons, List.flatMap_cons, List.append_assoc, List.append_assoc]
      refine (hperm₂.append_left _).trans ?_
      refine (List.perm_append_comm_assoc _ _ _).trans ?_
      exact (hperm₁.append_left _).trans (List.perm_append_comm_assoc _ _ _)

/-- **A heap with room keeps its promises.** -/
theorem correct {log : List (Event κ ν)} (hheap : pq.IsHeap) (hroomy : pq.Roomy)
    (hperm : (log.flatMap Event.deleted ++ pq.items).Perm (log.flatMap Event.pushed)) :
    Correct pq log := by
  obtain ⟨hsorted, hdrain⟩ := drain_spec hheap (Nat.le_refl _)
  constructor
  · exact hheap
  · intro hfull key val
    exact push_full hfull
  · intro hfull key val
    obtain ⟨pq', hpush, -, -, hitems⟩ := push_spec hheap hroomy key val hfull
    exact ⟨pq', hpush, hitems⟩
  · intro hempty
    obtain ⟨pq', x, hdel, -, -, -, hrest, hmax⟩ := delmax_spec hheap hempty
    exact ⟨pq', x, hdel, hrest, hmax⟩
  · exact hsorted
  · exact (hdrain.append_left _).trans hperm

end Pq

/-- **Priority queues**: the runs on a fresh one keep the promises, for exactly the sizes whose
successor is one of `size_t`.  Items come out in the order of their priorities, none is lost, and
what does not fit is refused.  For the greatest size the slots are none, and the first push is out
of bounds. -/
theorem priority_queue {nitems : Nat} {mem : Bool} {pq : Pq κ ν} (hsize : nitems ≤ 2 ^ 64 - 1)
    (hcreate : Pq.create nitems mem = some pq) (ops : List (Op κ ν)) :
    Keeps pq ops ↔ nitems < 2 ^ 64 - 1 := by
  obtain ⟨htwo, rfl, h0⟩ := Pq.create_sizes hcreate
  obtain ⟨hinit, hitems⟩ := Pq.isHeap_empty h0
  constructor
  · rintro ⟨log, pq', hrun, hcorrect⟩
    by_contra hmax
    have heq : pq.nitems = 2 ^ 64 - 1 := by omega
    have hslots : SizeT.add pq.nitems 1 = 0 := by
      rw [heq]
      rfl
    -- the queue is still the one that was created, and its first push is outside
    obtain rfl := Pq.run_slotless h0 (by omega) (by omega) ops hrun
    have hfull : pq'.full = false := by
      rw [Pq.full, h0, heq]
      rfl
    obtain ⟨key, val⟩ : Item κ ν := default
    obtain ⟨pq₁, hpush, -⟩ := hcorrect.push hfull key val
    rw [Pq.push_outside hfull (by omega)] at hpush
    cases hpush
  · intro hlt
    have hroomy : pq.Roomy := SizeT.add_of_lt (by omega)
    obtain ⟨log, pq', hrun, hheap, hroomy', hperm⟩ := Pq.run_spec ops hinit hroomy
    rw [hitems, List.append_nil] at hperm
    exact ⟨log, pq', hrun, Pq.correct hheap hroomy' hperm⟩

/-- Three pushes, of which one finds the queue full, and a deletion. -/
theorem priority_queue_three : ∃ pq : Pq Nat Nat, Pq.create 2 true = some pq ∧
    Keeps pq [.push 3 0, .push 5 1, .push 4 2, .delmax] :=
  ⟨_, rfl, (@priority_queue Nat Nat _ _ _ 2 true _ (by decide) rfl _).mpr (by decide)⟩

/-- `u_pq_create(SIZE_MAX)` makes a queue, and the first push writes outside of its array. -/
theorem not_keeps_max : ∃ pq : Pq Nat Nat, Pq.create (2 ^ 64 - 1) true = some pq ∧
    pq.push 7 0 = none ∧ ¬ Keeps pq [.push 7 0] := by
  refine ⟨⟨0, 2 ^ 64 - 1, .replicate _ default, Nat.zero_le _, .inl rfl⟩, rfl, ?_, ?_⟩
  · exact Pq.push_outside rfl (by decide)
  · rintro ⟨log, pq', hrun, -⟩
    rw [run, Pq.exec, Pq.push_outside rfl (by decide)] at hrun
    cases hrun

end Heap

end Libu.Pqueue
