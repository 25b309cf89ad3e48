/-
# Tail queues

A tail queue links items on the heap in both directions.  An item holds a pointer to the next item
and the address of the link that points to itself: the first link of the queue, or the `next` of the
item before it.  The queue has its first link, and the address of the link behind its last item.

Items are at addresses.  An address at which there is no item is one that has been freed, or was
never given out; to follow a pointer to it, or NULL, is undefined (`none`).

* §1 is the queue and its operations, assignment by assignment.
* §2: `Seg` is a run of items between two links.
* §3: a queue holds a list of items (`Rep`).  Insertion at a place (`Rep.insertHead`,
  `Rep.insertTail`, `Rep.insertBefore`) and removal (`Rep.remove`) are those of the list.
-/
import Mathlib.Data.List.Nodup
import Mathlib.Logic.Function.Basic

namespace Verif

/-! ## 1. The queue -/

/-- The address of a link. -/
inductive Link where
  | first
  | next (a : Nat)
  deriving DecidableEq

structure QItem (α : Type*) where
  next : Option Nat
  prev : Link
  val : α

structure Tailq (α : Type*) where
  first : Option Nat
  last : Link
  mem : Nat → Option (QItem α)

namespace Tailq

variable {α : Type*}

/-- The empty queue, in empty memory. -/
def nil : Tailq α := ⟨none, .first, fun _ => none⟩

def write (q : Tailq α) (a : Nat) (item : QItem α) : Tailq α :=
  { q with mem := Function.update q.mem a (some item) }

/-- The item is given back to the heap. -/
def free (q : Tailq α) (a : Nat) : Tailq α := { q with mem := Function.update q.mem a none }

/-- `*l = o` -/
def setLink (q : Tailq α) (l : Link) (o : Option Nat) : Option (Tailq α) :=
  match l with
  | .first => some { q with first := o }
  | .next a => do
    let item ← q.mem a
    some (q.write a { item with next := o })

/-- `o->prev = l`, or `last = l` where `o` is NULL. -/
def setPrev (q : Tailq α) (o : Option Nat) (l : Link) : Option (Tailq α) :=
  match o with
  | none => some { q with last := l }
  | some a => do
    let item ← q.mem a
    some (q.write a { item with prev := l })

/-- `TAILQ_INSERT_HEAD` of an item with this value at `a`. -/
def insertHead (q : Tailq α) (a : Nat) (val : α) : Option (Tailq α) := do
  let next := q.first
  let q ← (q.write a ⟨next, .first, val⟩).setPrev next (.next a)
  q.setLink .first (some a)

/-- `TAILQ_INSERT_TAIL` -/
def insertTail (q : Tailq α) (a : Nat) (val : α) : Option (Tailq α) := do
  let q ← (q.write a ⟨none, q.last, val⟩).setLink q.last (some a)
  some { q with last := .next a }

/-- `TAILQ_INSERT_BEFORE`, before the item at `b`. -/
def insertBefore (q : Tailq α) (b a : Nat) (val : α) : Option (Tailq α) := do
  let item ← q.mem b
  let q ← (q.write a ⟨some b, item.prev, val⟩).setLink item.prev (some a)
  q.setPrev (some b) (.next a)

/-- `TAILQ_REMOVE` -/
def remove (q : Tailq α) (a : Nat) : Option (Tailq α) := do
  let item ← q.mem a
  let q ← q.setPrev item.next item.prev
  q.setLink item.prev item.next

/-! ## 2. Segments -/

/-- The addresses of a list of items. -/
abbrev addrs (xs : List (Nat × α)) : List Nat := xs.map Prod.fst

/-- The items `xs` follow each other: the link `l`, which points to `o`, leads to the first one, and
the link `l'`, which points to `o'`, is the one behind the last. -/
def Seg (mem : Nat → Option (QItem α)) : Link → Option Nat → List (Nat × α) →
    Link → Option Nat → Prop
  | l, o, [], l', o' => l' = l ∧ o' = o
  | l, o, (a, v) :: xs, l', o' =>
    o = some a ∧ ∃ n, mem a = some ⟨n, l, v⟩ ∧ Seg mem (.next a) n xs l' o'

section Seg

variable {mem mem' : Nat → Option (QItem α)} {l l' k : Link} {o o' m : Option Nat}
    {xs ys : List (Nat × α)}
  {a : Nat} {v : α}

theorem seg_append : Seg mem l o (xs ++ ys) l' o' ↔ ∃ k m, Seg mem l o xs k m ∧
    Seg mem k m ys l' o' := by
  induction xs generalizing l o with
  | nil =>
    constructor
    · exact fun h => ⟨l, o, ⟨rfl, rfl⟩, h⟩
    · rintro ⟨k, m, ⟨rfl, rfl⟩, h⟩
      exact h
  | cons x xs ih =>
    constructor
    · rintro ⟨ho, n, hmem, h⟩
      obtain ⟨k, m, hxs, hys⟩ := ih.mp h
      exact ⟨k, m, ⟨ho, n, hmem, hxs⟩, hys⟩
    · rintro ⟨k, m, ⟨ho, n, hmem, hxs⟩, hys⟩
      exact ⟨ho, n, hmem, ih.mpr ⟨k, m, hxs, hys⟩⟩

/-- A segment depends on its own items only. -/
theorem Seg.frame (h : Seg mem l o xs l' o') (hmem : ∀ a ∈ addrs xs, mem' a = mem a) :
    Seg mem' l o xs l' o' := by
  induction xs generalizing l o with
  | nil => exact h
  | cons x xs ih =>
    obtain ⟨ho, n, hx, h⟩ := h
    have hhead := hmem x.1 List.mem_cons_self
    exact ⟨ho, n, hhead.trans hx, ih h fun a ha => hmem a (List.mem_cons_of_mem _ ha)⟩

theorem Seg.update (h : Seg mem l o xs l' o') (ha : a ∉ addrs xs) (item : Option (QItem α)) :
    Seg (Function.update mem a item) l o xs l' o' := by
  refine h.frame fun b hb => Function.update_of_ne ?_ _ _
  rintro rfl
  exact ha hb

/-- The link in front of a segment that ends the queue points to its first item. -/
theorem Seg.head (h : Seg mem l o xs l' none) : o = xs.head?.map Prod.fst := by
  cases xs with
  | nil => exact h.2.symm
  | cons x xs => exact h.1

end Seg

/-! ## 3. Lists of items -/

/-- The queue holds the items `xs`, and there are no others. -/
structure Rep (q : Tailq α) (xs : List (Nat × α)) : Prop where
  seg : Seg q.mem .first q.first xs q.last none
  nodup : (addrs xs).Nodup
  free : ∀ a, a ∉ addrs xs → q.mem a = none

section Rep

variable {q : Tailq α} {xs ys : List (Nat × α)} {l l' : Link} {o o' : Option Nat}
    {a b : Nat} {v w : α}

theorem rep_nil : Rep (nil : Tailq α) [] := ⟨⟨rfl, rfl⟩, List.nodup_nil, fun _ _ => rfl⟩

/-- The link behind the first items of a queue is set. -/
theorem setLink_spec (h : Seg q.mem .first q.first xs l o) (hnodup : (addrs xs).Nodup)
    (o' : Option Nat) :
    ∃ q', q.setLink l o' = some q' ∧ Seg q'.mem .first q'.first xs l o' ∧ q'.last = q.last ∧
      ∀ b, b ∉ addrs xs → q'.mem b = q.mem b := by
  rcases List.eq_nil_or_concat xs with rfl | ⟨ys, ⟨a, v⟩, rfl⟩
  · obtain ⟨rfl, -⟩ := h
    exact ⟨_, rfl, ⟨rfl, rfl⟩, rfl, fun _ _ => rfl⟩
  · rw [List.concat_eq_append] at h hnodup ⊢
    obtain ⟨k, m, hys, hm, n, hmem, rfl, rfl⟩ := seg_append.mp h
    have ha : a ∉ addrs ys := by
      rw [addrs, List.map_append, List.nodup_append] at hnodup
      exact fun hmem => hnodup.2.2 a hmem a (by simp) rfl
    refine ⟨q.write a ⟨o', k, v⟩, by simp [setLink, hmem], ?_, rfl, ?_⟩
    · exact seg_append.mpr ⟨k, m, hys.update ha _, hm, o', Function.update_self .., rfl, rfl⟩
    · intro b hb
      refine Function.update_of_ne ?_ _ _
      rintro rfl
      simp at hb

/-- The address of the link in front of the last items of a queue is set. -/
theorem setPrev_spec (h : Seg q.mem l o xs q.last none) (hnodup : (addrs xs).Nodup) (l' : Link) :
    ∃ q', q.setPrev o l' = some q' ∧ Seg q'.mem l' o xs q'.last none ∧ q'.first = q.first ∧
      ∀ b, b ∉ addrs xs → q'.mem b = q.mem b := by
  cases xs with
  | nil =>
    obtain ⟨-, rfl⟩ := h
    exact ⟨_, rfl, ⟨rfl, rfl⟩, rfl, fun _ _ => rfl⟩
  | cons x xs =>
    obtain ⟨rfl, n, hmem, h⟩ := h
    obtain ⟨hx, -⟩ := List.nodup_cons.mp hnodup
    refine ⟨q.write x.1 ⟨n, l', x.2⟩, by simp [setPrev, hmem], ?_, rfl, ?_⟩
    · exact ⟨rfl, n, Function.update_self .., h.update hx _⟩
    · intro b hb
      refine Function.update_of_ne ?_ _ _
      rintro rfl
      simp at hb

/-- An item of a queue is in memory. -/
theorem Seg.mem_some (h : Seg q.mem l o xs l' o') (ha : a ∈ addrs xs) :
    ∃ item, q.mem a = some item := by
  induction xs generalizing l o with
  | nil => cases ha
  | cons x xs ih =>
    obtain ⟨-, n, hx, h⟩ := h
    rcases List.mem_cons.mp ha with rfl | ha
    · exact ⟨_, hx⟩
    · exact ih h ha

theorem Rep.not_mem (h : Rep q xs) (ha : q.mem a = none) : a ∉ addrs xs := by
  intro hmem
  obtain ⟨item, hitem⟩ := h.seg.mem_some hmem
  rw [ha] at hitem
  cases hitem

/-- The addresses on both sides of an item. -/
theorem nodup_middle : (addrs (xs ++ (a, v) :: ys)).Nodup ↔
    (addrs xs).Nodup ∧ (addrs ys).Nodup ∧ (∀ b ∈ addrs xs, b ∉ addrs ys) ∧ a ∉ addrs xs ∧
    a ∉ addrs ys := by
  simp only [addrs, List.map_append, List.map_cons, List.nodup_append, List.nodup_cons]
  grind

theorem not_mem_middle : b ∉ addrs (xs ++ (a, v) :: ys) ↔ b ∉ addrs xs ∧ b ≠ a ∧ b ∉ addrs ys := by
  simp [addrs, not_or]

/-- An item that knows its neighbours is linked in between them. -/
theorem splice (hleft : Seg q.mem .first q.first xs l o) (hright : Seg q.mem l o ys q.last none)
    (hnodup : (addrs (xs ++ (a, v) :: ys)).Nodup) (hitem : q.mem a = some ⟨o, l, v⟩)
    (hfree : ∀ b, b ∉ addrs (xs ++ (a, v) :: ys) → q.mem b = none) :
    ∃ q', ((q.setLink l (some a)).bind fun q => q.setPrev o (.next a)) = some q' ∧
      Rep q' (xs ++ (a, v) :: ys) := by
  obtain ⟨hxs, hys, hdisj, hax, hay⟩ := nodup_middle.mp hnodup
  obtain ⟨q₁, hset, hleft₁, hlast₁, hmem₁⟩ := setLink_spec hleft hxs (some a)
  have hright₁ : Seg q₁.mem l o ys q₁.last none :=
    hlast₁ ▸ hright.frame fun b hb => hmem₁ b fun hbx => hdisj b hbx hb
  obtain ⟨q₂, hprev, hright₂, hfirst₂, hmem₂⟩ := setPrev_spec hright₁ hys (.next a)
  have hleft₂ : Seg q₂.mem .first q₂.first xs l (some a) :=
    hfirst₂ ▸ hleft₁.frame fun b hb => hmem₂ b (hdisj b hb)
  have hitem₂ : q₂.mem a = some ⟨o, l, v⟩ := (hmem₂ a hay).trans ((hmem₁ a hax).trans hitem)
  refine ⟨q₂, by rw [hset, Option.bind_some, hprev], ?_, hnodup, ?_⟩
  · exact seg_append.mpr ⟨l, some a, hleft₂, rfl, o, hitem₂, hright₂⟩
  · intro b hb
    obtain ⟨hbx, -, hby⟩ := not_mem_middle.mp hb
    rw [hmem₂ b hby, hmem₁ b hbx, hfree b hb]

/-- The queue with the item that is to be linked in. -/
theorem write_spec (h : Rep q (xs ++ ys)) (ha : q.mem a = none)
    (hleft : Seg q.mem .first q.first xs l o) (hright : Seg q.mem l o ys q.last none) (v : α) :
    Seg (q.write a ⟨o, l, v⟩).mem .first q.first xs l o ∧ Seg (q.write a ⟨o, l, v⟩).mem l
    o ys q.last none ∧
      (addrs (xs ++ (a, v) :: ys)).Nodup ∧ (q.write a ⟨o, l, v⟩).mem a = some ⟨o, l, v⟩ ∧
      ∀ b, b ∉ addrs (xs ++ (a, v) :: ys) → (q.write a ⟨o, l, v⟩).mem b = none := by
  have hnot := h.not_mem ha
  have hnodup := h.nodup
  simp only [addrs, List.map_append, List.mem_append, not_or, List.nodup_append] at hnot hnodup
  refine ⟨hleft.update hnot.1 _, hright.update hnot.2 _, ?_, Function.update_self .., ?_⟩
  · exact nodup_middle.mpr ⟨hnodup.1, hnodup.2.1, fun b hx hy => hnodup.2.2 b hx b hy rfl, hnot.1,
      hnot.2⟩
  · intro b hb
    obtain ⟨hbx, hba, hby⟩ := not_mem_middle.mp hb
    refine (Function.update_of_ne hba _ _).trans (h.free b ?_)
    simp only [addrs, List.map_append, List.mem_append, not_or]
    exact ⟨hbx, hby⟩

/-- **Insertion in front.** -/
theorem Rep.insertHead (h : Rep q xs) (ha : q.mem a = none) (v : α) :
    ∃ q', q.insertHead a v = some q' ∧ Rep q' ((a, v) :: xs) := by
  obtain ⟨-, hright, hnodup, hitem, hfree⟩ := @write_spec _ q [] xs _ _ a h ha ⟨rfl, rfl⟩ h.seg v
  obtain ⟨hax, hxs⟩ := List.nodup_cons.mp hnodup
  obtain ⟨q₁, hprev, hright₁, -, hmem₁⟩ :=
    @setPrev_spec _ (q.write a ⟨q.first, .first, v⟩) _ _ _ hright hxs (.next a)
  refine ⟨{ q₁ with first := some a }, ?_, ?_, hnodup, ?_⟩
  · simp only [Tailq.insertHead, hprev, Option.bind_eq_bind, Option.bind_some, setLink]
  · exact ⟨rfl, q.first, (hmem₁ a hax).trans hitem, hright₁⟩
  · intro b hb
    exact (hmem₁ b fun hbx => hb (List.mem_cons_of_mem _ hbx)).trans (hfree b hb)

/-- **Insertion behind.** -/
theorem Rep.insertTail (h : Rep q xs) (ha : q.mem a = none) (v : α) :
    ∃ q', q.insertTail a v = some q' ∧ Rep q' (xs ++ [(a, v)]) := by
  have hrep : Rep q (xs ++ []) := (List.append_nil xs).symm ▸ h
  obtain ⟨hleft, hright, hnodup, hitem, hfree⟩ := write_spec hrep ha h.seg ⟨rfl, rfl⟩ v
  exact @splice _ (q.write a ⟨none, q.last, v⟩) _ _ _ _ _ _ hleft hright hnodup hitem hfree

/-- **Insertion in between.** -/
theorem Rep.insertBefore (h : Rep q (xs ++ (b, w) :: ys)) (ha : q.mem a = none) (v : α) :
    ∃ q', q.insertBefore b a v = some q' ∧ Rep q' (xs ++ (a, v) :: (b, w) :: ys) := by
  obtain ⟨l, o, hxs, hys⟩ := seg_append.mp h.seg
  have hys' := hys
  obtain ⟨rfl, n, hb, -⟩ := hys
  obtain ⟨hleft, hright, hnodup, hitem, hfree⟩ := write_spec h ha hxs hys' v
  obtain ⟨q', hq', hrep⟩ :=
    @splice _ (q.write a ⟨some b, l, v⟩) _ _ _ _ _ _ hleft hright hnodup hitem hfree
  refine ⟨q', ?_, hrep⟩
  simp only [Tailq.insertBefore, hb, Option.bind_eq_bind, Option.bind_some]
  exact hq'

/-- **Removal**, of an item that is then given back. -/
theorem Rep.remove (h : Rep q (xs ++ (a, v) :: ys)) :
    ∃ q', q.remove a = some q' ∧ Rep (q'.free a) (xs ++ ys) := by
  obtain ⟨hxs, hys, hdisj, hax, hay⟩ := nodup_middle.mp h.nodup
  obtain ⟨l, o, hleft, rfl, n, ha, hright⟩ := seg_append.mp h.seg
  obtain ⟨q₁, hprev, hright₁, hfirst₁, hmem₁⟩ := setPrev_spec hright hys l
  have hleft₁ : Seg q₁.mem .first q₁.first xs l (some a) :=
    hfirst₁ ▸ hleft.frame fun b hb => hmem₁ b (hdisj b hb)
  obtain ⟨q₂, hset, hleft₂, hlast₂, hmem₂⟩ := setLink_spec hleft₁ hxs n
  have hright₂ : Seg q₂.mem l n ys q₂.last none :=
    hlast₂ ▸ hright₁.frame fun b hb => hmem₂ b fun hbx => hdisj b hbx hb
  refine ⟨q₂, by simp only [Tailq.remove, ha, hprev, hset, Option.bind_eq_bind,
    Option.bind_some], ?_, ?_, ?_⟩
  · exact seg_append.mpr ⟨l, n, hleft₂.update hax _, hright₂.update hay _⟩
  · simp only [addrs, List.map_append, List.nodup_append]
    exact ⟨hxs, hys, fun b hbx c hcy hbc => hdisj b hbx (hbc ▸ hcy)⟩
  · intro b hb
    simp only [addrs, List.map_append, List.mem_append, not_or] at hb
    by_cases hba : b = a
    · subst hba
      exact Function.update_self ..
    · refine (Function.update_of_ne hba _ _).trans ?_
      rw [hmem₂ b hb.1, hmem₁ b hb.2, h.free b (not_mem_middle.mpr ⟨hb.1, hba, hb.2⟩)]

end Rep

end Tailq

end Verif
