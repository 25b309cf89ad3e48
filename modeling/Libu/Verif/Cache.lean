/-
# Bounded caches and what they evict

A cache holds at most `max` items, each with a key.  The abstract machine `Step` keeps, for every
item, its history: when it was inserted, when it was last inserted or hit, and how many hits it
had since.  A policy compares histories (`Policy.le`), and when a new key arrives at a full cache
the machine drops SOME item that is least for the policy; which one, among several, is open.

An implementation usually keeps its items in a list that is sorted by the policy and evicts from
one end.  `Policy.Sorted` is that order, and section 3 says which list operations keep it.
-/
import Libu.Verif.Cmp
import Mathlib.Data.List.TakeWhile

namespace Verif.Cache

open scoped List

/-! ## 1. Policies -/

/-- An item and its history. -/
structure Rec (ε : Type*) where
  item : ε
  ins : Nat
  last : Nat
  hits : Nat

/-- First in first out, least recently used, least frequently used, lowest priority. -/
inductive Policy (ε : Type*) where
  | fifo
  | lru
  | lfu
  | priority (cmp : ε → ε → Int)

section Policy

variable {ε : Type*}

/-- `r` may be evicted before `s`. -/
def Policy.le : Policy ε → Rec ε → Rec ε → Prop
  | .fifo, r, s => r.ins ≤ s.ins
  | .lru, r, s => r.last ≤ s.last
  | .lfu, r, s => r.hits ≤ s.hits
  | .priority cmp, r, s => cmp r.item s.item ≤ 0

/-- A priority is a total preorder. -/
def Policy.Lawful : Policy ε → Prop
  | .priority cmp => IsPreorder cmp
  | _ => True

theorem Policy.le_refl {pol : Policy ε} (h : pol.Lawful) (r : Rec ε) : pol.le r r := by
  cases pol with
  | fifo => exact Nat.le_refl _
  | lru => exact Nat.le_refl _
  | lfu => exact Nat.le_refl _
  | priority cmp => exact (IsPreorder.refl h r.item).le

end Policy

/-! ## 2. The abstract machine -/

/-- The records of a cache, in no particular order, and the clock. -/
structure State (ε : Type*) where
  recs : List (Rec ε)
  now : Nat

/-- A call. -/
inductive Act (ε κ : Type*) where
  | put (x : ε)
  | get (k : κ)

/-- What a call does, with the item that is refused for, replaced, dropped or found. -/
inductive Outcome (ε : Type*) where
  | refused (old : ε)
  | replaced (old : ε)
  | added
  | evicted (old : ε)
  | hit (x : ε)
  | miss

section Step

variable {ε κ : Type*}

/-- The history of an item that is inserted now. -/
def Rec.new (x : ε) (now : Nat) : Rec ε := ⟨x, now, now, 0⟩

/-- The history of an item that is hit now. -/
def Rec.hit (r : Rec ε) (now : Nat) : Rec ε := { r with last := now, hits := r.hits + 1 }

/-- Two policies do not look at hits. -/
theorem Policy.le_hit {pol : Policy ε} (hlru : pol ≠ .lru) (hlfu : pol ≠ .lfu) (r s : Rec ε)
    (now : Nat) : (pol.le s (r.hit now) ↔ pol.le s r) ∧ (pol.le (r.hit now) s ↔ pol.le r s) := by
  cases pol with
  | fifo => exact ⟨Iff.rfl, Iff.rfl⟩
  | priority cmp => exact ⟨Iff.rfl, Iff.rfl⟩
  | lru => exact absurd rfl hlru
  | lfu => exact absurd rfl hlfu

/-- No record has the key. -/
def State.Absent (key : ε → κ) (s : State ε) (k : κ) : Prop := ∀ r ∈ s.recs, key r.item ≠ k

/-- **The abstract machine.**  A put of a key that is there is refused or replaces the item, as a
new insertion; a put of a new key into a full cache drops one least item; a hit is recorded. -/
inductive Step (pol : Policy ε) (max : Nat) (overwrite : Bool) (key : ε → κ) (s : State ε) :
    Act ε κ → Outcome ε → State ε → Prop
  | refused {s' : State ε} {x : ε} {r : Rec ε} (hr : r ∈ s.recs) (hk : key r.item = key x)
      (ho : overwrite = false) (p : s'.recs ~ s.recs) (ht : s'.now = s.now + 1) :
      Step pol max overwrite key s (.put x) (.refused r.item) s'
  | replaced {s' : State ε} {x : ε} {r : Rec ε} {rest : List (Rec ε)} (hr : s.recs ~ r :: rest)
      (hk : key r.item = key x) (ho : overwrite = true)
      (p : s'.recs ~ Rec.new x s.now :: rest) (ht : s'.now = s.now + 1) :
      Step pol max overwrite key s (.put x) (.replaced r.item) s'
  | added {s' : State ε} {x : ε} (hk : s.Absent key (key x)) (hlen : s.recs.length < max)
      (p : s'.recs ~ Rec.new x s.now :: s.recs) (ht : s'.now = s.now + 1) :
      Step pol max overwrite key s (.put x) .added s'
  | evicted {s' : State ε} {x : ε} {r : Rec ε} {rest : List (Rec ε)}
      (hk : s.Absent key (key x)) (hlen : max ≤ s.recs.length) (hr : s.recs ~ r :: rest)
      (hmin : ∀ t ∈ s.recs, pol.le r t) (p : s'.recs ~ Rec.new x s.now :: rest)
      (ht : s'.now = s.now + 1) :
      Step pol max overwrite key s (.put x) (.evicted r.item) s'
  | hit {s' : State ε} {k : κ} {r : Rec ε} {rest : List (Rec ε)} (hr : s.recs ~ r :: rest)
      (hk : key r.item = k) (p : s'.recs ~ r.hit s.now :: rest) (ht : s'.now = s.now + 1) :
      Step pol max overwrite key s (.get k) (.hit r.item) s'
  | miss {s' : State ε} {k : κ} (hk : s.Absent key k) (p : s'.recs ~ s.recs)
      (ht : s'.now = s.now + 1) : Step pol max overwrite key s (.get k) .miss s'

end Step

/-! ## 3. Sorted lists of records -/

section Sorted

variable {ε α : Type*}

/-- A list of records in the order of a policy: the least one is at the front for the least
frequently used, and at the back for the other policies. -/
def Policy.Sorted (pol : Policy ε) (l : List (Rec ε)) : Prop :=
  match pol with
  | .lfu => l.Pairwise pol.le
  | _ => l.Pairwise fun r s => pol.le s r

theorem Policy.sorted_lfu {l : List (Rec ε)} :
    (Policy.lfu : Policy ε).Sorted l ↔ l.Pairwise fun r s => r.hits ≤ s.hits := Iff.rfl

theorem Policy.sorted_of_ne {pol : Policy ε} (h : pol ≠ .lfu) {l : List (Rec ε)} :
    pol.Sorted l ↔ l.Pairwise fun r s => pol.le s r := by
  cases pol with
  | lfu => exact absurd rfl h
  | fifo => exact Iff.rfl
  | lru => exact Iff.rfl
  | priority cmp => exact Iff.rfl

theorem Policy.Sorted.sublist {pol : Policy ε} {l l' : List (Rec ε)} (h : pol.Sorted l)
    (hs : l'.Sublist l) : pol.Sorted l' := by
  cases pol <;> exact List.Pairwise.sublist hs h

/-- Insertion at the turning point of a test keeps a list sorted. -/
theorem pairwise_insert {R : α → α → Prop} {p : α → Bool} {x : α} {l : List α}
    (hl : l.Pairwise R) (hp : ∀ y ∈ l, p y = true → R y x) (hn : ∀ y ∈ l, p y = false → R x y)
    (htrans : ∀ y z, R x y → R y z → R x z) :
    (l.takeWhile p ++ x :: l.dropWhile p).Pairwise R := by
  have hsplit := hl
  rw [← List.takeWhile_append_dropWhile (p := p) (l := l)] at hsplit
  obtain ⟨htake, hdrop, hcross⟩ := List.pairwise_append.mp hsplit
  have hx : ∀ y ∈ l.dropWhile p, R x y := by
    cases hd : l.dropWhile p with
    | nil => intro y hy; cases hy
    | cons z rest =>
      have hz : p z = false := by
        have := List.head_dropWhile_not p (l := l) (by simp [hd])
        simpa [hd] using this
      have hzl : z ∈ l := (List.dropWhile_sublist p).subset (by rw [hd]; simp)
      have hxz := hn z hzl hz
      rw [hd] at hdrop
      intro y hy
      rcases List.mem_cons.mp hy with rfl | hy
      · exact hxz
      · exact htrans z y hxz ((List.pairwise_cons.mp hdrop).1 y hy)
  refine List.pairwise_append.mpr ⟨htake, List.pairwise_cons.mpr ⟨hx, hdrop⟩, ?_⟩
  intro y hy z hz
  rcases List.mem_cons.mp hz with rfl | hz
  · exact hp y ((List.takeWhile_sublist p).subset hy) (List.mem_takeWhile_imp hy)
  · exact hcross y hy z hz

end Sorted

end Verif.Cache
