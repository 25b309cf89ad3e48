/-
# Bounded queues

A first-in first-out queue of at most `cap` items: the purpose of every ring buffer.  A request
for more than `cap` items is refused as a whole; other requests are served as far as there is
room, or as far as there are items.

The bound is a field of the type, so no operation can break it.
-/
import Mathlib.Data.List.Basic

namespace Verif

/-- A queue of at most `cap` items, the oldest first. -/
@[ext]
structure Fifo (α : Type*) (cap : Nat) where
  items : List α
  le : items.length ≤ cap

namespace Fifo

variable {α : Type*} {cap : Nat}

/-- What an operation returns: a count, or -1 for a refusal, and the items handed out. -/
structure Res (α : Type*) where
  rc : Int
  data : List α

/-- The empty queue. -/
def nil : Fifo α cap := ⟨[], Nat.zero_le cap⟩

/-- The room left. -/
def avail (q : Fifo α cap) : Nat := cap - q.items.length

/-- Append as many of the items `bs` as fit. -/
def append (q : Fifo α cap) (bs : List α) : Fifo α cap :=
  ⟨q.items ++ bs.take q.avail, by
    have hle := q.le
    rw [List.length_append, List.length_take, avail]
    omega⟩

/-- Take the oldest `n` items off. -/
def drop (q : Fifo α cap) (n : Nat) : Fifo α cap :=
  ⟨q.items.drop n, by
    have hle := q.le
    rw [List.length_drop]
    omega⟩

@[simp] theorem append_items (q : Fifo α cap) (bs : List α) :
    (q.append bs).items = q.items ++ bs.take q.avail := rfl

@[simp] theorem drop_items (q : Fifo α cap) (n : Nat) : (q.drop n).items = q.items.drop n := rfl

/-- A write: refused above the capacity, otherwise it stores what fits. -/
def write (q : Fifo α cap) (bs : List α) : Res α × Fifo α cap :=
  if cap < bs.length then (⟨-1, []⟩, q)
  else (⟨(min q.avail bs.length : Nat), []⟩, q.append bs)

/-- A read: refused above the capacity, otherwise it hands out what there is. -/
def read (q : Fifo α cap) (n : Nat) : Res α × Fifo α cap :=
  if cap < n then (⟨-1, []⟩, q)
  else (⟨(min q.items.length n : Nat), q.items.take n⟩, q.drop n)

/-- An operation of a queue. -/
inductive Op (α : Type*) where
  | write (bs : List α)
  | read (n : Nat)
  | clear

/-- One operation. -/
def exec (q : Fifo α cap) : Op α → Res α × Fifo α cap
  | .write bs => q.write bs
  | .read n => q.read n
  | .clear => (⟨0, []⟩, nil)

end Fifo

end Verif
