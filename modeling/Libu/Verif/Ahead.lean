/-
# How far a walk can go

A walk in a graph that is not known to be acyclic.  What lies ahead of a node, in a finite set of
nodes, gets no more along an edge (`ahead_le`), and gets less along an edge that is on no cycle
(`ahead_lt`): so a walk that takes the edges of cycles only so often comes to an end.
-/
import Mathlib.Data.Finset.Card
import Mathlib.Logic.Relation

namespace Verif

open Relation

variable {α : Type*} {r : α → α → Prop} {s : Finset α} {a b : α}

open scoped Classical in
/-- The number of nodes in `s` that can be come to from `a`, with `a` itself. -/
noncomputable def ahead (r : α → α → Prop) (s : Finset α) (a : α) : Nat :=
  (s.filter (ReflTransGen r a)).card

theorem ahead_le (h : r a b) : ahead r s b ≤ ahead r s a := by
  classical
  refine Finset.card_le_card fun x hx => ?_
  rw [Finset.mem_filter] at hx ⊢
  exact ⟨hx.1, ReflTransGen.head h hx.2⟩

/-- **An edge that is on no cycle** leaves its first node behind. -/
theorem ahead_lt (ha : a ∈ s) (h : r a b) (hback : ¬ ReflTransGen r b a) :
    ahead r s b < ahead r s a := by
  classical
  refine Finset.card_lt_card (Finset.ssubset_iff_of_subset ?_ |>.mpr ⟨a, ?_, ?_⟩)
  · intro x hx
    rw [Finset.mem_filter] at hx ⊢
    exact ⟨hx.1, ReflTransGen.head h hx.2⟩
  · exact Finset.mem_filter.mpr ⟨ha, .refl⟩
  · exact fun hmem => hback (Finset.mem_filter.mp hmem).2

end Verif
