/-
# Runs of a machine with choices

A machine is a relation `step : σ → ε → σ → Prop`: in a state, an event may lead to a next state.
Which event comes next is not up to the machine.  `Steps step s es s'` is a run over the events
`es`.

* §1: invariants of runs, which may speak of the events so far, and runs that follow those of an
  abstract machine.
* §2: a machine halts if its runs are bounded.  It does when a measure goes down at every step, and
  does not when a run leads round a cycle.
-/
import Mathlib.Data.List.Basic

namespace Verif

variable {σ ε : Type*} {step : σ → ε → σ → Prop} {s s' s'' : σ} {e : ε} {es es' : List ε}

/-! ## 1. Runs -/

inductive Steps (step : σ → ε → σ → Prop) (s : σ) : List ε → σ → Prop
  | nil : Steps step s [] s
  | snoc {es : List ε} {s' s'' : σ} {e : ε} :
      Steps step s es s' → step s' e s'' → Steps step s (es ++ [e]) s''

theorem Steps.single (h : step s e s') : Steps step s [e] s' := .snoc .nil h

theorem Steps.trans (h : Steps step s es s') (h' : Steps step s' es' s'') :
    Steps step s (es ++ es') s'' := by
  induction h' with
  | nil => rwa [List.append_nil]
  | snoc _ hstep ih =>
    rw [← List.append_assoc]
    exact ih.snoc hstep

/-- What holds of no events and is kept by every step, holds of every run. -/
theorem Steps.invariant {I : List ε → σ → Prop} (hinit : I [] s)
    (hkeep : ∀ es s' e s'', Steps step s es s' → I es s' → step s' e s'' → I (es ++ [e]) s'')
    (h : Steps step s es s') : I es s' := by
  induction h with
  | nil => exact hinit
  | snoc hrun hstep ih => exact hkeep _ _ _ _ hrun ih hstep

/-- A run of one machine is a run of another that allows its steps. -/
theorem Steps.mono {step' : σ → ε → σ → Prop} (hstep : ∀ s e s', step s e s' → step' s e s')
    (h : Steps step s es s') : Steps step' s es s' := by
  induction h with
  | nil => exact .nil
  | snoc _ hs ih => exact ih.snoc (hstep _ _ _ hs)

/-- A run over events with a property. -/
theorem Steps.restrict {P : ε → Prop} (h : Steps step s es s') (hP : ∀ e ∈ es, P e) :
    Steps (fun s e s' => step s e s' ∧ P e) s es s' := by
  induction h with
  | nil => exact .nil
  | snoc _ hs ih =>
    rw [List.forall_mem_append] at hP
    exact (ih hP.1).snoc ⟨hs, hP.2 _ List.mem_cons_self⟩

/-- **Simulation.**  When every step, under an invariant, is a run of the abstract machine, every
run is one. -/
theorem Steps.simulate {α β : Type*} {abstract : α → β → α → Prop} (abs : σ → α) (acts : ε → List β)
    (I : σ → Prop) (hkeep : ∀ s e s', I s → step s e s' → I s')
    (hsim : ∀ s e s', I s → step s e s' → Steps abstract (abs s) (acts e) (abs s')) (hs : I s)
    (h : Steps step s es s') : Steps abstract (abs s) (es.flatMap acts) (abs s') := by
  suffices hrun : I s' ∧ Steps abstract (abs s) (es.flatMap acts) (abs s') from hrun.2
  induction h with
  | nil => exact ⟨hs, .nil⟩
  | snoc _ hstep ih =>
    obtain ⟨hI, hrun⟩ := ih
    refine ⟨hkeep _ _ _ hI hstep, ?_⟩
    rw [List.flatMap_append, List.flatMap_singleton]
    exact hrun.trans (hsim _ _ _ hI hstep)

/-- Some run leads from the one state to the other. -/
def Reaches (step : σ → ε → σ → Prop) (s s' : σ) : Prop := ∃ es, Steps step s es s'

theorem Reaches.refl (s : σ) : Reaches step s s := ⟨[], .nil⟩

theorem Reaches.tail (h : Reaches step s s') (hstep : step s' e s'') : Reaches step s s'' :=
  h.imp' (· ++ [e]) fun _ hrun => hrun.snoc hstep

/-! ## 2. Halting -/

/-- No run from the state is longer than some bound. -/
def Halts (step : σ → ε → σ → Prop) (s : σ) : Prop :=
  ∃ n, ∀ es s', Steps step s es s' → es.length ≤ n

/-- **A measure that goes down at every step bounds the runs.** -/
theorem halts_of_measure (I : σ → Prop) (m : σ → Nat)
    (hstep : ∀ s e s', I s → step s e s' → I s' ∧ m s' < m s) (hs : I s) : Halts step s := by
  refine ⟨m s, fun es s' hrun => ?_⟩
  suffices h : I s' ∧ es.length + m s' ≤ m s from Nat.le_trans (Nat.le_add_right _ _) h.2
  induction hrun with
  | nil => exact ⟨hs, by simp⟩
  | snoc _ hlast ih =>
    obtain ⟨hI, hlen⟩ := ih
    obtain ⟨hI', hlt⟩ := hstep _ _ _ hI hlast
    refine ⟨hI', ?_⟩
    rw [List.length_append, List.length_singleton]
    omega

/-- A machine that halts and is not stuck on the way gets done. -/
theorem Halts.exists_done {done : σ → Prop} (h : Halts step s)
    (hgoes : ∀ s', Reaches step s s' → ¬ done s' → ∃ e s'', step s' e s'') :
    ∃ s', Reaches step s s' ∧ done s' := by
  obtain ⟨n, hn⟩ := h
  by_contra hno
  have hlong : ∀ k, ∃ es s', es.length = k ∧ Steps step s es s' := by
    intro k
    induction k with
    | zero => exact ⟨[], s, rfl, .nil⟩
    | succ k ih =>
      obtain ⟨es, s', hlen, hrun⟩ := ih
      obtain ⟨e, s'', hstep⟩ := hgoes s' ⟨es, hrun⟩ fun hdone => hno ⟨s', ⟨es, hrun⟩, hdone⟩
      refine ⟨es ++ [e], s'', ?_, hrun.snoc hstep⟩
      rw [List.length_append, List.length_singleton, hlen]
  obtain ⟨es, s', hlen, hrun⟩ := hlong (n + 1)
  have hle := hn es s' hrun
  omega

/-- **A cycle makes the runs unbounded.** -/
theorem not_halts_of_cycle (P : σ → Prop)
    (hcycle : ∀ s, P s → ∃ es s', es ≠ [] ∧ Steps step s es s' ∧ P s') (hs : Reaches step s s')
    (hP : P s') : ¬ Halts step s := by
  rintro ⟨n, hn⟩
  have hpump : ∀ k, ∃ es s', k ≤ es.length ∧ Steps step s es s' ∧ P s' := by
    intro k
    induction k with
    | zero =>
      obtain ⟨es, hrun⟩ := hs
      exact ⟨es, s', Nat.zero_le _, hrun, hP⟩
    | succ k ih =>
      obtain ⟨es, s₁, hlen, hrun, hP₁⟩ := ih
      obtain ⟨es', s₂, hne, hround, hP₂⟩ := hcycle s₁ hP₁
      refine ⟨es ++ es', s₂, ?_, hrun.trans hround, hP₂⟩
      have hpos := List.length_pos_of_ne_nil hne
      rw [List.length_append]
      omega
  obtain ⟨es, s₁, hlen, hrun, -⟩ := hpump (n + 1)
  exact absurd (hn es s₁ hrun) (by omega)

end Verif
