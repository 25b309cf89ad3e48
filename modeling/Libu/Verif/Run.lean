/-
# Runs of a partial deterministic machine

A machine is a step function `σ → ω → Option (ρ × σ)`: in a state, an operation either has a
result and a next state, or it has no defined behaviour (`none`).  Two readings of a run over a
list of operations are used by the developments built on this file.

* `Always step P s ops`: every step of the run is defined, and its state, operation, result and
  next state satisfy `P`.
* `Guarded step C s ops`: every state the run reaches meets the precondition `C` of the
  operation that is executed there.

The second speaks only of states BEFORE steps, the first of what the steps do.  `always_iff_guarded`
turns a one-step characterisation (under an invariant) into one for whole runs: the run goes
right at every step if and only if every step starts where it is allowed to.
-/
import Mathlib.Data.List.Basic

namespace Verif

variable {σ ω ρ : Type*}

/-! ## 1. Runs -/

/-- Every step of the run is defined and satisfies `P`. -/
def Always (step : σ → ω → Option (ρ × σ)) (P : σ → ω → ρ → σ → Prop) : σ → List ω → Prop
  | _, [] => True
  | s, op :: ops => ∃ r s', step s op = some (r, s') ∧ P s op r s' ∧ Always step P s' ops

/-- Every operation of the run starts in a state that meets its precondition. -/
def Guarded (step : σ → ω → Option (ρ × σ)) (C : σ → ω → Prop) : σ → List ω → Prop
  | _, [] => True
  | s, op :: ops => C s op ∧ ∀ r s', step s op = some (r, s') → Guarded step C s' ops

/-- The results and the last state of a run, when all its steps are defined. -/
def run (step : σ → ω → Option (ρ × σ)) : σ → List ω → Option (List ρ × σ)
  | s, [] => some ([], s)
  | s, op :: ops => do
    let (r, s') ← step s op
    let (rs, s'') ← run step s' ops
    return (r :: rs, s'')

section Basic

variable {step : σ → ω → Option (ρ × σ)} {P Q : σ → ω → ρ → σ → Prop} {C E : σ → ω → Prop}

@[simp] theorem always_nil (s : σ) : Always step P s [] := trivial

@[simp] theorem guarded_nil (s : σ) : Guarded step C s [] := trivial

/-- A precondition that always holds guards every run. -/
theorem guarded_of_forall (h : ∀ s op, C s op) : ∀ (ops : List ω) (s : σ), Guarded step C s ops
  | [], _ => trivial
  | _ :: ops, s => ⟨h s _, fun _ s' _ => guarded_of_forall h ops s'⟩

theorem Guarded.and : ∀ {ops : List ω} {s : σ}, Guarded step C s ops → Guarded step E s ops →
    Guarded step (fun s op => C s op ∧ E s op) s ops
  | [], _, _, _ => trivial
  | _ :: _, _, ⟨hC, hCrest⟩, ⟨hE, hErest⟩ =>
    ⟨⟨hC, hE⟩, fun r s' hst => (hCrest r s' hst).and (hErest r s' hst)⟩

/-- A run that goes right at every step has an outcome. -/
theorem Always.exists_run :
    ∀ {ops : List ω} {s : σ}, Always step P s ops → ∃ rs s', run step s ops = some (rs, s')
  | [], s, _ => ⟨[], s, rfl⟩
  | _ :: _, _, ⟨r, _, hst, _, hrest⟩ => by
    obtain ⟨rs, s', hrun⟩ := Always.exists_run hrest
    exact ⟨r :: rs, s', by simp [run, hst, hrun]⟩

/-- Every step of a run that has an outcome is defined. -/
theorem guarded_of_run : ∀ {ops : List ω} {s : σ} {rs : List ρ} {s₁ : σ},
    run step s ops = some (rs, s₁) → Guarded step (fun s op => (step s op).isSome) s ops
  | [], _, _, _, _ => trivial
  | op :: ops, s, rs, s₁, hrun => by
    simp only [run, Option.bind_eq_bind, Option.bind_eq_some_iff, Prod.exists] at hrun
    obtain ⟨r, s₂, hst, rs₁, s₃, hrun₁, -⟩ := hrun
    refine ⟨by simp [hst], fun r' s' hst' => ?_⟩
    obtain ⟨rfl, rfl⟩ : r = r' ∧ s₂ = s' := by simpa [hst] using hst'
    exact guarded_of_run hrun₁

/-- A decidable guard can be checked along a run. -/
instance Guarded.decidable [∀ s op, Decidable (C s op)] :
    ∀ (s : σ) (ops : List ω), Decidable (Guarded step C s ops)
  | _, [] => isTrue trivial
  | s, op :: ops =>
    match hst : step s op with
    | none => decidable_of_iff (C s op) (by simp [Guarded, hst])
    | some (r, s') =>
      have : Decidable (Guarded step C s' ops) := Guarded.decidable s' ops
      decidable_of_iff (C s op ∧ Guarded step C s' ops) (by simp [Guarded, hst])

/-- What holds at every step of a run holds at its last one. -/
theorem Always.last (op : ω) {s₁ : σ} : ∀ (ops : List ω) {s : σ} {rs : List ρ},
    Always step P s (ops ++ [op]) → run step s ops = some (rs, s₁) →
    ∃ r s₂, step s₁ op = some (r, s₂) ∧ P s₁ op r s₂
  | [], s, rs, h, hrun => by
    obtain ⟨-, rfl⟩ : [] = rs ∧ s = s₁ := by simpa [run] using hrun
    obtain ⟨r, s₂, hst, hP, -⟩ := h
    exact ⟨r, s₂, hst, hP⟩
  | op' :: ops, s, rs, ⟨r', s', hst, _, hrest⟩, hrun => by
    simp only [run, hst, Option.bind_eq_bind, Option.bind_some, Option.bind_eq_some_iff,
      Prod.exists] at hrun
    obtain ⟨rs₁, s₂, hrun₁, heq⟩ := hrun
    obtain ⟨-, rfl⟩ : r' :: rs₁ = rs ∧ s₂ = s₁ := by simpa using heq
    exact Always.last op ops hrest hrun₁

/-- A run that goes right at every step has an outcome, and its last step goes right. -/
theorem Always.run_last (op : ω) : ∀ (ops : List ω) {s : σ}, Always step P s (ops ++ [op]) →
    ∃ rs s', run step s (ops ++ [op]) = some (rs, s') ∧ ∃ s₁ r, P s₁ op r s'
  | [], s, ⟨r, s', hst, hP, _⟩ => ⟨[r], s', by simp [run, hst], s, r, hP⟩
  | _ :: ops, s, ⟨r, s', hst, _, hrest⟩ => by
    obtain ⟨rs, s'', hrun, hlast⟩ := Always.run_last op ops hrest
    exact ⟨r :: rs, s'', by simp [run, hst, hrun], hlast⟩

end Basic

/-! ## 2. From one step to whole runs -/

section Induction

variable {step : σ → ω → Option (ρ × σ)} {P : σ → ω → ρ → σ → Prop} {C : σ → ω → Prop}

/-- **Step to run.**  If, under the invariant, an operation whose precondition holds is defined,
satisfies `P` and keeps the invariant, then a guarded run satisfies `P` at every step. -/
theorem always_of_guarded (Inv : σ → Prop)
    (hstep : ∀ s op, Inv s → C s op → ∃ r s', step s op = some (r, s') ∧ P s op r s' ∧ Inv s') :
    ∀ {ops : List ω} {s : σ}, Inv s → Guarded step C s ops → Always step P s ops
  | [], _, _, _ => trivial
  | op :: _, s, hInv, ⟨hC, hrest⟩ => by
    obtain ⟨r, s', hst, hP, hInv'⟩ := hstep s op hInv hC
    exact ⟨r, s', hst, hP, always_of_guarded Inv hstep hInv' (hrest r s' hst)⟩

/-- **Step to run, with the exact precondition.**  `E` is what the environment promises at every
step (and is assumed throughout); under it and the invariant, the operation goes right exactly
when `C` holds.  Then the whole run goes right exactly when `C` holds at every step. -/
theorem always_iff_guarded (E : σ → ω → Prop) (Inv : σ → Prop)
    (hstep : ∀ s op, Inv s → E s op →
      ((∃ r s', step s op = some (r, s') ∧ P s op r s') ↔ C s op))
    (hinv : ∀ s op r s', Inv s → E s op → step s op = some (r, s') → P s op r s' → Inv s') :
    ∀ {ops : List ω} {s : σ}, Inv s → Guarded step E s ops →
      (Always step P s ops ↔ Guarded step C s ops)
  | [], _, _, _ => by simp
  | op :: ops, s, hInv, ⟨hE, hErest⟩ => by
    constructor
    · rintro ⟨r, s', hst, hP, hrest⟩
      refine ⟨(hstep s op hInv hE).mp ⟨r, s', hst, hP⟩, fun r₂ s₂ hst₂ => ?_⟩
      obtain ⟨rfl, rfl⟩ : r = r₂ ∧ s' = s₂ := by simpa [hst] using hst₂
      exact (always_iff_guarded E Inv hstep hinv (hinv s op r s' hInv hE hst hP)
        (hErest r s' hst)).mp hrest
    · rintro ⟨hC, hrest⟩
      obtain ⟨r, s', hst, hP⟩ := (hstep s op hInv hE).mpr hC
      exact ⟨r, s', hst, hP, (always_iff_guarded E Inv hstep hinv
        (hinv s op r s' hInv hE hst hP) (hErest r s' hst)).mpr (hrest r s' hst)⟩

/-- The last state of a guarded run satisfies whatever holds initially and is kept by every step
that starts where it may. -/
theorem Guarded.run_induct {I : σ → Prop}
    (hkeep : ∀ s op r s', I s → C s op → step s op = some (r, s') → I s') :
    ∀ {ops : List ω} {s : σ} {rs : List ρ} {s' : σ},
      Guarded step C s ops → I s → run step s ops = some (rs, s') → I s'
  | [], s, rs, s', _, h, hrun => by
    obtain ⟨-, rfl⟩ : [] = rs ∧ s = s' := by simpa [run] using hrun
    exact h
  | op :: ops, s, rs, s', ⟨hC, hrest⟩, h, hrun => by
    simp only [run, Option.bind_eq_bind, Option.bind_eq_some_iff, Prod.exists] at hrun
    obtain ⟨r, s₁, hst, rs₁, s₂, hrun₁, heq⟩ := hrun
    obtain ⟨-, rfl⟩ : r :: rs₁ = rs ∧ s₂ = s' := by simpa using heq
    exact Guarded.run_induct hkeep (hrest r s₁ hst) (hkeep s op r s₁ h hC hst) hrun₁

end Induction

/-! ## 3. Following an abstract machine -/

section Tracks

variable {α : Type*}

/-- The run is defined and follows a run of the abstract machine `A` from the state `a`, staying in
the relation `R` with it. -/
def Tracks (step : σ → ω → Option (ρ × σ)) (A : α → ω → ρ → α → Prop) (R : σ → α → Prop) :
    σ → α → List ω → Prop
  | _, _, [] => True
  | s, a, op :: ops =>
    ∃ r s' a', step s op = some (r, s') ∧ A a op r a' ∧ R s' a' ∧ Tracks step A R s' a' ops

variable {step : σ → ω → Option (ρ × σ)} {A : α → ω → ρ → α → Prop} {R : σ → α → Prop}
  {C : σ → ω → Prop}

theorem tracks_of_guarded (Inv : σ → α → Prop)
    (hstep : ∀ s a op, Inv s a → C s op →
      ∃ r s' a', step s op = some (r, s') ∧ A a op r a' ∧ R s' a' ∧ Inv s' a') :
    ∀ {ops : List ω} {s : σ} {a : α}, Inv s a → Guarded step C s ops → Tracks step A R s a ops
  | [], _, _, _, _ => trivial
  | op :: _, s, a, hInv, ⟨hC, hrest⟩ => by
    obtain ⟨r, s', a', hst, hA, hR, hInv'⟩ := hstep s a op hInv hC
    exact ⟨r, s', a', hst, hA, hR, tracks_of_guarded Inv hstep hInv' (hrest r s' hst)⟩

/-- `E` is what the environment promises at every step.  A step that starts where it may not has no
result that the abstract machine allows, in any of its states. -/
theorem guarded_of_tracks (E : σ → ω → Prop) (Inv : σ → α → Prop)
    (hstep : ∀ s a op, Inv s a → E s op → C s op →
      ∃ r s' a', step s op = some (r, s') ∧ A a op r a' ∧ R s' a' ∧ Inv s' a')
    (hbad : ∀ s b op r s', Inv s b → E s op → ¬ C s op → step s op = some (r, s') →
      ∀ a a', ¬ A a op r a') :
    ∀ {ops : List ω} {s : σ} {a b : α}, Inv s b → Guarded step E s ops → Tracks step A R s a ops →
      Guarded step C s ops
  | [], _, _, _, _, _, _ => trivial
  | op :: ops, s, a, b, hInv, ⟨hE, hErest⟩, ⟨r, s', a', hst, hA, _, hrest⟩ => by
    have hC : C s op := by
      by_contra hC
      exact hbad s b op r s' hInv hE hC hst a a' hA
    obtain ⟨r₁, s₁, b', hst₁, -, -, hInv'⟩ := hstep s b op hInv hE hC
    obtain ⟨rfl, rfl⟩ : r = r₁ ∧ s' = s₁ := by simpa [hst] using hst₁
    refine ⟨hC, fun r₂ s₂ hst₂ => ?_⟩
    obtain ⟨rfl, rfl⟩ : r = r₂ ∧ s' = s₂ := by simpa [hst] using hst₂
    exact guarded_of_tracks E Inv hstep hbad hInv' (hErest r s' hst) hrest

/-- **Simulation by a deterministic machine, with the exact precondition.**  `E` is what the
environment promises at every step.  Where it does and `C` does not hold, a step may be defined, but
it leaves the relation. -/
theorem tracks_iff_guarded_of_promised (E : σ → ω → Prop) (Inv : σ → α → Prop)
    (hdet : ∀ a op r a₁ a₂, A a op r a₁ → A a op r a₂ → a₁ = a₂)
    (hstep : ∀ s a op, Inv s a → E s op → C s op →
      ∃ r s' a', step s op = some (r, s') ∧ A a op r a' ∧ R s' a' ∧ Inv s' a')
    (hbad : ∀ s a op r s' a', Inv s a → E s op → ¬ C s op → step s op = some (r, s') →
      A a op r a' → ¬ R s' a') :
    ∀ {ops : List ω} {s : σ} {a : α}, Inv s a → Guarded step E s ops →
      (Tracks step A R s a ops ↔ Guarded step C s ops)
  | [], _, _, _, _ => Iff.rfl
  | op :: ops, s, a, hInv, ⟨hE, hErest⟩ => by
    constructor
    · rintro ⟨r, s', a', hst, hA, hR, hrest⟩
      have hC : C s op := by
        by_contra hC
        exact hbad s a op r s' a' hInv hE hC hst hA hR
      obtain ⟨r₁, s₁, a₁, hst₁, hA₁, -, hInv'⟩ := hstep s a op hInv hE hC
      obtain ⟨rfl, rfl⟩ : r = r₁ ∧ s' = s₁ := by simpa [hst] using hst₁
      obtain rfl := hdet a op r a' a₁ hA hA₁
      refine ⟨hC, fun r₂ s₂ hst₂ => ?_⟩
      obtain ⟨rfl, rfl⟩ : r = r₂ ∧ s' = s₂ := by simpa [hst] using hst₂
      exact (tracks_iff_guarded_of_promised E Inv hdet hstep hbad hInv' (hErest r s' hst)).mp hrest
    · rintro ⟨hC, hrest⟩
      obtain ⟨r, s', a', hst, hA, hR, hInv'⟩ := hstep s a op hInv hE hC
      exact ⟨r, s', a', hst, hA, hR,
        (tracks_iff_guarded_of_promised E Inv hdet hstep hbad hInv' (hErest r s' hst)).mpr
          (hrest r s' hst)⟩

/-- The same, where the environment promises nothing. -/
theorem tracks_iff_guarded_of_det (Inv : σ → α → Prop)
    (hdet : ∀ a op r a₁ a₂, A a op r a₁ → A a op r a₂ → a₁ = a₂)
    (hstep : ∀ s a op, Inv s a → C s op →
      ∃ r s' a', step s op = some (r, s') ∧ A a op r a' ∧ R s' a' ∧ Inv s' a')
    (hbad : ∀ s a op r s' a', Inv s a → ¬ C s op → step s op = some (r, s') →
      A a op r a' → ¬ R s' a')
    {ops : List ω} {s : σ} {a : α} (hInv : Inv s a) :
    Tracks step A R s a ops ↔ Guarded step C s ops :=
  tracks_iff_guarded_of_promised (fun _ _ => True) Inv hdet
    (fun s a op h _ hC => hstep s a op h hC)
    (fun s a op r s' a' h _ hC => hbad s a op r s' a' h hC) hInv
    (guarded_of_forall (fun _ _ => trivial) ops s)

end Tracks

end Verif
