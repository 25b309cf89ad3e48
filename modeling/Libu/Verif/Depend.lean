/-
# Jobs that depend on each other

What a scheduler of jobs is for.  A job may be looked at once all the jobs it depends on are
settled: it is started if they all went well, and skipped otherwise.  A started job is busy until it
finishes.

* §1 is this as a machine, for any order of jobs.
* §2: once all jobs are settled, every job was started exactly once, behind its dependencies, or
  skipped (`complete_of_steps`).
* §3: where no job depends on itself, some job of any choice depends on no other of it
  (`Acyclic.exists_last`).
-/
import Mathlib.Data.Fintype.Card
import Mathlib.Order.WellFounded
import Libu.Verif.Steps

namespace Verif

variable {ι σ : Type*}

/-! ## 1. The machine -/

/-- What can happen to a job. -/
inductive JobEvent (ι σ : Type*)
  | skip (i : ι)
  | start (i : ι)
  | finish (i : ι) (w : σ)

/-- What is known of the jobs: which of them were looked at, which are busy, and the verdict on
each. -/
structure Jobs (ι σ : Type*) where
  seen : ι → Prop
  busy : ι → Prop
  verdict : ι → σ

/-- The verdict on a job is final. -/
def Jobs.Settled (a : Jobs ι σ) (i : ι) : Prop := a.seen i ∧ ¬ a.busy i

section Machine

variable (deps : ι → List ι) (ok skipped : σ)

/-- Everything but the job `i` has the verdict it had. -/
def Jobs.SameBut (a b : Jobs ι σ) (i : ι) : Prop := ∀ k, k ≠ i → b.verdict k = a.verdict k

/-- One event: a job that was not looked at is skipped, or started, behind the jobs it depends on,
and one that is busy finishes. -/
def JobStep (a : Jobs ι σ) : JobEvent ι σ → Jobs ι σ → Prop
  | .skip i, b => ¬ a.seen i ∧ ¬ a.busy i ∧ (∃ j ∈ deps i, a.Settled j ∧ a.verdict j ≠ ok) ∧
      (∀ k, b.seen k ↔ k = i ∨ a.seen k) ∧ (∀ k, b.busy k ↔ a.busy k) ∧ b.verdict i = skipped ∧
      a.SameBut b i
  | .start i, b => ¬ a.seen i ∧ (∀ j ∈ deps i, a.Settled j ∧ a.verdict j = ok) ∧
      (∀ k, b.seen k ↔ k = i ∨ a.seen k) ∧ (∀ k, b.busy k ↔ k = i ∨ a.busy k) ∧ a.SameBut b i
  | .finish i w, b => a.busy i ∧ (∀ k, b.seen k ↔ a.seen k) ∧
      (∀ k, b.busy k ↔ k ≠ i ∧ a.busy k) ∧ b.verdict i = w ∧ a.SameBut b i

/-- The job was started once in `log`, after its dependencies had gone well, and has finished with
the verdict `w` unless it is busy. -/
def StartedOnce (log : List (JobEvent ι σ)) (i : ι) (busy : Prop) (w : σ) : Prop :=
  ∃ l₁ l₂, log = l₁ ++ .start i :: l₂ ∧ .start i ∉ l₁ ∧ .start i ∉ l₂ ∧
    (∀ j ∈ deps i, .finish j ok ∈ l₁) ∧ (busy ∨ .finish i w ∈ l₂)

/-- **The jobs are done.**  Every job whose dependencies all went well was started exactly once,
after they had finished, and its verdict is what it finished with; every other job was not started
and its verdict is `skipped`. -/
structure Complete (jobs : ι → Prop) (log : List (JobEvent ι σ)) (verdict : ι → σ) : Prop where
  run : ∀ i, jobs i → (∀ j ∈ deps i, verdict j = ok) → StartedOnce deps ok log i False (verdict i)
  skip : ∀ i, jobs i → (∃ j ∈ deps i, verdict j ≠ ok) → .start i ∉ log ∧ verdict i = skipped

end Machine

/-! ## 2. Its runs -/

section Runs

variable {deps : ι → List ι} {ok skipped : σ} {a b : Jobs ι σ} {log : List (JobEvent ι σ)} {i : ι}

/-- What the events so far say of a job. -/
structure Recorded (deps : ι → List ι) (ok skipped : σ) (log : List (JobEvent ι σ)) (a : Jobs ι σ) :
    Prop where
  seen : ∀ i, a.seen i → .start i ∈ log ∨ .skip i ∈ log
  busy : ∀ i, a.busy i → .start i ∈ log
  start : ∀ i, .start i ∈ log → a.seen i ∧ StartedOnce deps ok log i (a.busy i) (a.verdict i) ∧
    ∀ j ∈ deps i, a.Settled j ∧ a.verdict j = ok
  skip : ∀ i, .skip i ∈ log → a.seen i ∧ .start i ∉ log ∧ ¬ a.busy i ∧ a.verdict i = skipped ∧
    ∃ j ∈ deps i, a.Settled j ∧ a.verdict j ≠ ok

theorem StartedOnce.append {busy busy' : Prop} {w w' : σ} {e : JobEvent ι σ}
    (h : StartedOnce deps ok log i busy w) (he : e ≠ .start i)
    (hw : busy' ∨ (w' = w ∧ ¬ busy) ∨ e = .finish i w') :
    StartedOnce deps ok (log ++ [e]) i busy' w' := by
  obtain ⟨l₁, l₂, rfl, h₁, h₂, hdeps, hend⟩ := h
  refine ⟨l₁, l₂ ++ [e], by simp, h₁, ?_, hdeps, ?_⟩
  · rw [List.mem_append, List.mem_singleton, not_or]
    exact ⟨h₂, he.symm⟩
  · rcases hw with hbusy | ⟨rfl, hbusy⟩ | rfl
    · exact .inl hbusy
    · exact .inr (List.mem_append_left _ (hend.resolve_left hbusy))
    · exact .inr (List.mem_append_right _ List.mem_cons_self)

/-- A settled job is not started, skipped or finished any more. -/
theorem JobStep.settled {e : JobEvent ι σ} (h : JobStep deps ok skipped a e b) (hi : a.Settled i) :
    b.Settled i ∧ b.verdict i = a.verdict i := by
  obtain ⟨hseen, hbusy⟩ := hi
  cases e with
  | skip k =>
    obtain ⟨hk, -, -, hs, hb, -, hsame⟩ := h
    have hne : i ≠ k := fun heq => hk (heq ▸ hseen)
    exact ⟨⟨(hs i).mpr (.inr hseen), fun hbi => hbusy ((hb i).mp hbi)⟩, hsame i hne⟩
  | start k =>
    obtain ⟨hk, -, hs, hb, hsame⟩ := h
    have hne : i ≠ k := fun heq => hk (heq ▸ hseen)
    exact ⟨⟨(hs i).mpr (.inr hseen), fun hbi => ((hb i).mp hbi).elim hne hbusy⟩, hsame i hne⟩
  | finish k w =>
    obtain ⟨hk, hs, hb, -, hsame⟩ := h
    have hne : i ≠ k := fun heq => hbusy (heq ▸ hk)
    exact ⟨⟨(hs i).mpr hseen, fun hbi => hbusy ((hb i).mp hbi).2⟩, hsame i hne⟩

/-- The records of the jobs that an event is not about. -/
theorem Recorded.old {e : JobEvent ι σ} (h : Recorded deps ok skipped log a)
    (hstep : JobStep deps ok skipped a e b) (hseen : a.seen i → b.seen i)
    (hbusy : b.busy i ↔ a.busy i) (hverdict : b.verdict i = a.verdict i) (he : e ≠ .start i) :
    (.start i ∈ log → b.seen i ∧ StartedOnce deps ok (log ++ [e]) i (b.busy i) (b.verdict i) ∧
      ∀ j ∈ deps i, b.Settled j ∧ b.verdict j = ok) ∧
    (.skip i ∈ log → b.seen i ∧ .start i ∉ log ++ [e] ∧ ¬ b.busy i ∧ b.verdict i = skipped ∧
      ∃ j ∈ deps i, b.Settled j ∧ b.verdict j ≠ ok) := by
  constructor
  · intro hmem
    obtain ⟨hs, honce, hdeps⟩ := h.start i hmem
    refine ⟨hseen hs, ?_, fun j hj => ?_⟩
    · by_cases hb : a.busy i
      · exact honce.append he (.inl (hbusy.mpr hb))
      · exact honce.append he (.inr (.inl ⟨hverdict, hb⟩))
    · obtain ⟨hsettled, hok⟩ := hdeps j hj
      obtain ⟨hsettled', heq⟩ := hstep.settled hsettled
      exact ⟨hsettled', heq.trans hok⟩
  · intro hmem
    obtain ⟨hs, hnot, hb, hv, j, hj, hsettled, hne⟩ := h.skip i hmem
    obtain ⟨hsettled', heq⟩ := hstep.settled hsettled
    refine ⟨hseen hs, ?_, fun hb' => hb (hbusy.mp hb'), hverdict.trans hv, j, hj, hsettled', ?_⟩
    · rw [List.mem_append, List.mem_singleton, not_or]
      exact ⟨hnot, he.symm⟩
    · rwa [heq]

/-- **One event** keeps the records. -/
theorem Recorded.step {e : JobEvent ι σ} (hne : ok ≠ skipped) (h : Recorded deps ok skipped log a)
    (hstep : JobStep deps ok skipped a e b) : Recorded deps ok skipped (log ++ [e]) b := by
  cases e with
  | skip k =>
    obtain ⟨hk, hbk, ⟨j, hj, hsettled, hbad⟩, hs, hb, hv, hsame⟩ := id hstep
    have hnew : .start k ∉ log := fun hmem => hk (h.start k hmem).1
    have hold : ∀ i, i ≠ k → _ := fun i hik => h.old (i := i) hstep (fun hi => (hs i).mpr (.inr hi))
      (hb i) (hsame i hik) (fun heq => by cases heq)
    refine ⟨fun i hi => ?_, fun i hi => ?_, fun i hi => ?_, fun i hi => ?_⟩
    · rcases (hs i).mp hi with rfl | hi
      · exact .inr (by simp)
      · exact (h.seen i hi).imp (List.mem_append_left _) (List.mem_append_left _)
    · exact List.mem_append_left _ (h.busy i ((hb i).mp hi))
    · have hi' : .start i ∈ log := by simpa using hi
      have hik : i ≠ k := fun heq => hnew (heq ▸ hi')
      exact (hold i hik).1 hi'
    · by_cases hik : i = k
      · subst hik
        obtain ⟨hsettled', heq⟩ := hstep.settled hsettled
        refine ⟨(hs i).mpr (.inl rfl), by simpa using hnew, fun hbi => hbk ((hb i).mp hbi), hv, j,
          hj, hsettled', by rwa [heq]⟩
      · exact (hold i hik).2 (by simpa [hik] using hi)
  | start k =>
    obtain ⟨hk, hdeps, hs, hb, hsame⟩ := id hstep
    have hnew : .start k ∉ log := fun hmem => hk (h.start k hmem).1
    have hold : ∀ i, i ≠ k → _ := fun i hik => h.old (i := i) hstep (fun hi => (hs i).mpr (.inr hi))
      (by rw [hb i, or_iff_right hik]) (hsame i hik) (fun heq => hik (JobEvent.start.inj heq).symm)
    refine ⟨fun i hi => ?_, fun i hi => ?_, fun i hi => ?_, fun i hi => ?_⟩
    · rcases (hs i).mp hi with rfl | hi
      · exact .inl (by simp)
      · exact (h.seen i hi).imp (List.mem_append_left _) (List.mem_append_left _)
    · rcases (hb i).mp hi with rfl | hi
      · simp
      · exact List.mem_append_left _ (h.busy i hi)
    · by_cases hik : i = k
      · subst hik
        refine ⟨(hs i).mpr (.inl rfl), ⟨log, [], rfl, hnew, List.not_mem_nil, fun j hj => ?_,
          .inl ((hb i).mpr (.inl rfl))⟩, fun j hj => ?_⟩
        · obtain ⟨⟨hsj, hbj⟩, hok⟩ := hdeps j hj
          rcases h.seen j hsj with hstart | hskip
          · obtain ⟨-, ⟨l₁, l₂, rfl, -, -, -, hend⟩, -⟩ := h.start j hstart
            rw [← hok]
            exact List.mem_append_right _ (List.mem_cons_of_mem _ (hend.resolve_left hbj))
          · exact absurd (hok.symm.trans (h.skip j hskip).2.2.2.1) hne
        · obtain ⟨hsettled, hok⟩ := hdeps j hj
          obtain ⟨hsettled', heq⟩ := hstep.settled hsettled
          exact ⟨hsettled', heq.trans hok⟩
      · exact (hold i hik).1 (by simpa [hik] using hi)
    · have hi' : .skip i ∈ log := by simpa using hi
      have hik : i ≠ k := fun heq => hk (heq ▸ (h.skip i hi').1)
      exact (hold i hik).2 hi'
  | finish k w =>
    obtain ⟨hk, hs, hb, hv, hsame⟩ := id hstep
    have hold : ∀ i, i ≠ k → _ := fun i hik => h.old (i := i) hstep (fun hi => (hs i).mpr hi)
      (by rw [hb i, and_iff_right hik]) (hsame i hik) (fun heq => by cases heq)
    refine ⟨fun i hi => ?_, fun i hi => ?_, fun i hi => ?_, fun i hi => ?_⟩
    · exact (h.seen i ((hs i).mp hi)).imp (List.mem_append_left _) (List.mem_append_left _)
    · exact List.mem_append_left _ (h.busy i ((hb i).mp hi).2)
    · have hi' : .start i ∈ log := by simpa using hi
      by_cases hik : i = k
      · subst hik
        obtain ⟨hseen, honce, hdeps⟩ := h.start i hi'
        refine ⟨(hs i).mpr hseen, honce.append (fun heq => by cases heq) (.inr (.inr (hv ▸ rfl))),
          fun j hj => ?_⟩
        obtain ⟨hsettled, hok⟩ := hdeps j hj
        obtain ⟨hsettled', heq⟩ := hstep.settled hsettled
        exact ⟨hsettled', heq.trans hok⟩
      · exact (hold i hik).1 hi'
    · have hi' : .skip i ∈ log := by simpa using hi
      have hik : i ≠ k := fun heq => (h.skip i hi').2.2.1 (heq ▸ hk)
      exact (hold i hik).2 hi'

/-- **A run that settles all jobs completes them.** -/
theorem complete_of_steps {jobs : ι → Prop} (hne : ok ≠ skipped) (hseen : ∀ i, ¬ a.seen i)
    (hbusy : ∀ i, ¬ a.busy i) (h : Steps (JobStep deps ok skipped) a log b)
    (hsettled : ∀ i, jobs i → b.Settled i) : Complete deps ok skipped jobs log b.verdict := by
  have hinit : Recorded deps ok skipped [] a := by
    refine ⟨fun i hi => absurd hi (hseen i), fun i hi => absurd hi (hbusy i), fun i hi => ?_,
      fun i hi => ?_⟩
    · exact absurd hi List.not_mem_nil
    · exact absurd hi List.not_mem_nil
  have hrec : Recorded deps ok skipped log b :=
    h.invariant hinit fun es s e s' _ hI hstep => hI.step hne hstep
  constructor
  · intro i hi hdeps
    obtain ⟨hs, hb⟩ := hsettled i hi
    rcases hrec.seen i hs with hstart | hskip
    · obtain ⟨-, ⟨l₁, l₂, hlog, h₁, h₂, hfin, hend⟩, -⟩ := hrec.start i hstart
      exact ⟨l₁, l₂, hlog, h₁, h₂, hfin, .inr (hend.resolve_left hb)⟩
    · obtain ⟨-, -, -, -, j, hj, -, hbad⟩ := hrec.skip i hskip
      exact absurd (hdeps j hj) hbad
  · rintro i hi ⟨j, hj, hbad⟩
    obtain ⟨hs, -⟩ := hsettled i hi
    rcases hrec.seen i hs with hstart | hskip
    · exact absurd ((hrec.start i hstart).2.2 j hj).2 hbad
    · obtain ⟨-, hnot, -, hv, -⟩ := hrec.skip i hskip
      exact ⟨hnot, hv⟩

end Runs

/-! ## 3. Cycles -/

section Cycles

open Relation

variable {needs : ι → ι → Prop}

/-- No job depends on itself, however indirectly. -/
def Acyclic (needs : ι → ι → Prop) : Prop := ∀ i, ¬ TransGen needs i i

/-- Where a rank goes down along the dependencies there is no cycle. -/
theorem acyclic_of_rank (rank : ι → ℕ) (hrank : ∀ i j, needs i j → rank j < rank i) :
    Acyclic needs := by
  have hlt : ∀ {i j}, TransGen needs i j → rank j < rank i := by
    intro i j h
    induction h with
    | single h => exact hrank _ _ h
    | tail _ h ih => exact (hrank _ _ h).trans ih
  intro i h
  exact lt_irrefl _ (hlt h)

/-- **Among finitely many jobs without a cycle some job of any choice needs no other of it**:
otherwise one could go on from need to need without an end. -/
theorem Acyclic.exists_last [Finite ι] (hacyc : Acyclic needs) {P : ι → Prop} (hP : ∃ i, P i) :
    ∃ i, P i ∧ ∀ j, needs i j → ¬ P j := by
  let r : ι → ι → Prop := fun j i => TransGen needs i j
  have : IsTrans ι r := ⟨fun _ _ _ h h' => h'.trans h⟩
  have : Std.Irrefl r := ⟨hacyc⟩
  obtain ⟨i, hi, hmin⟩ := (Finite.wellFounded_of_trans_of_irrefl r).has_min {i | P i} hP
  exact ⟨i, hi, fun j hij hj => hmin j hj (.single hij)⟩

end Cycles

end Verif
