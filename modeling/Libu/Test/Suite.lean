/-
# Tests

A test has suites and a suite has test cases, each a list with a scheduler of its own.

A suite is run by the scheduler that runs objects one by one, and to run a suite is to run the
scheduler of its test cases to its end, which may be either of the two.  So the theorem on a test is
put together from those on the schedulers: a suite goes well or badly, but it comes to an end,
unless the scheduler of its test cases does not.

* §1: what the schedulers need of test cases and of suites.
* §2: when a test does its work (`test_completes_iff`).
-/
import Libu.Test.Schedule

namespace Libu.Test

open Verif

variable {maxParallel : UInt32} {sandboxed : Bool}

/-! ## 1. Kinds of objects -/

/-- Test cases that are not sandboxed are always ready. -/
theorem plainCase_sound : plainCase.Sound fun _ => True := by
  refine ⟨fun h i h' hsched => ?_, fun h i tc htc _ => ?_⟩
  · obtain ⟨tc, -, hrun⟩ := hsched
    split at hrun
    · obtain ⟨rc, rfl⟩ := hrun
      refine ⟨_, ?_, rfl⟩
      exact fun _ => ⟨rfl, rfl⟩
    · exact ⟨id, fun _ => ⟨rfl, rfl⟩, by rw [hrun, TO.update_id]⟩
  · cases hfunc : tc.body.func with
    | true => exact ⟨h.update i fun tc => { tc with status := success }, tc, htc, by
        rw [if_pos hfunc]
        exact ⟨success, rfl⟩⟩
    | false => exact ⟨h, tc, htc, by rw [if_neg (by rw [hfunc]; exact Bool.false_ne_true)]⟩

theorem Simple.uninterrupted {α : Type} {kind : Kind α} {s s' : Simple.State α}
    (hrun : Reaches (calm (Simple.Step kind)) s s') (hs : s.interrupted = false) :
    s'.interrupted = false := by
  obtain ⟨es, hrun⟩ := hrun
  induction hrun with
  | nil => exact hs
  | snoc _ hstep ih =>
    obtain ⟨hstep, hcalm⟩ := hstep
    cases hstep with
    | interrupt => cases hcalm
    | _ => exact ih

theorem Sandbox.uninterrupted {s s' : Sandbox.State}
    (hrun : Reaches (calm (Sandbox.Step maxParallel)) s s') (hs : s.interrupted = false) :
    s'.interrupted = false := by
  obtain ⟨es, hrun⟩ := hrun
  induction hrun with
  | nil => exact hs
  | @snoc _ s _ _ _ hstep ih =>
    have hsched : ∀ {s : Sandbox.State} (i : Nat), s.interrupted = false →
        (Sandbox.scheduled maxParallel s i).interrupted = false := by
      intro s i hs
      obtain ⟨m, heq | heq⟩ := Sandbox.scheduled_cases maxParallel s i <;> rw [heq] <;> exact hs
    obtain ⟨hstep, hcalm⟩ := hstep
    cases hstep with
    | interrupt => cases hcalm
    | noFunc _ _ => exact hsched _ ih
    | fork _ _ _ => exact hsched _ ih
    | forkFails _ _ => exact hsched _ ih
    | _ => exact ih

/-- The scheduler of the test cases of a suite does its work. -/
def CasesComplete (sandboxed : Bool) (maxParallel : UInt32) (cases : Suite) : Prop :=
  if sandboxed then Completes (calm (Sandbox.Step maxParallel)) (Sandbox.init cases)
    (·.pc = .done false) (·.h) cases
  else Completes (calm (Simple.Step plainCase)) (Simple.init cases) (·.pc = .done) (·.h) cases

/-- A suite is ready when its test cases can be scheduled to their end. -/
theorem suite_sound : (suite sandboxed maxParallel).Sound
    (CasesComplete sandboxed maxParallel) := by
  refine ⟨fun h i h' hsched => ?_, fun h i ts hts hready => ?_⟩
  · obtain ⟨ts, cases, -, -, rfl⟩ := hsched
    refine ⟨_, ?_, rfl⟩
    exact fun _ => ⟨rfl, rfl⟩
  · cases sandboxed with
    | true =>
      have hc : Completes (calm (Sandbox.Step maxParallel)) (Sandbox.init ts.body)
        (·.pc = .done false) (·.h) ts.body := hready
      obtain ⟨s, hreach, hdone⟩ := hc.halts.exists_done hc.goes
      have hint := Sandbox.uninterrupted hreach rfl
      obtain ⟨es, hrun⟩ := hreach
      exact ⟨_, ts, s.h, hts, ⟨es, s, false, hrun.mono fun _ _ _ hstep => hstep.1,
        hdone, hint, rfl⟩, rfl⟩
    | false =>
      have hc : Completes (calm (Simple.Step plainCase)) (Simple.init ts.body)
        (·.pc = .done) (·.h) ts.body := hready
      obtain ⟨s, hreach, hdone⟩ := hc.halts.exists_done hc.goes
      have hint := Simple.uninterrupted hreach rfl
      obtain ⟨es, hrun⟩ := hreach
      exact ⟨_, ts, s.h, hts, ⟨es, s, hrun.mono fun _ _ _ hstep => hstep.1, hdone, hint, rfl⟩, rfl⟩

/-! ## 2. A test -/

/-- A test as it is registered. -/
structure RegisteredTest (t : TO Suite) : Prop where
  suites : Registered t
  cases : ∀ ts ∈ t.objs, Registered ts.body
  fresh : ∀ ts ∈ t.objs, ∀ tc ∈ ts.body.objs, tc.body.pid = none

/-- All schedulers of a test do their work. -/
structure TestCompletes (sandboxed : Bool) (maxParallel : UInt32) (t : TO Suite) : Prop where
  suites : Completes (calm (Simple.Step (suite sandboxed maxParallel))) (Simple.init t)
    (·.pc = .done) (·.h) t
  cases : ∀ ts ∈ t.objs, CasesComplete sandboxed maxParallel ts.body

/-- What the sequencer promises of a test. -/
theorem sequenced {t₀ t : TO Suite} (ht : RegisteredTest t₀) (hseq : sequencer t₀ = some t) :
    WellRanked t ∧ ∀ ts ∈ t.objs, WellRanked ts.body ∧ ∀ tc ∈ ts.body.objs, tc.body.pid = none := by
  obtain ⟨h, hh, hseq⟩ := Option.bind_eq_some_iff.mp hseq
  obtain ⟨objs, hobjs, hseq⟩ := Option.bind_eq_some_iff.mp hseq
  obtain rfl := Option.some.inj hseq
  have hobjs := mapM_sequencer hobjs
  have hsame : TO.Same h { h with objs } := ⟨rfl, hobjs.map_eq fun _ _ => rfl⟩
  refine ⟨hsame.wellRanked (TO.wellRanked_of_sequencer ht.suites hh), fun ts hts => ?_⟩
  obtain ⟨ts₁, hts₁, hcases, -⟩ := hobjs.mem hts
  -- the suites are those that were registered
  have hbody : ts₁.body ∈ t₀.objs.map (·.body) := by
    rw [← TO.sequencer_body hh]
    exact List.mem_map_of_mem hts₁
  obtain ⟨ts₀, hts₀, heq⟩ := List.mem_map.mp hbody
  rw [← heq] at hcases
  refine ⟨TO.wellRanked_of_sequencer (ht.cases ts₀ hts₀) hcases, fun tc htc => ?_⟩
  have hcase : tc.body ∈ ts₀.body.objs.map (·.body) := by
    rw [← TO.sequencer_body hcases]
    exact List.mem_map_of_mem htc
  obtain ⟨tc₀, htc₀, heq₀⟩ := List.mem_map.mp hcase
  rw [← heq₀]
  exact ht.fresh ts₀ hts₀ tc₀ htc₀

/-- **When a test does its work.**  Every accepted test does, unless it is sandboxed and the
scheduler of some suite can come to restart a chunk where nothing but test cases to be skipped is
left. -/
theorem test_completes_iff {t₀ t : TO Suite} (ht : RegisteredTest t₀)
    (hseq : sequencer t₀ = some t) :
    TestCompletes sandboxed maxParallel t ↔ (sandboxed = true → ∀ ts ∈ t.objs, ∀ s k,
      Reaches (calm (Sandbox.Step maxParallel)) (Sandbox.init ts.body) s →
      ¬ Sandbox.Stranded s k) := by
  obtain ⟨hw, hcases⟩ := sequenced ht hseq
  constructor
  · rintro hc rfl ts hts
    obtain ⟨hwc, hpid⟩ := hcases ts hts
    exact (Sandbox.completes_iff maxParallel hwc hpid).mp (hc.cases ts hts)
  · intro hfree
    have hready : ∀ ts ∈ t.objs, CasesComplete sandboxed maxParallel ts.body := by
      intro ts hts
      obtain ⟨hwc, hpid⟩ := hcases ts hts
      cases sandboxed with
      | true => exact (Sandbox.completes_iff maxParallel hwc hpid).mpr (hfree rfl ts hts)
      | false => exact Simple.simple_completes plainCase_sound hwc fun _ _ => trivial
    exact ⟨Simple.simple_completes suite_sound hw hready, hready⟩

/-- A test case as registered. -/
def unsequenced (id : String) (deps : List String) : Obj Case :=
  ⟨id, false, 0, success, deps.map (⟨·, none⟩), ⟨true, none⟩⟩

/-- A test of one suite. -/
def suiteOf (sequenced : Bool) (cases : Suite) : TO Suite :=
  ⟨0, 0, [⟨"s", sequenced, 0, success, [], cases⟩]⟩

/-- Two test cases, and for each of them one that depends on it. -/
def crossed : Suite :=
  ⟨0, 0, [unsequenced "a" [], unsequenced "c" [], unsequenced "b" ["c"], unsequenced "d" ["a"]]⟩

/-- They as sequenced, with the status `w` of the first. -/
def stuck (w : Status) : Suite :=
  ⟨1, 0, [{ Sandbox.registered "a" 0 [] with status := w }, Sandbox.registered "c" 0 [],
    Sandbox.registered "b" 1 [⟨"c", some 1⟩], Sandbox.registered "d" 1 [⟨"a", some 0⟩]]⟩

theorem registered_crossed : RegisteredTest (suiteOf false crossed) := by
  have hids : (crossed.objs.map (·.id)).Nodup := by
    rw [crossed]
    simp [unsequenced]
  refine ⟨⟨List.pairwise_singleton _ _, ?_, ?_⟩, ?_, ?_⟩
  all_goals
    intro ts hts
    obtain rfl := List.mem_singleton.mp hts
  · rfl
  · exact fun td htd => (by cases htd)
  · exact ⟨hids, by simp [crossed, unsequenced], by simp [crossed, unsequenced]⟩
  · simp [crossed, unsequenced]

theorem sequencer_crossed : sequencer (suiteOf false crossed) =
    some (suiteOf true (stuck success)) := by
  decide +kernel

namespace Sandbox

/-- A chunk of one test case. -/
theorem reaches_reaped {s₀ : State} {h : Suite} {i r : Nat} {t : Option Nat}
    {tc : Obj Case} (code : Nat)
    (hreach : Reaches (calm (Step 1)) s₀ ⟨h, false, .scan (some i), r, 0, t, []⟩)
    (hat : At ⟨h, false, .scan (some i), r, 0, t, []⟩ i tc) (hfunc : tc.body.func = true)
    (hn : h.nchildren = 0) (hi : searchByPid (started h i 7) 7 = some i) :
    Reaches (calm (Step 1)) s₀ ⟨ended (started h i 7) i (.exited code), false, .reaped, r, 1,
      (started h i 7).next i, []⟩ := by
  have hfork : Reaches (calm (Step 1)) s₀ ⟨started h i 7, false, .reap, r, 1,
    (started h i 7).next i, [⟨7, none⟩]⟩ := hreach.tail ⟨@Step.fork 1 _ i _ 7 hat hfunc
    fun c hc => (by cases hc), trivial⟩
  have hexit : Reaches (calm (Step 1)) s₀ ⟨started h i 7, false, .reap, r, 1,
    (started h i 7).next i, [⟨7, some (.exited code)⟩]⟩ := hfork.tail ⟨.exit (.exited code)
    List.mem_cons_self, trivial⟩
  have hwait : Reaches (calm (Step 1)) s₀ ⟨ended (started h i 7) i (.exited code), false, .reap, r,
    1, (started h i 7).next i, []⟩ :=
    hexit.tail ⟨@Step.wait 1 _ 7 (.exited code) i rfl (Nat.succ_pos _) List.mem_cons_self hi,
      trivial⟩
  refine hwait.tail ⟨.reaped rfl ?_, trivial⟩
  exact (Nat.add_sub_cancel _ 1).trans hn

/-- When the first test case fails, the last one is left for a chunk of its own. -/
theorem stuck_stranded : ∃ s k, Reaches (calm (Step 1)) (init (stuck success)) s ∧
    Stranded s k := by
  have h₁ : Reaches (calm (Step 1)) (init (stuck success))
      ⟨stuck success, false, .scan (some 0), 0, 0, some 0, []⟩ :=
    (Reaches.refl _).tail ⟨.enter rfl (by decide) rfl, trivial⟩
  have h₂ : Reaches (calm (Step 1)) (init (stuck success))
      ⟨stuck failure, false, .reaped, 0, 1, some 1, []⟩ :=
    reaches_reaped 1 h₁ ⟨rfl, rfl, rfl, rfl⟩ rfl rfl rfl
  have h₃ : Reaches (calm (Step 1)) (init (stuck success))
      ⟨stuck failure, false, .scan (some 1), 0, 0, some 1, []⟩ :=
    h₂.tail ⟨.resched rfl rfl, trivial⟩
  have h₄ : Reaches (calm (Step 1)) (init (stuck success))
      ⟨stuck failure, false, .reaped, 0, 1, some 2, []⟩ :=
    reaches_reaped 0 h₃ ⟨rfl, rfl, rfl, rfl⟩ rfl rfl rfl
  have h₅ : Reaches (calm (Step 1)) (init (stuck success))
      ⟨stuck failure, false, .scan (some 2), 0, 0, some 2, []⟩ :=
    h₄.tail ⟨.resched rfl rfl, trivial⟩
  have h₆ : Reaches (calm (Step 1)) (init (stuck success))
      ⟨stuck failure, false, .scan (some 3), 0, 0, none, []⟩ :=
    h₅.tail ⟨.pass (i := 2) rfl rfl Nat.one_ne_zero, trivial⟩
  have h₇ : Reaches (calm (Step 1)) (init (stuck success))
      ⟨stuck failure, false, .scan none, 0, 0, none, []⟩ :=
    h₆.tail ⟨.pass (i := 3) rfl rfl Nat.one_ne_zero, trivial⟩
  have h₈ : Reaches (calm (Step 1)) (init (stuck success))
      ⟨stuck failure, false, .ranks, 1, 0, none, []⟩ :=
    ((h₇.tail ⟨.exhausted rfl, trivial⟩).tail ⟨.reaped rfl rfl, trivial⟩).tail
    ⟨.nextRank rfl rfl, trivial⟩
  have h₉ : Reaches (calm (Step 1)) (init (stuck success))
      ⟨stuck failure, false, .scan (some 0), 1, 0, some 0, []⟩ :=
    h₈.tail ⟨.enter rfl (by decide) rfl, trivial⟩
  have h₁₀ : Reaches (calm (Step 1)) (init (stuck success))
      ⟨stuck failure, false, .scan (some 1), 1, 0, none, []⟩ :=
    h₉.tail ⟨.pass (i := 0) rfl rfl Nat.zero_ne_one, trivial⟩
  have h₁₁ : Reaches (calm (Step 1)) (init (stuck success))
      ⟨stuck failure, false, .scan (some 2), 1, 0, none, []⟩ :=
    h₁₀.tail ⟨.pass (i := 1) rfl rfl Nat.zero_ne_one, trivial⟩
  have h₁₂ : Reaches (calm (Step 1)) (init (stuck success))
      ⟨stuck failure, false, .reaped, 1, 1, some 3, []⟩ :=
    reaches_reaped 0 h₁₁ ⟨rfl, rfl, rfl, rfl⟩ rfl rfl rfl
  refine ⟨_, 3, h₁₂, rfl, rfl, fun k hk o ho => ?_⟩
  have hlt := (List.getElem?_eq_some_iff.mp ho).1
  obtain rfl : k = 3 := Nat.le_antisymm (Nat.le_of_lt_succ hlt) hk
  obtain rfl := Option.some.inj ho
  exact ⟨rfl, rfl⟩

end Sandbox

/-- Two test cases that depend on nothing. -/
def apart : Suite := ⟨0, 0, [unsequenced "a" [], unsequenced "c" []]⟩

/-- They as sequenced. -/
def apartSequenced : Suite :=
  ⟨0, 0, [Sandbox.registered "a" 0 [], Sandbox.registered "c" 0 []]⟩

theorem registered_apart : RegisteredTest (suiteOf false apart) := by
  refine ⟨⟨List.pairwise_singleton _ _, ?_, ?_⟩, ?_, ?_⟩
  all_goals
    intro ts hts
    obtain rfl := List.mem_singleton.mp hts
  · rfl
  · exact fun td htd => (by cases htd)
  · exact ⟨by simp [apart, unsequenced], by simp [apart, unsequenced], by simp [apart, unsequenced]⟩
  · simp [apart, unsequenced]

theorem sequencer_apart : sequencer (suiteOf false apart) =
    some (suiteOf true apartSequenced) := by
  decide +kernel

/-- Run one by one, the crossed test cases get to their end; run with one process at a time, they
need not, and those that depend on nothing do. -/
theorem test_completes_crossed :
    TestCompletes false 1 (suiteOf true (stuck success)) ∧
      TestCompletes true 1 (suiteOf true apartSequenced) ∧
      ¬ TestCompletes true 1 (suiteOf true (stuck success)) := by
  refine ⟨?_, ?_, ?_⟩
  · exact (test_completes_iff registered_crossed sequencer_crossed).mpr fun h => (by cases h)
  · refine (test_completes_iff registered_apart sequencer_apart).mpr fun _ ts hts s k hreach => ?_
    obtain ⟨hw, hpid⟩ := (sequenced registered_apart sequencer_apart).2 ts hts
    obtain rfl := List.mem_singleton.mp hts
    refine Sandbox.not_stranded_of_deps hw hpid (fun o ho => ?_) hreach
    rcases List.mem_cons.mp ho with rfl | ho
    · rfl
    · obtain rfl := List.mem_singleton.mp ho
      rfl
  · intro hc
    obtain ⟨s, k, hreach, hs⟩ := Sandbox.stuck_stranded
    exact (test_completes_iff registered_crossed sequencer_crossed).mp hc rfl _
      List.mem_cons_self s k
      hreach hs

/-- The last of the crossed test cases is skipped where a chunk is restarted, which leaves the
restart pointer as it is. -/
theorem test_restarts_forever : RegisteredTest (suiteOf false crossed) ∧
    sequencer (suiteOf false crossed) = some (suiteOf true (stuck success)) ∧
    ¬ TestCompletes true 1 (suiteOf true (stuck success)) := by
  refine ⟨registered_crossed, sequencer_crossed, fun hc => ?_⟩
  obtain ⟨s, k, hreach, hs⟩ := Sandbox.stuck_stranded
  obtain ⟨-, hcases⟩ := sequenced registered_crossed sequencer_crossed
  obtain ⟨hw, hpid⟩ := hcases _ List.mem_cons_self
  have hcase : Completes (calm (Sandbox.Step 1)) (Sandbox.init (stuck success)) (·.pc = .done false)
    (·.h) (stuck success) := hc.cases _ List.mem_cons_self
  exact Sandbox.not_halts_of_stranded hw hpid hreach hs hcase.halts

end Libu.Test
