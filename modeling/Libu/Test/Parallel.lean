/-
# How many processes there are

The scheduler counts the test cases of a chunk in `parallel`, which bounds the processes as long as
it is below the limit whenever test cases are started.  It is not when a chunk was filled by the
last object of the list: the counter is then not reset, and the test for the limit, which is one for
equality, fails in all later ranks.

The proof is an invariant of the counter: as long as a chunk is being filled, the processes alive
are at most as many as have been counted, and when the scheduler goes on to another rank none is
left that has not been waited for.  The condition is one on the state in which a rank begins, so
that a run can be looked at step by step (`FreshStep`).
-/
import Libu.Test.Basic

namespace Libu.Test

open Verif

namespace Sandbox

variable {maxParallel : UInt32} {s s' : State} {h : TO Case} {e : Event} {es : List Event} {i : Nat}

/-- The processes that are alive. -/
def alive (s : State) : Nat := s.children.countP (·.ended.isNone)

/-- A rank is due, with the counter at the limit. -/
structure Stale (maxParallel : UInt32) (s : State) : Prop where
  pc : s.pc = .ranks
  rank : s.r ≤ s.h.currank
  interrupted : s.interrupted = false
  parallel : s.parallel = maxParallel

/-- The steps that do not begin such a rank. -/
def FreshStep (maxParallel : UInt32) (s : State) (e : Event) (s' : State) : Prop :=
  ¬ (Stale maxParallel s ∧ e = .tau) ∧ Step maxParallel s e s'

/-- What the counters bound. -/
structure Counted (maxParallel : UInt32) (s : State) : Prop where
  children : s.children.length ≤ s.h.nchildren
  parallel : s.h.nchildren ≤ s.parallel.toNat
  limit : s.parallel.toNat ≤ maxParallel.toNat
  scan : ∀ i, s.pc = .scan i → s.parallel.toNat < maxParallel.toNat
  reap : s.pc = .reap → 0 < maxParallel.toNat
  reaped : s.pc = .reaped → s.h.nchildren = 0 ∧ 0 < maxParallel.toNat

@[simp] theorem started_nchildren (h : TO Case) (i pid : Nat) :
    (started h i pid).nchildren = h.nchildren + 1 := rfl

@[simp] theorem ended_nchildren (h : TO Case) (i : Nat) (o : Outcome) :
    (ended h i o).nchildren = h.nchildren - 1 := rfl

@[simp] theorem update_nchildren {α : Type} (h : TO α) (i : Nat) (f : Obj α → Obj α) :
    (h.update i f).nchildren = h.nchildren := rfl

theorem without_lt {c : Child} {children : List Child} (hc : c ∈ children) :
    (without children c.pid).length < children.length :=
  List.length_filter_lt_length_iff_exists.mpr ⟨c, hc, by simp⟩

/-- Starting a test case, with at most one process more. -/
theorem counted_scheduled (hlimit : s.parallel.toNat < maxParallel.toNat)
    (hchildren : s.children.length ≤ s.h.nchildren)
    (hn : s.h.nchildren ≤ s.parallel.toNat + 1) :
    Counted maxParallel (scheduled maxParallel s i) := by
  have hpos : 0 < maxParallel.toNat := Nat.lt_of_le_of_lt (Nat.zero_le _) hlimit
  have hadd : (s.parallel + 1).toNat = s.parallel.toNat + 1 := by
    rw [UInt32.toNat_add, Nat.mod_eq_of_lt]
    · rfl
    · exact Nat.lt_of_le_of_lt hlimit maxParallel.toNat_lt
  rw [← hadd] at hn
  rw [scheduled]
  dsimp only
  split
  · next heq =>
    have hle : (s.parallel + 1).toNat ≤ maxParallel.toNat := Nat.le_of_eq (congrArg _ heq)
    exact ⟨hchildren, hn, hle, fun _ hi => (by cases hi), fun _ => hpos, fun hi => (by cases hi)⟩
  · next hne =>
    have hlt : (s.parallel + 1).toNat < maxParallel.toNat := by
      refine Nat.lt_of_le_of_ne (by rw [hadd]; exact hlimit) fun heq => hne ?_
      exact UInt32.toNat_inj.mp heq
    exact ⟨hchildren, hn, Nat.le_of_lt hlt, fun _ _ => hlt, fun hi => (by cases hi),
      fun hi => (by cases hi)⟩

/-- Inside a scan, before it and behind it, the counters are as they were. -/
theorem Counted.goto (hc : Counted maxParallel s) (hh : s'.h.nchildren = s.h.nchildren)
    (hch : s'.children = s.children) (hp : s'.parallel = s.parallel)
    (hscan : ∀ i, s'.pc = .scan i → s.parallel.toNat < maxParallel.toNat)
    (hreap : s'.pc = .reap → 0 < maxParallel.toNat)
    (hreaped : s'.pc = .reaped → s.h.nchildren = 0 ∧ 0 < maxParallel.toNat) :
    Counted maxParallel s' := by
  refine ⟨?_, ?_, ?_, ?_, hreap, ?_⟩
  · rw [hch, hh]
    exact hc.children
  · rw [hh, hp]
    exact hc.parallel
  · rw [hp]
    exact hc.limit
  · rwa [hp]
  · rwa [hh]

/-- **One step** that does not begin a stale rank. -/
theorem Counted.step (hc : Counted maxParallel s) (hstep : FreshStep maxParallel s e s') :
    Counted maxParallel s' := by
  obtain ⟨hfresh, hstep⟩ := hstep
  cases hstep with
  | enter hpc hr hint =>
    have hlt : s.parallel.toNat < maxParallel.toNat :=
      Nat.lt_of_le_of_ne hc.limit fun heq =>
        hfresh ⟨⟨hpc, hr, hint, UInt32.toNat_inj.mp heq⟩, rfl⟩
    exact hc.goto rfl rfl rfl (fun _ _ => hlt) (fun hi => (by cases hi)) (fun hi => (by cases hi))
  | leave _ _ =>
    exact hc.goto rfl rfl rfl (fun _ hi => (by cases hi)) (fun hi => (by cases hi))
      (fun hi => (by cases hi))
  | pass hpc _ _ =>
    exact hc.goto rfl rfl rfl (fun _ _ => hc.scan _ hpc) (fun hi => (by cases hi))
      (fun hi => (by cases hi))
  | skip hpc _ _ _ =>
    exact hc.goto rfl rfl rfl (fun _ _ => hc.scan _ hpc) (fun hi => (by cases hi))
      (fun hi => (by cases hi))
  | noFunc hat _ =>
    exact counted_scheduled (hc.scan _ hat.pc) hc.children (Nat.le_succ_of_le hc.parallel)
  | fork hat _ _ =>
    exact counted_scheduled (hc.scan _ hat.pc) (Nat.succ_le_succ hc.children)
      (Nat.succ_le_succ hc.parallel)
  | forkFails hat _ =>
    exact counted_scheduled (hc.scan _ hat.pc) hc.children (Nat.le_succ_of_le hc.parallel)
  | exhausted hpc =>
    exact hc.goto rfl rfl rfl (fun _ hi => (by cases hi))
      (fun _ => Nat.lt_of_le_of_lt (Nat.zero_le _) (hc.scan _ hpc)) (fun hi => (by cases hi))
  | wait hpc hn hchild _ =>
    refine ⟨?_, Nat.le_trans (Nat.sub_le _ _) hc.parallel, hc.limit, fun i hi => ?_, hc.reap,
      fun hi => ?_⟩
    · exact Nat.le_sub_of_add_le (Nat.le_trans (without_lt hchild) hc.children)
    · cases hpc.symm.trans hi
    · cases hpc.symm.trans hi
  | lost hpc hn hchild _ =>
    exact ⟨Nat.le_trans (Nat.le_of_lt (without_lt hchild)) hc.children, hc.parallel, hc.limit,
      hc.scan, hc.reap, hc.reaped⟩
  | waitFails _ _ =>
    exact hc.goto rfl rfl rfl (fun _ hi => (by cases hi)) (fun hi => (by cases hi))
      (fun hi => (by cases hi))
  | reaped hpc hn =>
    exact hc.goto rfl rfl rfl (fun _ hi => (by cases hi)) (fun hi => (by cases hi))
      (fun _ => ⟨hn, hc.reap hpc⟩)
  | resched hpc _ =>
    obtain ⟨hn, hpos⟩ := hc.reaped hpc
    exact ⟨hc.children, by rw [hn]; exact Nat.zero_le _, Nat.zero_le _, fun _ _ => hpos,
      fun hi => (by cases hi), fun hi => (by cases hi)⟩
  | nextRank hpc _ =>
    exact hc.goto rfl rfl rfl (fun _ hi => (by cases hi)) (fun hi => (by cases hi))
      (fun hi => (by cases hi))
  | exit o hchild =>
    exact ⟨Nat.le_trans (without_lt hchild) hc.children, hc.parallel, hc.limit, hc.scan, hc.reap,
      hc.reaped⟩
  | interrupt => exact ⟨hc.children, hc.parallel, hc.limit, hc.scan, hc.reap, hc.reaped⟩

theorem counted_init (maxParallel : UInt32) (h : TO Case) : Counted maxParallel (init h) := by
  refine ⟨Nat.le_refl 0, Nat.le_refl 0, Nat.zero_le _, fun i hi => ?_, fun hi => ?_, fun hi => ?_⟩
  all_goals
    rw [init] at hi
    dsimp only at hi
    split at hi <;> cases hi

/-- **The parallelism bound.**  In a run that never begins a rank with its counter at the limit, the
processes alive are at most as many as the limit.  The test for the limit is one for equality, so
that a counter that starts at the limit goes past it unseen. -/
theorem alive_le_maxParallel (maxParallel : UInt32) (h : TO Case) (es : List Event) (s : State)
    (hrun : Steps (FreshStep maxParallel) (init h) es s) : alive s ≤ maxParallel.toNat := by
  have hc : Counted maxParallel s :=
    hrun.invariant (I := fun _ s => Counted maxParallel s) (counted_init maxParallel h)
      fun _ _ _ _ _ hc hstep => hc.step hstep
  calc alive s ≤ s.children.length := List.countP_le_length
    _ ≤ s.h.nchildren := hc.children
    _ ≤ s.parallel.toNat := hc.parallel
    _ ≤ maxParallel.toNat := hc.limit

/-- A test case as registered and sequenced. -/
def registered (id : String) (rank : Nat) (deps : List Dep) : Obj Case :=
  ⟨id, true, rank, success, deps, ⟨true, none⟩⟩

/-- Two test cases that depend on the one registered before them. -/
def fork3 : TO Case :=
  ⟨1, 0, [registered "c" 1 [⟨"a", some 2⟩], registered "b" 1 [⟨"a", some 2⟩], registered "a" 0 []]⟩

theorem alive_le_fork3 :
    alive ⟨started fork3 2 7, false, .reap, 0, 1, none, [⟨7, none⟩]⟩ ≤ UInt32.toNat 1 := by
  have hfresh : ∀ {s : State} {e : Event}, s.parallel = 0 → ¬ (Stale 1 s ∧ e = .tau) := by
    rintro s e hs ⟨hstale, -⟩
    exact absurd (hs.symm.trans hstale.parallel) (by decide)
  have h₁ : Steps (FreshStep 1) (init fork3) [.tau] ⟨fork3, false, .scan (some 0),
    0, 0, some 0, []⟩ :=
    .single ⟨hfresh rfl, .enter rfl (by decide) rfl⟩
  have h₂ : Steps (FreshStep 1) (init fork3) [.tau, .tau] ⟨fork3, false, .scan (some 1),
    0, 0, none, []⟩ :=
    h₁.snoc ⟨hfresh rfl, .pass (i := 0) rfl rfl Nat.one_ne_zero⟩
  have h₃ : Steps (FreshStep 1) (init fork3) [.tau, .tau, .tau]
      ⟨fork3, false, .scan (some 2), 0, 0, none, []⟩ :=
    h₂.snoc ⟨hfresh rfl, .pass (i := 1) rfl rfl Nat.one_ne_zero⟩
  exact alive_le_maxParallel 1 fork3 _ _ (h₃.snoc ⟨hfresh rfl, @Step.fork 1 _ 2 _ 7
    ⟨rfl, rfl, rfl, rfl⟩ rfl
    (fun c hc => by cases hc)⟩)

/-- The last test case of the list fills the first chunk; after that, nothing bounds the second
rank. -/
theorem alive_unbounded : ∃ es s, Steps (Step 1) (init fork3) es s ∧
    ¬ alive s ≤ (1 : UInt32).toNat := by
  have h₁ : Steps (Step 1) (init fork3) _ ⟨fork3, false, .scan (some 0), 0, 0, some 0, []⟩ :=
    .single (.enter rfl (by decide) rfl)
  have h₂ : Steps (Step 1) (init fork3) _ ⟨fork3, false, .scan (some 1), 0, 0, none, []⟩ :=
    h₁.snoc (.pass (i := 0) rfl rfl Nat.one_ne_zero)
  have h₃ : Steps (Step 1) (init fork3) _ ⟨fork3, false, .scan (some 2), 0, 0, none, []⟩ :=
    h₂.snoc (.pass (i := 1) rfl rfl Nat.one_ne_zero)
  have h₄ : Steps (Step 1) (init fork3) _
      ⟨started fork3 2 7, false, .reap, 0, 1, none, [⟨7, none⟩]⟩ :=
    h₃.snoc (@Step.fork 1 _ 2 _ 7 ⟨rfl, rfl, rfl, rfl⟩ rfl fun c hc => by cases hc)
  have h₅ : Steps (Step 1) (init fork3) _
      ⟨started fork3 2 7, false, .reap, 0, 1, none, [⟨7, some (.exited 0)⟩]⟩ :=
    h₄.snoc (.exit (.exited 0) List.mem_cons_self)
  have h₆ : Steps (Step 1) (init fork3) _ ⟨ended (started fork3 2 7) 2 (.exited 0), false, .reap, 0,
    1, none, without [⟨7, some (.exited 0)⟩] 7⟩ :=
    h₅.snoc (.wait rfl Nat.one_pos List.mem_cons_self rfl)
  have h₇ : Steps (Step 1) (init fork3) _ ⟨fork3, false, .reaped, 0, 1, none, []⟩ :=
    h₆.snoc (.reaped rfl rfl)
  have h₈ : Steps (Step 1) (init fork3) _ ⟨fork3, false, .ranks, 1, 1, none, []⟩ :=
    h₇.snoc (.nextRank rfl rfl)
  have h₉ : Steps (Step 1) (init fork3) _ ⟨fork3, false, .scan (some 0), 1, 1, some 0, []⟩ :=
    h₈.snoc (.enter rfl (by decide) rfl)
  have h₁₀ : Steps (Step 1) (init fork3) _
      ⟨started fork3 0 8, false, .scan (some 1), 1, 2, none, [⟨8, none⟩]⟩ :=
    h₉.snoc (@Step.fork 1 _ 0 _ 8 ⟨rfl, rfl, rfl, rfl⟩ rfl fun c hc => by cases hc)
  have h₁₁ : Steps (Step 1) (init fork3) _
      ⟨started (started fork3 0 8) 1 9, false, .scan (some 2), 1, 3, none,
        [⟨9, none⟩, ⟨8, none⟩]⟩ :=
    h₁₀.snoc (@Step.fork 1 _ 1 _ 9 ⟨rfl, rfl, rfl, rfl⟩ rfl fun c hc => by
      obtain rfl := List.mem_singleton.mp hc
      decide)
  exact ⟨_, _, h₁₁, by decide⟩

end Sandbox

end Libu.Test
