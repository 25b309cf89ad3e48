/-
# What the report says

The status of a test case is a success from the start, and a test case is counted as passed if it
still is at the end.

What a process returns and what the scheduler sees of it are two things: the status of a process has
eight bits for the number that it returned, and a test case that returns 256 looks like one that
returns 0.  The model has both, the number and what is left of it, so that the theorem can say of
the first what the code concludes from the second.

* §1 is the count.
* §2 writes down how the processes end: the function returns, or it ends its process itself, or the
  process is killed.  Of this the scheduler sees the low eight bits of a number, or a signal.
* §3: a test case that is counted as passed has returned success, as long as every fork succeeds and
  nothing else looks like a success (`pass_sound`).
-/
import Libu.Test.Suite

namespace Libu.Test

open Verif

/-! ## 1. The count -/

/-- `u_test_syn_t` -/
structure Syn where
  total : Nat
  pass : Nat
  fail : Nat
  abrt : Nat
  skip : Nat
  deriving DecidableEq

/-- The turn of the loop of `u_test_syn_update` for an object.  Another status is not counted. -/
def Syn.count {α : Type} (syn : Syn) (tobj : Obj α) : Syn :=
  let syn := { syn with total := syn.total + 1 }
  if tobj.status = success then { syn with pass := syn.pass + 1 }
  else if tobj.status = failure then { syn with fail := syn.fail + 1 }
  else if tobj.status = aborted then { syn with abrt := syn.abrt + 1 }
  else if tobj.status = skipped then { syn with skip := syn.skip + 1 }
  else syn

/-- `u_test_syn_update` -/
def Syn.update {α : Type} (syn : Syn) (h : TO α) : Syn := h.objs.foldl Syn.count syn

/-- An object is counted as passed. -/
def Obj.Passes {α : Type} (tobj : Obj α) : Prop := ∀ syn : Syn, (syn.count tobj).pass = syn.pass + 1

theorem passes_iff {α : Type} {tobj : Obj α} : tobj.Passes ↔ tobj.status = success := by
  constructor
  · intro h
    by_contra hne
    have hpass : (Syn.count ⟨0, 0, 0, 0, 0⟩ tobj).pass = 0 := by
      rw [Syn.count, if_neg hne]
      split
      · rfl
      · split
        · rfl
        · split <;> rfl
    rw [h] at hpass
    cases hpass
  · intro h syn
    rw [Syn.count, if_pos h]

/-! ## 2. How the processes end -/

namespace Sandbox

/-- `exit(tc->func(tc))`: the function returns, or it does not. -/
inductive Ending
  | returned (rc : Nat)
  | exits (code : Nat)
  | killed
  deriving DecidableEq

/-- What is left of it for the wait. -/
def Ending.outcome : Ending → Outcome
  | .returned rc => .exited rc
  | .exits code => .exited code
  | .killed => .signaled

inductive TraceEvent
  | ended (pid : Nat) (en : Ending)
  | other (e : Event)

/-- The scheduler, and how the functions of the test cases have ended. -/
structure Trace where
  s : State
  endings : Nat → Option Ending

def Trace.init (h : TO Case) : Trace := ⟨Sandbox.init h, fun _ => none⟩

inductive TraceStep (maxParallel : UInt32) : Trace → TraceEvent → Trace → Prop
  | ended {t pid} (en : Ending) (hchild : (⟨pid, none⟩ : Child) ∈ t.s.children) :
      TraceStep maxParallel t (.ended pid en)
        ⟨{ t.s with children := ⟨pid, some en.outcome⟩ :: without t.s.children pid },
          fun i => if pidOf t.s.h i = some pid then some en else t.endings i⟩
  | other {t e s'} (hstep : Step maxParallel t.s e s') (he : ∀ pid, e ≠ .exit pid) :
      TraceStep maxParallel t (.other e) ⟨s', t.endings⟩

def TraceEvent.event : TraceEvent → Event
  | .ended pid _ => .exit pid
  | .other e => e

/-- The trace is that of a run of the scheduler. -/
theorem TraceStep.step {maxParallel : UInt32} {t t' : Trace} {e : TraceEvent}
    (h : TraceStep maxParallel t e t') : Step maxParallel t.s e.event t'.s := by
  cases h with
  | ended en hchild => exact .exit en.outcome hchild
  | other hstep _ => exact hstep

/-- Every step of the scheduler has a trace. -/
theorem exists_traceStep {maxParallel : UInt32} {t : Trace} {e : Event} {s' : State}
    (h : Step maxParallel t.s e s') : ∃ e' t', TraceStep maxParallel t e' t' ∧ e'.event =
      e ∧ t'.s = s' := by
  by_cases he : ∀ pid, e ≠ .exit pid
  · exact ⟨.other e, ⟨s', t.endings⟩, .other h he, rfl, rfl⟩
  · cases h with
    | exit o hchild =>
      cases o with
      | exited code => exact ⟨_, _, .ended (.returned code) hchild, rfl, rfl⟩
      | signaled => exact ⟨_, _, .ended .killed hchild, rfl, rfl⟩
    | _ => exact absurd (fun _ => Event.noConfusion) he

/-- Nobody interrupts, and no wait fails. -/
def TraceEvent.Undisturbed : TraceEvent → Prop
  | .other .interrupt | .other .waitFails => False
  | _ => True

/-- No fork fails either, and what looks like a success is one. -/
def TraceEvent.Honest : TraceEvent → Prop
  | .ended _ en => en.outcome.status = success → en = .returned success
  | .other e => e.Calm

/-! ## 3. Soundness -/

variable {maxParallel : UInt32} {h h₀ : TO Case} {t t' : Trace} {e : TraceEvent} {o tc : Obj Case}
  {i k r : Nat} {endings : Nat → Option Ending} {pos : Option Nat}

/-- Of the test cases that the scheduler is done with, those that do not run and count as passed
have returned success. -/
def Settled (h : TO Case) (endings : Nat → Option Ending) (r : Nat) (pos : Option Nat) : Prop :=
  ∀ k o, h.objs[k]? = some o → TO.Dealt h r pos k →
    (pidOf h k).isSome ∨ o.status ≠ success ∨ endings k = some (.returned success)

/-- What is true as long as the steps are honest. -/
structure Trace.Inv (h₀ : TO Case) (t : Trace) : Prop where
  same : TO.Same h₀ t.s.h
  uninterrupted : t.s.interrupted = false
  func : ∀ o ∈ t.s.h.objs, o.body.func = true
  forked : Forked t.s.h t.s.children
  busy : ∀ k, (pidOf t.s.h k).isSome → TO.passed (Sandbox.pos t.s) k
  -- with `tptr` set, nothing has been started since the restart
  stale : ∀ p u, t.s.pc = .scan p → t.s.tptr = some u → t.s.h.nchildren = 0
  quiet : t.s.pc = .ranks ∨ t.s.pc = .reaped ∨ t.s.pc = .done false → t.s.h.nchildren = 0
  done : t.s.pc = .done false → t.s.h.currank < t.s.r ∨ t.s.h.objs = []
  ended : ∀ c ∈ t.s.children, ∀ oc k, c.ended = some oc → pidOf t.s.h k = some c.pid →
    ∃ en, t.endings k = some en ∧ en.outcome = oc ∧ (oc.status = success → en = .returned success)
  settled : Settled t.s.h t.endings t.s.r (Sandbox.pos t.s)

theorem lt_of_pidOf (hk : (pidOf h k).isSome) : k < h.objs.length := by
  obtain ⟨p, hp⟩ := Option.isSome_iff_exists.mp hk
  obtain ⟨o, ho, -⟩ := Option.bind_eq_some_iff.mp hp
  exact (List.getElem?_eq_some_iff.mp ho).1

/-- The scheduler goes on to a state where it is done with nothing more. -/
theorem Settled.mono {h' : TO Case} {r' : Nat} {pos' : Option Nat} (hs : Settled h endings r pos)
    (hobjs : h'.objs = h.objs) (hdealt : ∀ k, TO.Dealt h r' pos' k → TO.Dealt h r pos k) :
    Settled h' endings r' pos' := by
  intro k o ho hd
  have hpid : pidOf h' k = pidOf h k := by rw [pidOf, pidOf, hobjs]
  have hd' : TO.Dealt h r' pos' k := by
    obtain ⟨o, ho, hor⟩ := hd
    exact ⟨o, hobjs ▸ ho, hor⟩
  rw [hpid]
  exact hs k o (hobjs ▸ ho) (hdealt k hd')

/-- The scheduler goes on behind a test case that has changed. -/
theorem Settled.update {f : Obj Case → Obj Case} (hs : Settled h endings r (some i))
    (hto : h.objs[i]? = some tc) (hr : tc.rank = r) (hf : TO.Keeps f)
    (hi : (f tc).body.pid.isSome ∨ (f tc).status ≠ success ∨ endings i = some (.returned success)) :
    Settled (h.update i f) endings r (h.next i) := by
  intro k o ho hd
  have hd' := (TO.dealt_next hto hr).mp ((TO.same_update hf).dealt.mp hd)
  rw [TO.get_update] at ho
  by_cases hik : i = k
  · subst hik
    rw [if_pos rfl, hto] at ho
    obtain rfl := Option.some.inj ho
    rwa [pidOf_update_self hto]
  · rw [if_neg hik] at ho
    rw [pidOf_update_ne (Ne.symm hik)]
    exact hs k o ho (hd'.resolve_left (Ne.symm hik))

theorem trace_init (hfunc : ∀ o ∈ h.objs, o.body.func = true)
    (hpid : ∀ o ∈ h.objs, o.body.pid = none) : (Trace.init h).Inv h := by
  have hI := Sandbox.inv_init hpid
  have hpos := pos_init h
  refine ⟨hI.same, hI.uninterrupted, hfunc, hI.forked, fun k hs => ?_, fun p u hp => ?_, hI.quiet,
    fun hp => ?_, fun c hc => (by cases hc), fun k o ho hd => ?_⟩
  · exact absurd hs (hI.forked.not_busy rfl k)
  · rcases init_pc h with heq | ⟨-, heq⟩ <;> cases heq.symm.trans hp
  · rcases init_pc h with heq | ⟨hnil, -⟩
    · cases heq.symm.trans hp
    · exact .inr hnil
  · obtain ⟨o, -, hlt | ⟨-, hpass⟩⟩ := hd
    · exact absurd hlt (Nat.not_lt_zero _)
    · exact absurd (hpass 0 hpos) (Nat.not_lt_zero k)

/-- A process ends. -/
theorem Trace.Inv.exit {pid : Nat} (hI : t.Inv h₀) (en : Ending)
    (hchild : (⟨pid, none⟩ : Child) ∈ t.s.children)
    (he : en.outcome.status = success → en = .returned success) :
    Trace.Inv h₀ ⟨{ t.s with children := ⟨pid, some en.outcome⟩ :: without t.s.children pid },
      fun i => if pidOf t.s.h i = some pid then some en else t.endings i⟩ := by
  refine ⟨hI.same, hI.uninterrupted, hI.func, hI.forked.exit hchild, hI.busy, hI.stale, hI.quiet,
    hI.done, fun c hc oc k hoc hk => ?_, fun k o ho hd => ?_⟩
  · rcases List.mem_cons.mp hc with rfl | hc
    · obtain rfl := Option.some.inj hoc
      exact ⟨en, if_pos hk, rfl, he⟩
    · obtain ⟨hc, hne⟩ := mem_without.mp hc
      have hne' : pidOf t.s.h k ≠ some pid := fun heq => hne (Option.some.inj (hk.symm.trans heq))
      obtain ⟨en', hen', hrest⟩ := hI.ended c hc oc k hoc hk
      exact ⟨en', (if_neg hne').trans hen', hrest⟩
  · rcases hI.settled k o ho hd with hrun | hne | hret
    · exact .inl hrun
    · exact .inr (.inl hne)
    · by_cases hk : pidOf t.s.h k = some pid
      · exact .inl (Option.isSome_iff_exists.mpr ⟨pid, hk⟩)
      · exact .inr (.inr ((if_neg hk).trans hret))

/-- The test case that the walk is at has no process. -/
theorem Trace.Inv.free (hI : t.Inv h₀) (hpc : t.s.pc = .scan (some i)) : pidOf t.s.h i = none := by
  cases hp : pidOf t.s.h i with
  | none => rfl
  | some p =>
    have hpass := hI.busy i (by rw [hp]; rfl)
    rw [pos, hpc] at hpass
    exact absurd (hpass i rfl) (Nat.lt_irrefl i)

theorem Trace.Inv.passed_next (hI : t.Inv h₀) (hpc : t.s.pc = .scan (some i))
    (hs : (pidOf t.s.h k).isSome) : TO.passed (t.s.h.next i) k := by
  have hpass := hI.busy k hs
  rw [pos, hpc] at hpass
  exact (TO.passed_next (lt_of_pidOf hs)).mpr (.inr hpass)

/-- What keeps the functions of the test cases keeps them in the list. -/
theorem func_update {f : Obj Case → Obj Case} (hf : ∀ o, (f o).body.func = o.body.func)
    (hfunc : ∀ o ∈ h.objs, o.body.func = true) : ∀ o ∈ (h.update i f).objs, o.body.func = true := by
  intro o ho
  obtain ⟨k, hk⟩ := List.getElem?_of_mem ho
  rw [TO.get_update] at hk
  split at hk
  · obtain ⟨q, hq, rfl⟩ := Option.map_eq_some_iff.mp hk
    rw [hf]
    exact hfunc q (List.mem_of_getElem? hq)
  · exact hfunc o (List.mem_of_getElem? hk)

/-- A test case is started. -/
theorem Trace.Inv.fork {pid : Nat} (hI : t.Inv h₀) (hat : At t.s i tc)
    (hpid : ∀ c ∈ t.s.children, c.pid ≠ pid) : Trace.Inv h₀ ⟨scheduled maxParallel { t.s with
      h := started t.s.h i pid
      children := ⟨pid, none⟩ :: t.s.children } i, t.endings⟩ := by
  have hsame : TO.Same t.s.h (started t.s.h i pid) := same_started
  have hnext : (started t.s.h i pid).next i = t.s.h.next i := by
    rw [TO.next, TO.next, hsame.length]
  have hnone := hI.free hat.pc
  have hpos : Sandbox.pos t.s = some i := by rw [pos, hat.pc]
  have hfresh : ∀ k, pidOf t.s.h k ≠ some pid := by
    intro k hk
    obtain ⟨c, hc, heq⟩ := hI.forked.test k pid hk
    exact hpid c hc heq
  have hfunc : ∀ o ∈ (started t.s.h i pid).objs, o.body.func = true :=
    func_update (fun _ => rfl) hI.func
  have hbusy : ∀ k, (pidOf (started t.s.h i pid) k).isSome → TO.passed (t.s.h.next i) k := by
    intro k hs
    rw [pidOf_started hat.obj] at hs
    split at hs
    · next hki =>
      rw [hki]
      exact (TO.passed_next (List.getElem?_eq_some_iff.mp hat.obj).1).mpr (.inl rfl)
    · exact hI.passed_next hat.pc hs
  have hended : ∀ c ∈ (⟨pid, none⟩ : Child) :: t.s.children, ∀ oc k, c.ended = some oc →
      pidOf (started t.s.h i pid) k = some c.pid →
      ∃ en, t.endings k = some en ∧ en.outcome = oc ∧
      (oc.status = success → en = .returned success) := by
    intro c hc oc k hoc hk
    rcases List.mem_cons.mp hc with rfl | hc
    · cases hoc
    · rw [pidOf_started hat.obj] at hk
      split at hk
      · exact absurd (Option.some.inj hk).symm (hpid c hc)
      · exact hI.ended c hc oc k hoc hk
  have hsettled : Settled (started t.s.h i pid) t.endings t.s.r (t.s.h.next i) := by
    have hs := hI.settled
    rw [hpos] at hs
    exact (hs.update (f := fun tc => { tc with body := { tc.body with pid := some pid } }) hat.obj
      hat.rank
      (fun _ => ⟨rfl, rfl⟩) (.inl rfl)).mono rfl fun _ => id
  have hF := hI.forked.started hat.obj hnone hpid
  obtain ⟨m, heq | heq⟩ := scheduled_cases maxParallel { t.s with
      h := started t.s.h i pid
      children := ⟨pid, none⟩ :: t.s.children } i
  · rw [heq]
    refine ⟨hI.same.trans hsame, hI.uninterrupted, hfunc, hF, fun k hs => hnext ▸ hbusy k hs,
      fun p u hp => (by cases hp), fun hp => ?_, fun hp => (by cases hp), hended, hnext ▸ hsettled⟩
    rcases hp with hp | hp | hp <;> cases hp
  · rw [heq]
    refine ⟨hI.same.trans hsame, hI.uninterrupted, hfunc, hF, fun k hs => hnext ▸ hbusy k hs,
      fun p u _ hu => (by cases hu), fun hp => ?_, fun hp => (by cases hp),
      hended, hnext ▸ hsettled⟩
    rcases hp with hp | hp | hp <;> cases hp

/-- A test case is skipped, which is no success. -/
theorem Trace.Inv.skip (hI : t.Inv h₀) (hpc : t.s.pc = .scan (some i))
    (hto : t.s.h.objs[i]? = some tc) (hr : tc.rank = t.s.r) : Trace.Inv h₀ ⟨{ t.s with
      h := t.s.h.update i fun tc => { tc with status := skipped }
      pc := .scan (t.s.h.next i) }, t.endings⟩ := by
  have hkeeps : TO.Keeps fun tc : Obj Case => { tc with status := skipped } := fun _ => ⟨rfl, rfl⟩
  have hpos : Sandbox.pos t.s = some i := by rw [pos, hpc]
  have hpid : ∀ k, pidOf (t.s.h.update i fun tc => { tc with status := skipped })
    k = pidOf t.s.h k :=
    fun k => pidOf_update fun _ => rfl
  refine ⟨hI.same.trans (TO.same_update hkeeps), hI.uninterrupted,
    func_update (fun _ => rfl) hI.func, hI.forked.update fun _ => rfl, fun k hs => ?_,
    fun p u _ hu => hI.stale _ u hpc hu, fun hp => ?_, fun hp => (by cases hp),
    fun c hc oc k hoc hk => ?_, ?_⟩
  · rw [hpid] at hs
    exact hI.passed_next hpc hs
  · rcases hp with hp | hp | hp <;> cases hp
  · rw [hpid] at hk
    exact hI.ended c hc oc k hoc hk
  · have hs := hI.settled
    rw [hpos] at hs
    exact hs.update hto hr hkeeps (.inr (.inl (by decide : skipped ≠ success)))

/-- A wait returns the process of a test case. -/
theorem Trace.Inv.wait {pid : Nat} {oc : Outcome} (hI : t.Inv h₀) (hpc : t.s.pc = .reap)
    (hchild : (⟨pid, some oc⟩ : Child) ∈ t.s.children) (hi : searchByPid t.s.h pid = some i) :
    Trace.Inv h₀ ⟨{ t.s with
      h := Sandbox.ended t.s.h i oc
      children := without t.s.children pid }, t.endings⟩ := by
  obtain ⟨o, ho, hpid⟩ := searchByPid_some hi
  have hsame : TO.Same t.s.h (Sandbox.ended t.s.h i oc) := same_ended
  obtain ⟨en, hen, -, hhonest⟩ := hI.ended _ hchild oc i rfl hpid
  refine ⟨hI.same.trans hsame, hI.uninterrupted, func_update (fun _ => rfl) hI.func,
    hI.forked.ended hchild hi, fun k hs => ?_, fun p u hp => (by cases hpc.symm.trans hp),
    fun hp => ?_, fun hp => (by cases hpc.symm.trans hp), fun c hc oc' k hoc hk => ?_,
    fun k q hq hd => ?_⟩
  · rw [pidOf_ended ho] at hs
    split at hs
    · cases hs
    · exact hI.busy k hs
  · rcases hp with hp | hp | hp <;> cases hpc.symm.trans hp
  · rw [pidOf_ended ho] at hk
    split at hk
    · cases hk
    · exact hI.ended c (mem_without.mp hc).1 oc' k hoc hk
  · rw [pidOf_ended ho]
    rw [Sandbox.ended, TO.get_update] at hq
    split at hq
    · next hik =>
      obtain ⟨q', -, rfl⟩ := Option.map_eq_some_iff.mp hq
      by_cases hok : oc.status = success
      · exact .inr (.inr (hik ▸ hen.trans (congrArg some (hhonest hok))))
      · exact .inr (.inl hok)
    · next hik =>
      rw [if_neg (Ne.symm hik)]
      exact hI.settled k q hq (hsame.dealt.mp hd)

/-- **One honest step** keeps the invariant. -/
theorem Trace.Inv.step (hI : t.Inv h₀) (hstep : TraceStep maxParallel t e t')
    (he : e.Honest) : t'.Inv h₀ := by
  cases hstep with
  | ended en hchild => exact hI.exit en hchild he
  | other hstep hne =>
    cases hstep with
    | enter hpc hr _ =>
      have hn := hI.quiet (.inl hpc)
      have hpos : Sandbox.pos t.s = some 0 := by rw [pos, hpc]
      refine ⟨hI.same, hI.uninterrupted, hI.func, hI.forked, fun k hs => absurd hs
        (hI.forked.not_busy hn k), fun _ _ _ _ => hn, fun hp => ?_,
        fun hp => (by cases hp), hI.ended, ?_⟩
      · rcases hp with hp | hp | hp <;> cases hp
      · exact hI.settled.mono rfl fun k hd => hpos ▸ TO.dealt_first.mp hd
    | leave hpc hr =>
      have hn := hI.quiet (.inl hpc)
      have hpos : Sandbox.pos t.s = some 0 := by rw [pos, hpc]
      refine ⟨hI.same, hI.uninterrupted, hI.func, hI.forked, fun k hs => absurd hs
        (hI.forked.not_busy hn k), fun p u hp => (by cases hp), fun _ => hn, fun _ => .inl
        (hr.resolve_right fun hint => ?_), hI.ended, ?_⟩
      · rw [hI.uninterrupted] at hint
        cases hint
      · exact hI.settled.mono rfl fun k hd => hpos ▸ hd
    | pass hpc hto hr =>
      refine ⟨hI.same, hI.uninterrupted, hI.func, hI.forked, fun k hs => hI.passed_next hpc hs,
        fun p u _ hu => (by cases hu), fun hp => ?_, fun hp => (by cases hp), hI.ended, ?_⟩
      · rcases hp with hp | hp | hp <;> cases hp
      · exact hI.settled.mono rfl fun k hd => by
          rw [pos, hpc]
          exact (TO.dealt_pass hto hr).mp hd
    | skip hpc hto hr _ => exact hI.skip hpc hto hr
    | noFunc hat hfunc =>
      rw [hI.func _ (List.mem_of_getElem? hat.obj)] at hfunc
      cases hfunc
    | fork hat _ hpid => exact hI.fork hat hpid
    | forkFails _ _ => cases he
    | exhausted hpc =>
      have hpos : Sandbox.pos t.s = none := by rw [pos, hpc]
      refine ⟨hI.same, hI.uninterrupted, hI.func, hI.forked, fun k hs u hu => ?_,
        fun p u hp => (by cases hp), fun hp => ?_, fun hp => (by cases hp), hI.ended, ?_⟩
      · have hn := hI.stale _ u hpc hu
        exact absurd hs (hI.forked.not_busy hn k)
      · rcases hp with hp | hp | hp <;> cases hp
      · refine hI.settled.mono rfl fun k hd => ?_
        obtain ⟨o, ho, hor⟩ := hd
        rw [hpos]
        exact ⟨o, ho, hor.imp_right fun hd => ⟨hd.1, fun _ hu => (by cases hu)⟩⟩
    | wait hpc _ hchild hi => exact hI.wait hpc hchild hi
    | lost hpc _ hchild hi =>
      obtain ⟨k, hk⟩ := hI.forked.child _ hchild
      exact absurd hi (searchByPid_isSome hk)
    | waitFails _ _ => cases he
    | reaped hpc hn =>
      have hpos : Sandbox.pos t.s = t.s.tptr := by rw [pos, hpc]
      refine ⟨hI.same, hI.uninterrupted, hI.func, hI.forked, fun k hs => absurd hs
        (hI.forked.not_busy hn k), fun p u hp => (by cases hp), fun _ => hn,
        fun hp => (by cases hp), hI.ended, ?_⟩
      exact hI.settled.mono rfl fun k hd => hpos ▸ hd
    | resched hpc htptr =>
      have hn := hI.quiet (.inr (.inl hpc))
      have hpos : Sandbox.pos t.s = t.s.tptr := by rw [pos, hpc]
      refine ⟨hI.same, hI.uninterrupted, hI.func, hI.forked, fun k hs => absurd hs
        (hI.forked.not_busy hn k), fun _ _ _ _ => hn, fun hp => ?_,
        fun hp => (by cases hp), hI.ended, ?_⟩
      · rcases hp with hp | hp | hp <;> cases hp
      · exact hI.settled.mono rfl fun k hd => hpos ▸ hd
    | nextRank hpc htptr =>
      have hn := hI.quiet (.inr (.inl hpc))
      have hpos : Sandbox.pos t.s = none := by rw [pos, hpc, htptr]
      refine ⟨hI.same, hI.uninterrupted, hI.func, hI.forked, fun k hs => absurd hs
        (hI.forked.not_busy hn k), fun p u hp => (by cases hp), fun _ => hn,
        fun hp => (by cases hp), hI.ended, ?_⟩
      exact hI.settled.mono rfl fun k hd => hpos ▸ TO.dealt_rank.mp hd
    | exit _ _ => exact absurd rfl (hne _)
    | interrupt => cases he

/-- At the end of an honest run, the test cases that count as passed have returned success. -/
theorem Trace.Inv.sound (hw : ∀ o ∈ h.objs, o.rank ≤ h.currank) (hI : t.Inv h)
    (hdone : t.s.pc = .done false)
    (ho : t.s.h.objs[i]? = some o) (hpass : o.Passes) : t.endings i = some (.returned success) := by
  have hmem := List.mem_of_getElem? ho
  obtain ⟨p, hp, hrank, -⟩ := hI.same.get ho
  have hn := hI.quiet (.inr (.inr hdone))
  have hlt : t.s.h.currank < t.s.r := by
    refine (hI.done hdone).resolve_right fun hnil => ?_
    rw [hnil] at hmem
    cases hmem
  have hcur : t.s.h.currank = h.currank := hI.same.currank
  have hle := hw p (List.mem_of_getElem? hp)
  rcases hI.settled i o ho ⟨o, ho, .inl (by omega)⟩ with hrun | hne | hret
  · exact absurd hrun (hI.forked.not_busy hn i)
  · exact absurd (passes_iff.mp hpass) hne
  · exact hret

end Sandbox

namespace Simple

/-- Where the test cases are not sandboxed, no process is waited for. -/
theorem not_reaped {α : Type} {k : Kind α} {s s' : State α} {e : Event} (h : Step k s e s')
    (i : Nat) (w : Status) : e ≠ .reaped i w := by
  cases h <;> exact Event.noConfusion

/-- Uninterrupted, a test case that counts as passed has run with success. -/
theorem ran_of_passes {h : TO Case} {es : List Event} {s : State Case} (hw : WellRanked h)
    (hrun : Steps (Step plainCase) (init h) es s) (hint : ∀ e ∈ es, e.Calm)
    (hdone : s.pc = .done) {i : Nat}
    {o : Obj Case} (ho : s.h.objs[i]? = some o) (hpass : o.Passes) : .ran i success ∈ es := by
  have hcalm : Steps (calm (Step plainCase)) (init h) es s := hrun.restrict hint
  have hsame := (hcalm.invariant (I := fun _ s => Inv (fun _ => True) h s)
    (inv_init fun _ _ => trivial)
    fun _ _ _ _ _ hI hstep => hI.step plainCase_sound hstep).same
  have hcomplete := (simple_completes plainCase_sound hw fun _ _ => trivial).complete es s hcalm
    hdone
  have hstatus : s.h.statusOf i = success := (TO.statusOf_eq ho).trans (passes_iff.mp hpass)
  have hlt : i < h.objs.length := by
    rw [← hsame.length]
    exact (List.getElem?_eq_some_iff.mp ho).1
  have hdeps : ∀ j ∈ h.depsOf i, s.h.statusOf j = success := by
    intro j hj
    by_contra hne
    have hskip := (hcomplete.skip i hlt ⟨j, hj, hne⟩).2
    rw [hstatus] at hskip
    exact absurd hskip (by decide)
  obtain ⟨l₁, l₂, hlog, -, -, -, hend⟩ := hcomplete.run i hlt hdeps
  rw [hstatus] at hend
  have hfin : JobEvent.finish i success ∈ es.flatMap Event.jobs := by
    rw [hlog]
    exact List.mem_append_right _ (List.mem_cons_of_mem _ (hend.resolve_left id))
  obtain ⟨e, he, hmem⟩ := List.mem_flatMap.mp hfin
  have hreaped : ∀ e ∈ es, ∀ i w, e ≠ .reaped i w := by
    refine hrun.invariant (I := fun es _ => ∀ e ∈ es, ∀ i w, e ≠ .reaped i w)
      (fun e he => (by cases he)) ?_
    intro es s e s' _ hI hstep e' he'
    rcases List.mem_append.mp he' with he' | he'
    · exact hI e' he'
    · obtain rfl := List.mem_singleton.mp he'
      exact not_reaped hstep
  cases e with
  | ran j w =>
    have heq : i = j ∧ success = w := by simpa [Event.jobs] using hmem
    rwa [heq.1, heq.2]
  | reaped j w => exact absurd rfl (hreaped _ he j w)
  | fork _ _ => simp [Event.jobs] at hmem
  | skip _ => simp [Event.jobs] at hmem
  | _ => cases hmem

end Simple

/-- **A test case that is counted as passed has been executed and has returned success**, as long as
every fork succeeds and no process looks as if it had returned success when it has not.  Without
processes, nothing stands in between. -/
theorem pass_sound {h₀ h : TO Case} (hreg : Registered h₀) (hseq : h₀.sequencer = some h)
    (hnew : ∀ tc ∈ h₀.objs, tc.body = ⟨true, none⟩) :
    (∀ maxParallel es t, Steps (Sandbox.TraceStep maxParallel) (Sandbox.Trace.init h) es t →
      (∀ e ∈ es, e.Honest) → t.s.pc = .done false →
      ∀ i tc, t.s.h.objs[i]? = some tc → tc.Passes → t.endings i = some (.returned success)) ∧
    (∀ es s, Steps (Simple.Step plainCase) (Simple.init h) es s →
      (∀ e ∈ es, e.Calm) → s.pc = .done →
      ∀ i tc, s.h.objs[i]? = some tc → tc.Passes → .ran i success ∈ es) := by
  have hw := TO.wellRanked_of_sequencer hreg hseq
  have hbody : ∀ tc ∈ h.objs, tc.body = ⟨true, none⟩ := by
    intro tc htc
    have hmem : tc.body ∈ h₀.objs.map (·.body) := by
      rw [← TO.sequencer_body hseq]
      exact List.mem_map_of_mem htc
    obtain ⟨tc₀, htc₀, heq⟩ := List.mem_map.mp hmem
    rw [← heq]
    exact hnew tc₀ htc₀
  constructor
  · intro maxParallel es t hrun hhonest hdone i tc htc hpass
    have hinit : (Sandbox.Trace.init h).Inv h :=
      Sandbox.trace_init (fun tc htc => by rw [hbody tc htc]) fun tc htc => by rw [hbody tc htc]
    have hI : t.Inv h := (hrun.restrict hhonest).invariant (I := fun _ t => t.Inv h) hinit
      fun _ _ _ _ _ hI hstep => hI.step hstep.1 hstep.2
    exact hI.sound hw.rank hdone htc hpass
  · intro es s hrun hcalm hdone i tc htc hpass
    exact Simple.ran_of_passes hw hrun hcalm hdone htc hpass

/-- One test case. -/
def single (sequenced : Bool) : TO Case := ⟨0, 0, [⟨"a", sequenced, 0, success, [], ⟨true, none⟩⟩]⟩

theorem registered_single : Registered (single false) := by
  refine ⟨?_, ?_, ?_⟩ <;> decide

theorem sequencer_single : (single false).sequencer = some (single true) := by decide

namespace Sandbox

/-- The scheduler has started what there is to be started. -/
def waiting (h : TO Case) (children : List Child) : State := ⟨h, false, .reap, 0, 1, none, children⟩

/-- The rest of the scheduling of a single test case. -/
theorem steps_waiting {t : Trace} {es : List TraceEvent} {h : TO Case}
    {endings : Nat → Option Ending}
    (hrun : Steps (TraceStep 2) t es ⟨waiting h [], endings⟩) (hn : h.nchildren = 0)
    (hr : h.currank = 0) :
    Steps (TraceStep 2) t (es ++ [.other .tau] ++ [.other .tau] ++ [.other .tau])
      ⟨⟨h, false, .done false, 1, 1, none, []⟩, endings⟩ := by
  have h₁ : Steps (TraceStep 2) t (es ++ [.other .tau])
    ⟨⟨h, false, .reaped, 0, 1, none, []⟩, endings⟩ :=
    hrun.snoc (.other (.reaped rfl hn) fun _ => Event.noConfusion)
  have h₂ : Steps (TraceStep 2) t (es ++ [.other .tau] ++ [.other .tau])
      ⟨⟨h, false, .ranks, 1, 1, none, []⟩, endings⟩ :=
    h₁.snoc (.other (.nextRank rfl rfl) fun _ => Event.noConfusion)
  refine h₂.snoc (.other (.leave rfl (.inl ?_)) fun _ => Event.noConfusion)
  exact hr ▸ Nat.one_pos

theorem steps_enter : Steps (TraceStep 2) (Trace.init (single true)) ([] ++ [.other .tau])
    ⟨⟨single true, false, .scan (some 0), 0, 0, some 0, []⟩, fun _ => none⟩ :=
  Steps.nil.snoc (.other (.enter rfl (Nat.le_refl _) rfl) fun _ => Event.noConfusion)

end Sandbox

/-- A process that returns success. -/
theorem pass_sound_single : ∃ es t, Steps (Sandbox.TraceStep 2)
    (Sandbox.Trace.init (single true)) es t ∧
    t.s.pc = .done false ∧ t.endings 0 = some (.returned success) := by
  have h₁ := Sandbox.steps_enter.snoc (.other (@Sandbox.Step.fork 2 _ 0 _ 7 ⟨rfl, rfl, rfl, rfl⟩ rfl
    fun c hc => (by cases hc)) fun _ => Event.noConfusion)
  have h₂ := h₁.snoc (.other (.exhausted rfl) fun _ => Event.noConfusion)
  have h₃ := h₂.snoc (@Sandbox.TraceStep.ended 2 _ 7 (.returned success) List.mem_cons_self)
  have h₄ := h₃.snoc (.other (@Sandbox.Step.wait 2 _ 7 (.exited success) 0 rfl Nat.one_pos
    List.mem_cons_self rfl)
    fun _ => Event.noConfusion)
  have h₅ := Sandbox.steps_waiting (h := Sandbox.ended (Sandbox.started (single true) 0 7) 0
    (.exited success))
    h₄ rfl rfl
  refine ⟨_, _, h₅, rfl, ?_⟩
  refine (pass_sound registered_single sequencer_single (by decide)).1 2 _ _ h₅ ?_ rfl 0
    _ rfl fun _ => rfl
  simp [Sandbox.TraceEvent.Honest, Event.Calm]

/-- A fork fails, and the test case counts as passed. -/
theorem passes_without_fork : Registered (single false) ∧
    (single false).sequencer = some (single true) ∧
    ∃ es t, Steps (Sandbox.TraceStep 2) (Sandbox.Trace.init (single true)) es t ∧
      (∀ e ∈ es, e.Undisturbed) ∧ t.s.pc = .done false ∧
      ∃ tc, t.s.h.objs[0]? = some tc ∧ tc.Passes ∧ t.endings 0 ≠ some (.returned success) := by
  have h₁ := Sandbox.steps_enter.snoc (.other (@Sandbox.Step.forkFails 2 _ 0 _
    ⟨rfl, rfl, rfl, rfl⟩ rfl)
    fun _ => Event.noConfusion)
  have h₂ := h₁.snoc (.other (.exhausted rfl) fun _ => Event.noConfusion)
  have h₃ := Sandbox.steps_waiting (h := single true) h₂ rfl rfl
  refine ⟨registered_single, sequencer_single, _, _, h₃, ?_, rfl, _, rfl, fun _ => rfl, ?_⟩
  · simp [Sandbox.TraceEvent.Undisturbed]
  · exact (Option.some_ne_none _).symm

end Libu.Test
