/-
# Unit tests (`toolbox/test.c`)

* §1 is the objects.  Test cases and test suites are kept in lists of the same kind and differ in
  their bodies.  A pointer to an object is its position in the list, and NULL is `none`.
* §2 is the sequencer, which ranks the objects by their dependencies.
* §3 is the scheduler of suites and of test cases that are not sandboxed.
* §4 is the scheduler of sandboxed test cases, with the processes they run in.

A scheduler is a machine that goes from statement to statement.  What it has no hand in comes as an
event: whether a fork succeeds, when a process ends and how, which process a wait returns, and when
the user interrupts.  Times and resource usage are left out.
-/
import Libu.Verif.Depend

namespace Libu.Test

open Verif

/-! ## 1. Test objects -/

/-- An exit code, or one of these. -/
abbrev Status := Nat

/-- `U_TEST_SUCCESS` -/
def success : Status := 0

/-- `U_TEST_FAILURE` -/
def failure : Status := 1

/-- `U_TEST_ABORTED` -/
def aborted : Status := 2

/-- `U_TEST_SKIPPED` -/
def skipped : Status := 3

/-- `struct u_test_dep_s`: the label of the object depended on, and the object when resolved. -/
structure Dep where
  id : String
  upref : Option Nat
  deriving DecidableEq

/-- `struct u_test_obj_s` in the structure `α` that contains it. -/
structure Obj (α : Type) where
  id : String
  sequenced : Bool
  rank : Nat
  status : Status
  deps : List Dep
  body : α
  deriving DecidableEq

/-- Generic test objects list header. -/
structure TO (α : Type) where
  currank : Nat
  nchildren : Nat
  objs : List (Obj α)
  deriving DecidableEq

/-- The rest of a test case: whether it has a function, and the process it runs in. -/
structure Case where
  func : Bool
  pid : Option Nat
  deriving DecidableEq

/-- The rest of a test suite. -/
abbrev Suite := TO Case

namespace TO

variable {α : Type}

/-- `LIST_FIRST` -/
def first (h : TO α) : Option Nat := if h.objs.isEmpty then none else some 0

/-- `LIST_NEXT` -/
def next (h : TO α) (i : Nat) : Option Nat := if i + 1 < h.objs.length then some (i + 1) else none

def update (h : TO α) (i : Nat) (f : Obj α → Obj α) : TO α := { h with objs := h.objs.modify i f }

def statusOf (h : TO α) (i : Nat) : Status := (h.objs[i]?.map (·.status)).getD success

/-- `u_test_dep_failed` -/
def depFailed (h : TO α) (deps : List Dep) : Bool :=
  deps.any fun td => td.upref.any fun i => h.statusOf i ≠ success

/-! ## 2. The sequencer -/

/-- `u_test_dep_dry` -/
def depDry (deps : List Dep) : Bool := deps.all (·.upref.isSome)

/-- `u_test_obj_search` -/
def search (h : TO α) (id : String) : Option Nat := h.objs.findIdx? (·.id = id)

/-- `u_test_obj_pick_top`: a test object with no deps, and the depth reached with it. -/
def pickTop (h : TO α) : Option (TO α × String) :=
  (h.objs.find? fun tobj => !tobj.sequenced && depDry tobj.deps).map fun tobj =>
    ({ h with currank := max tobj.rank h.currank }, tobj.id)

/-- Resolve the first dependency on `id`, if there is one. -/
def resolve (id : String) (upref : Option Nat) : List Dep → Option (List Dep)
  | [] => none
  | td :: deps =>
    if td.id = id then some ({ td with upref } :: deps) else (resolve id upref deps).map (td :: ·)

/-- The turn of the loop of `u_test_obj_evict_id` for the object `to`. -/
def evictObj (h : TO α) (id : String) (tobj : Obj α) : Obj α :=
  let tobj := match resolve id (h.search id) tobj.deps with
    | some deps => { tobj with deps, rank := h.currank + 1 }
    | none => tobj
  if tobj.id = id then { tobj with sequenced := true } else tobj

/-- `u_test_obj_evict_id` -/
def evictId (h : TO α) (id : String) : TO α := { h with objs := h.objs.map (h.evictObj id) }

/-- Pick top objects one by one.  Every turn sequences one, so the length of the list is enough
fuel (`pickTop_sequenceLoop`). -/
def sequenceLoop : Nat → TO α → TO α
  | 0, h => h
  | n + 1, h =>
    match h.pickTop with
    | none => h
    | some (h, id) => sequenceLoop n (h.evictId id)

/-- `u_test_obj_sequencer`, for one list.  It fails on a dependency loop. -/
def sequencer (h : TO α) : Option (TO α) :=
  let h := sequenceLoop h.objs.length h
  if h.objs.all (·.sequenced) then some h else none

end TO

/-- `u_test_sequencer`: the test suites, and in each the test cases. -/
def sequencer (t : TO Suite) : Option (TO Suite) := do
  let h ← t.sequencer
  let objs ← h.objs.mapM fun ts => ts.body.sequencer.map fun cases => { ts with body := cases }
  some { h with objs }

/-! ## 3. One by one -/

/-- What happens in a scheduler. -/
inductive Event
  /-- It goes on to the next statement. -/
  | tau
  /-- It skips an object due to a dependency failure. -/
  | skip (i : Nat)
  /-- It has run an object, whose status is then `w`. -/
  | ran (i : Nat) (w : Status)
  /-- It starts a test case in a process. -/
  | fork (i pid : Nat)
  | forkFails (i : Nat)
  /-- A process ends. -/
  | exit (pid : Nat)
  /-- A wait returns a test case's process, which sets its status to `w`. -/
  | reaped (i : Nat) (w : Status)
  /-- A wait returns another process. -/
  | lost (pid : Nat)
  | waitFails
  /-- The user interrupts. -/
  | interrupt

/-- Nobody interrupts, and no system call fails. -/
def Event.Calm : Event → Prop
  | .forkFails _ | .waitFails | .interrupt => False
  | _ => True

/-- What becomes of the jobs. -/
def Event.jobs : Event → List (JobEvent Nat Status)
  | .skip i => [.skip i]
  | .ran i w => [.start i, .finish i w]
  | .fork i _ => [.start i]
  | .reaped i w => [.finish i w]
  | _ => []

/-- What the scheduler needs of the objects of a list: `sched(to)`, from one list to the next, and
what else skipping an object does to it. -/
structure Kind (α : Type) where
  sched : TO α → Nat → TO α → Prop
  skip : α → α

namespace Simple

inductive Pc
  /-- At the test of the loop over the ranks. -/
  | ranks
  /-- At the object `to` of the list. -/
  | scan (tobj : Option Nat)
  | done
  deriving DecidableEq

structure State (α : Type) where
  h : TO α
  interrupted : Bool
  pc : Pc
  r : Nat

variable {α : Type}

/-- A list that is empty is not scheduled. -/
def init (h : TO α) : State α :=
  ⟨{ h with nchildren := 0 }, false, if h.objs.isEmpty then .done else .ranks, 0⟩

/-- `u_test_obj_scheduler` with the simple scheduler. -/
inductive Step (k : Kind α) : State α → Event → State α → Prop
  | enter {s} (hpc : s.pc = .ranks) (hr : s.r ≤ s.h.currank) (hint : s.interrupted = false) :
      Step k s .tau { s with pc := .scan s.h.first }
  | leave {s} (hpc : s.pc = .ranks) (hr : s.h.currank < s.r ∨ s.interrupted = true) :
      Step k s .tau { s with pc := .done }
  | pass {s i tobj} (hpc : s.pc = .scan (some i)) (hto : s.h.objs[i]? = some tobj)
    (hr : tobj.rank ≠ s.r) :
      Step k s .tau { s with pc := .scan (s.h.next i) }
  | skip {s i tobj} (hpc : s.pc = .scan (some i)) (hto : s.h.objs[i]? = some tobj)
    (hr : tobj.rank = s.r)
      (hfail : s.h.depFailed tobj.deps = true) :
      Step k s (.skip i) { s with
        h := s.h.update i fun tobj => { tobj with status := skipped, body := k.skip tobj.body }
        pc := .scan (s.h.next i) }
  | run {s i tobj h'} (hpc : s.pc = .scan (some i)) (hto : s.h.objs[i]? = some tobj)
      (hr : tobj.rank = s.r) (hfail : s.h.depFailed tobj.deps = false) (hsched : k.sched s.h i h') :
      Step k s (.ran i (h'.statusOf i)) { s with h := h', pc := .scan (s.h.next i) }
  | exhausted {s} (hpc : s.pc = .scan none) : Step k s .tau { s with pc := .ranks, r := s.r + 1 }
  | interrupt {s} : Step k s .interrupt { s with interrupted := true }

end Simple

/-- Test cases that are not sandboxed: `u_test_case_exec` calls the function. -/
def plainCase : Kind Case where
  sched h i h' := ∃ tc, h.objs[i]? = some tc ∧
    if tc.body.func then ∃ rc, h' = h.update i fun tc => { tc with status := rc } else h' = h
  skip := id

/-! ## 4. In processes -/

namespace Sandbox

/-- How a process ends: with the code it gives to `exit`, or by a signal.  That it stops is not
reported to a wait without `WUNTRACED`. -/
inductive Outcome
  | exited (code : Nat)
  | signaled
  deriving DecidableEq

/-- The status of a test case when its process has ended.  `WEXITSTATUS` has the low eight bits. -/
def Outcome.status : Outcome → Status
  | .exited code => code % 256
  | .signaled => aborted

/-- A child process that was not waited for. -/
structure Child where
  pid : Nat
  ended : Option Outcome
  deriving DecidableEq

inductive Pc
  /-- At the test of the loop over the ranks. -/
  | ranks
  /-- At the object `to` of the list. -/
  | scan (tobj : Option Nat)
  /-- In `u_test_cases_reap`. -/
  | reap
  /-- Behind it. -/
  | reaped
  | done (failed : Bool)
  deriving DecidableEq

structure State where
  h : TO Case
  interrupted : Bool
  pc : Pc
  r : Nat
  /-- The test cases in the present chunk. -/
  parallel : UInt32
  /-- Where to go on after the chunk. -/
  tptr : Option Nat
  children : List Child

def init (h : TO Case) : State :=
  ⟨{ h with nchildren := 0 }, false, if h.objs.isEmpty then .done false else .ranks, 0, 0, none, []⟩

/-- `u_test_cases_search_by_pid` -/
def searchByPid (h : TO Case) (pid : Nat) : Option Nat := h.objs.findIdx? (·.body.pid = some pid)

/-- The objects list after a fork. -/
def started (h : TO Case) (i pid : Nat) : TO Case :=
  { h.update i fun tc => { tc with body := { tc.body with pid := some pid } } with
    nchildren := h.nchildren + 1 }

/-- The objects list after a wait. -/
def ended (h : TO Case) (i : Nat) (o : Outcome) : TO Case :=
  { h.update i fun tc => { tc with status := o.status, body := { tc.body with pid := none } } with
    nchildren := h.nchildren - 1 }

/-- The processes without one of them. -/
def without (children : List Child) (pid : Nat) : List Child := children.filter (·.pid ≠ pid)

/-- After `sched(to)`: the test case counts, and may be the last of its chunk. -/
def scheduled (maxParallel : UInt32) (s : State) (i : Nat) : State :=
  let s := { s with parallel := s.parallel + 1 }
  if s.parallel = maxParallel then { s with tptr := s.h.next i, pc := .reap }
  else { s with tptr := none, pc := .scan (s.h.next i) }

/-- The scheduler is at a test case that it does not skip. -/
structure At (s : State) (i : Nat) (tc : Obj Case) : Prop where
  pc : s.pc = .scan (some i)
  obj : s.h.objs[i]? = some tc
  rank : tc.rank = s.r
  deps : s.h.depFailed tc.deps = false

/-- `u_test_obj_scheduler` with the scheduler of sandboxed test cases, and the processes. -/
inductive Step (maxParallel : UInt32) : State → Event → State → Prop
  | enter {s} (hpc : s.pc = .ranks) (hr : s.r ≤ s.h.currank) (hint : s.interrupted = false) :
      Step maxParallel s .tau { s with pc := .scan s.h.first, tptr := s.h.first }
  | leave {s} (hpc : s.pc = .ranks) (hr : s.h.currank < s.r ∨ s.interrupted = true) :
      Step maxParallel s .tau { s with pc := .done false }
  | pass {s i tobj} (hpc : s.pc = .scan (some i)) (hto : s.h.objs[i]? = some tobj)
    (hr : tobj.rank ≠ s.r) :
      Step maxParallel s .tau { s with pc := .scan (s.h.next i), tptr := none }
  -- a test case that is skipped leaves `tptr` alone
  | skip {s i tobj} (hpc : s.pc = .scan (some i)) (hto : s.h.objs[i]? = some tobj)
    (hr : tobj.rank = s.r)
      (hfail : s.h.depFailed tobj.deps = true) :
      Step maxParallel s (.skip i) { s with
        h := s.h.update i fun tc => { tc with status := skipped }
        pc := .scan (s.h.next i) }
  | noFunc {s i tc} (hat : At s i tc) (hfunc : tc.body.func = false) :
      Step maxParallel s (.ran i tc.status) (scheduled maxParallel s i)
  | fork {s i tc pid} (hat : At s i tc) (hfunc : tc.body.func = true)
      (hpid : ∀ c ∈ s.children, c.pid ≠ pid) :
      Step maxParallel s (.fork i pid) (scheduled maxParallel { s with
        h := started s.h i pid
        children := ⟨pid, none⟩ :: s.children } i)
  | forkFails {s i tc} (hat : At s i tc) (hfunc : tc.body.func = true) :
      Step maxParallel s (.forkFails i) (scheduled maxParallel s i)
  | exhausted {s} (hpc : s.pc = .scan none) : Step maxParallel s .tau { s with pc := .reap }
  | wait {s pid o i} (hpc : s.pc = .reap) (hn : 0 < s.h.nchildren)
      (hchild : (⟨pid, some o⟩ : Child) ∈ s.children) (hi : searchByPid s.h pid = some i) :
      Step maxParallel s (.reaped i o.status)
        { s with h := ended s.h i o, children := without s.children pid }
  | lost {s pid o} (hpc : s.pc = .reap) (hn : 0 < s.h.nchildren)
      (hchild : (⟨pid, some o⟩ : Child) ∈ s.children) (hi : searchByPid s.h pid = none) :
      Step maxParallel s (.lost pid) { s with children := without s.children pid }
  | waitFails {s} (hpc : s.pc = .reap) (hn : 0 < s.h.nchildren) :
      Step maxParallel s .waitFails { s with pc := .done true }
  | reaped {s} (hpc : s.pc = .reap) (hn : s.h.nchildren = 0) :
      Step maxParallel s .tau { s with pc := .reaped }
  | resched {s i} (hpc : s.pc = .reaped) (htptr : s.tptr = some i) :
      Step maxParallel s .tau { s with parallel := 0, pc := .scan s.tptr }
  | nextRank {s} (hpc : s.pc = .reaped) (htptr : s.tptr = none) :
      Step maxParallel s .tau { s with pc := .ranks, r := s.r + 1 }
  | exit {s pid} (o : Outcome) (hchild : (⟨pid, none⟩ : Child) ∈ s.children) :
      Step maxParallel s (.exit pid)
        { s with children := ⟨pid, some o⟩ :: without s.children pid }
  | interrupt {s} : Step maxParallel s .interrupt { s with interrupted := true }

end Sandbox

/-- Test suites: `u_test_suite_scheduler` schedules the test cases of one (here without being
interrupted), and its status is a failure unless they all succeed.  Skipping it skips them. -/
def suite (sandboxed : Bool) (maxParallel : UInt32) : Kind Suite where
  sched h i h' := ∃ ts cases, h.objs[i]? = some ts ∧
    (if sandboxed then ∃ es s failed, Steps (Sandbox.Step maxParallel) (Sandbox.init ts.body) es s ∧
        s.pc = .done failed ∧ s.interrupted = false ∧ cases = s.h
      else ∃ es s, Steps (Simple.Step plainCase) (Simple.init ts.body) es s ∧ s.pc = .done ∧
        s.interrupted = false ∧ cases = s.h) ∧
    h' = h.update i fun ts => { ts with
      body := cases
      status := if cases.objs.all (·.status = success) then ts.status else failure }
  skip cases := { cases with objs := cases.objs.map fun tc => { tc with status := skipped } }

end Libu.Test
