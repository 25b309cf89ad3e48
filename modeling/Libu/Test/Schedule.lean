/-
# The scheduler of sandboxed test cases

The scheduler walks through the list as the simple one does, forking a process for each test case
until the chunk is full, then it waits for all of them, and takes the walk up again where it has
left it.  What is shown is that it does its work under one condition, and that this condition is the
weakest: it must not be left with a chunk of nothing but test cases to be skipped (`Stranded`),
since such test cases do not clear the restart pointer, and the walk is then taken up at the same
place for ever.

All runs are calm ones: nobody interrupts the scheduler, and no system call fails.  The processes
end in any order, and the system may choose any number for them that is not in use.

* §1: the processes and the test cases that run in them.
* §2: what is true of the scheduler as long as it is calm.
* §3: its steps as runs of the jobs.
* §4: it comes to an end, unless it restarts a chunk where nothing but test cases to be skipped is
  left.  As such cases do not clear the restart pointer, it then restarts there forever.
* §5: suites.
-/
import Libu.Test.Walk
import Libu.Test.Parallel

namespace Libu.Test

open Verif

/-! ## 1. Processes -/

namespace Sandbox

variable {maxParallel : UInt32} {h h₀ : TO Case} {s s' : State} {e : Event}
    {f : Obj Case → Obj Case}
  {o tc : Obj Case} {i j k n p pid r : Nat} {oc : Outcome} {children : List Child}

/-- The process a test case runs in. -/
def pidOf (h : TO Case) (k : Nat) : Option Nat := h.objs[k]?.bind (·.body.pid)

theorem pidOf_eq (ho : h.objs[k]? = some o) : pidOf h k = o.body.pid := by
  rw [pidOf, ho, Option.bind_some]

/-- The processes of the other test cases stay. -/
theorem pidOf_update_ne (hne : k ≠ i) : pidOf (h.update i f) k = pidOf h k := by
  rw [pidOf, TO.get_update, if_neg hne.symm, pidOf]

theorem pidOf_update_self (ho : h.objs[i]? = some o) : pidOf (h.update i f) i = (f o).body.pid := by
  rw [pidOf, TO.get_update, if_pos rfl, ho]
  rfl

/-- What keeps the process of every object keeps it in the list. -/
theorem pidOf_update (hf : ∀ o, (f o).body.pid = o.body.pid) :
    pidOf (h.update i f) k = pidOf h k := by
  rw [pidOf, TO.get_update]
  split
  · rw [Option.bind_map, Function.comp_def, pidOf]
    simp only [hf]
  · rfl

/-- A test case that is started has its process, and nothing else is changed. -/
theorem pidOf_started (ho : h.objs[i]? = some o) :
    pidOf (started h i pid) k = if k = i then some pid else pidOf h k := by
  split
  · next heq =>
    rw [heq]
    exact pidOf_update_self (f := fun tc => { tc with body := { tc.body with pid := some pid } }) ho
  · next hne => exact pidOf_update_ne hne

/-- A test case that has ended has no process any more. -/
theorem pidOf_ended (ho : h.objs[i]? = some o) :
    pidOf (ended h i oc) k = if k = i then none else pidOf h k := by
  split
  · next heq =>
    rw [heq]
    exact pidOf_update_self
      (f := fun tc => { tc with status := oc.status, body := { tc.body with pid := none } }) ho
  · next hne => exact pidOf_update_ne hne

/-- The search finds a test case with the process. -/
theorem searchByPid_some (hi : searchByPid h pid = some i) :
    ∃ o : Obj Case, h.objs[i]? = some o ∧ pidOf h i = some pid := by
  obtain ⟨hlt, hp, -⟩ := List.findIdx?_eq_some_iff_getElem.mp hi
  have ho : h.objs[i]? = some h.objs[i] := List.getElem?_eq_getElem hlt
  exact ⟨_, ho, (pidOf_eq ho).trans (of_decide_eq_true hp)⟩

/-- Where a test case has the process, the search finds one. -/
theorem searchByPid_isSome (hk : pidOf h k = some pid) : searchByPid h pid ≠ none := by
  intro hnone
  obtain ⟨o, ho, hpid⟩ := Option.bind_eq_some_iff.mp hk
  have hno := List.findIdx?_eq_none_iff.mp hnone o (List.mem_of_getElem? ho)
  rw [hpid] at hno
  simp at hno

/-- A process that is not waited for any more is gone from the list, and no other is. -/
theorem mem_without {c : Child} : c ∈ without children pid ↔ c ∈ children ∧ c.pid ≠ pid := by
  rw [without, List.mem_filter, decide_eq_true_eq]

/-- One process less, in every count. -/
theorem countP_without {c : Child} (P : Child → Bool) : ∀ {children : List Child},
    (children.map (·.pid)).Nodup → c ∈ children →
    (without children c.pid).countP P + (if P c then 1 else 0) = children.countP P
  | d :: children, hnd, hc => by
    rw [List.map_cons, List.nodup_cons] at hnd
    obtain ⟨hd, hnd⟩ := hnd
    rw [without, List.filter_cons]
    split
    · next hne =>
      have hne : d.pid ≠ c.pid := of_decide_eq_true hne
      have hmem : c ∈ children := (List.mem_cons.mp hc).resolve_left fun heq => hne (heq ▸ rfl)
      have hrest := countP_without P hnd hmem
      rw [List.countP_cons, List.countP_cons, ← hrest, without]
      exact Nat.add_right_comm _ _ _
    · next heq =>
      have heq : d.pid = c.pid := by simpa using heq
      have hnot : c ∉ children := fun hmem => hd (heq ▸ List.mem_map_of_mem hmem)
      obtain rfl := (List.mem_cons.mp hc).resolve_right hnot
      have hall : children.filter (·.pid ≠ c.pid) = children := by
        refine List.filter_eq_self.mpr fun x hx => decide_eq_true fun hxc => hd ?_
        rw [← hxc]
        exact List.mem_map_of_mem hx
      rw [hall, List.countP_cons]

/-- The list is shorter by one. -/
theorem length_without {c : Child} (hnd : (children.map (·.pid)).Nodup) (hc : c ∈ children) :
    (without children c.pid).length + 1 = children.length := by
  have hcount := countP_without (fun _ => true) hnd hc
  rwa [List.countP_true, if_pos rfl] at hcount

/-- No two processes have one number, also when one is gone. -/
theorem nodup_without (hnd : (children.map (·.pid)).Nodup) :
    ((without children pid).map (·.pid)).Nodup :=
  hnd.sublist (List.filter_sublist.map _)

/-- The processes are those of the test cases. -/
structure Forked (h : TO Case) (children : List Child) : Prop where
  child : ∀ c ∈ children, ∃ k, pidOf h k = some c.pid
  test : ∀ k p, pidOf h k = some p → ∃ c ∈ children, c.pid = p
  inj : ∀ j k p, pidOf h j = some p → pidOf h k = some p → j = k
  nodup : (children.map (·.pid)).Nodup
  count : h.nchildren = children.length

/-- Without a process no test case runs. -/
theorem Forked.quiet (hF : Forked h children) (hn : h.nchildren = 0) (k : Nat) :
    pidOf h k = none := by
  cases hk : pidOf h k with
  | none => rfl
  | some p =>
    obtain ⟨c, hc, -⟩ := hF.test k p hk
    rw [List.length_eq_zero_iff.mp (hF.count.symm.trans hn)] at hc
    cases hc

theorem Forked.not_busy (hF : Forked h children) (hn : h.nchildren = 0) (k : Nat) :
    ¬ (pidOf h k).isSome := by
  rw [hF.quiet hn k]
  exact Bool.false_ne_true

/-- Nothing but the status of a test case changes. -/
theorem Forked.update (hF : Forked h children) (hf : ∀ o, (f o).body.pid = o.body.pid) :
    Forked (h.update i f) children := by
  refine ⟨fun c hc => ?_, fun k p hk => ?_, fun j k p hj hk => ?_, hF.nodup, hF.count⟩
  · obtain ⟨k, hk⟩ := hF.child c hc
    exact ⟨k, (pidOf_update hf).trans hk⟩
  · exact hF.test k p ((pidOf_update hf).symm.trans hk)
  · exact hF.inj j k p ((pidOf_update hf).symm.trans hj) ((pidOf_update hf).symm.trans hk)

/-- A new process, with a number that is not in use, and its test case. -/
theorem Forked.started (hF : Forked h children) (ho : h.objs[i]? = some o) (hi : pidOf h i = none)
    (hpid : ∀ c ∈ children, c.pid ≠ pid) : Forked (started h i pid) (⟨pid, none⟩ :: children) := by
  have hfresh : ∀ k, pidOf h k ≠ some pid := fun k hk => by
    obtain ⟨c, hc, heq⟩ := hF.test k pid hk
    exact hpid c hc heq
  refine ⟨fun c hc => ?_, fun k p hk => ?_, fun j k p hj hk => ?_, ?_, ?_⟩
  · rcases List.mem_cons.mp hc with rfl | hc
    · exact ⟨i, by rw [pidOf_started ho, if_pos rfl]⟩
    · obtain ⟨k, hk⟩ := hF.child c hc
      have hne : k ≠ i := by
        rintro rfl
        cases hi.symm.trans hk
      exact ⟨k, by rw [pidOf_started ho, if_neg hne, hk]⟩
  · rw [pidOf_started ho] at hk
    split at hk
    · obtain rfl := Option.some.inj hk
      exact ⟨_, List.mem_cons_self, rfl⟩
    · obtain ⟨c, hc, heq⟩ := hF.test k p hk
      exact ⟨c, List.mem_cons_of_mem _ hc, heq⟩
  · rw [pidOf_started ho] at hj hk
    split at hj <;> split at hk
    · next hji hki => rw [hji, hki]
    · obtain rfl := Option.some.inj hj
      exact absurd hk (hfresh k)
    · obtain rfl := Option.some.inj hk
      exact absurd hj (hfresh j)
    · exact hF.inj j k p hj hk
  · rw [List.map_cons, List.nodup_cons]
    refine ⟨fun hmem => ?_, hF.nodup⟩
    obtain ⟨c, hc, heq⟩ := List.mem_map.mp hmem
    exact hpid c hc heq
  · exact congrArg (· + 1) hF.count

/-- A process that is gone, and its test case. -/
theorem Forked.ended {c : Child} (hF : Forked h children) (hc : c ∈ children)
    (hi : searchByPid h c.pid = some i) : Forked (ended h i oc) (without children c.pid) := by
  obtain ⟨o, ho, hpid⟩ := searchByPid_some hi
  refine ⟨fun d hd => ?_, fun k p hk => ?_, fun j k p hj hk => ?_, nodup_without hF.nodup, ?_⟩
  · obtain ⟨hd, hne⟩ := mem_without.mp hd
    obtain ⟨k, hk⟩ := hF.child d hd
    have hki : k ≠ i := by
      rintro rfl
      exact hne (Option.some.inj (hk.symm.trans hpid))
    exact ⟨k, by rw [pidOf_ended ho, if_neg hki, hk]⟩
  · rw [pidOf_ended ho] at hk
    split at hk
    · cases hk
    · next hki =>
      obtain ⟨d, hd, rfl⟩ := hF.test k p hk
      exact ⟨d, mem_without.mpr ⟨hd, fun heq => hki (hF.inj k i _ hk (heq ▸ hpid))⟩, rfl⟩
  · rw [pidOf_ended ho] at hj hk
    split at hj
    · cases hj
    · split at hk
      · cases hk
      · exact hF.inj j k p hj hk
  · have hlen := length_without hF.nodup hc
    have hcount : (Sandbox.ended h i oc).nchildren = h.nchildren - 1 := rfl
    rw [hcount, hF.count, ← hlen, Nat.add_sub_cancel]

/-- A process that ends is still to be waited for. -/
theorem Forked.exit (hF : Forked h children) (hchild : (⟨pid, none⟩ : Child) ∈ children) :
    Forked h (⟨pid, some oc⟩ :: without children pid) := by
  refine ⟨fun c hc => ?_, fun k p hk => ?_, hF.inj, ?_, ?_⟩
  · rcases List.mem_cons.mp hc with rfl | hc
    · obtain ⟨k, hk⟩ := hF.child _ hchild
      exact ⟨k, hk⟩
    · exact hF.child c (mem_without.mp hc).1
  · obtain ⟨c, hc, rfl⟩ := hF.test k p hk
    by_cases heq : c.pid = pid
    · exact ⟨_, List.mem_cons_self, heq.symm⟩
    · exact ⟨c, List.mem_cons_of_mem _ (mem_without.mpr ⟨hc, heq⟩), rfl⟩
  · rw [List.map_cons, List.nodup_cons]
    refine ⟨fun hmem => ?_, nodup_without hF.nodup⟩
    obtain ⟨c, hc, heq⟩ := List.mem_map.mp hmem
    exact (mem_without.mp hc).2 heq
  · rw [List.length_cons]
    exact hF.count.trans (length_without hF.nodup hchild).symm

/-! ## 2. A calm scheduler -/

/-- Where the walk through the rank is, or goes on. -/
def pos (s : State) : Option Nat :=
  match s.pc with
  | .scan p => p
  | .reap | .reaped => s.tptr
  | _ => some 0

/-- The test case is to be skipped at the rank `r`. -/
def Idle (h : TO Case) (r k : Nat) : Prop :=
  ∀ o : Obj Case, h.objs[k]? = some o → o.rank = r ∧ h.depFailed o.deps = true

/-- A chunk is restarted where nothing but test cases to be skipped is left. -/
structure Stranded (s : State) (t : Nat) : Prop where
  pc : s.pc = .reaped
  tptr : s.tptr = some t
  idle : ∀ k, t ≤ k → Idle s.h s.r k

/-- The calm steps from states that are not stranded. -/
def FreeStep (maxParallel : UInt32) (s : State) (e : Event) (s' : State) : Prop :=
  calm (Step maxParallel) s e s' ∧ ∀ t, ¬ Stranded s t

/-- What is true of the scheduler as long as it is calm and not stranded. -/
structure Inv (h₀ : TO Case) (s : State) : Prop where
  same : TO.Same h₀ s.h
  uninterrupted : s.interrupted = false
  forked : Forked s.h s.children
  busy : ∀ (k : Nat) (o : Obj Case), s.h.objs[k]? = some o → (pidOf s.h k).isSome →
    o.rank = s.r ∧ TO.passed (pos s) k
  scan : ∀ p, s.pc = .scan p → s.r ≤ s.h.currank ∧ ∀ i ∈ p, i < s.h.objs.length
  chunk : s.pc = .reap ∨ s.pc = .reaped → s.r ≤ s.h.currank ∧ ∀ t ∈ s.tptr, t < s.h.objs.length
  quiet : s.pc = .ranks ∨ s.pc = .reaped ∨ s.pc = .done false → s.h.nchildren = 0
  done : ∀ b, s.pc = .done b → b = false ∧ (s.h.currank < s.r ∨ s.h.objs = [])
  -- what the walk has passed without clearing `tptr` was skipped, and that is not all there is
  live : ∀ p t, s.pc = .scan p → s.tptr = some t →
    (∀ k, t ≤ k → TO.passed p k → Idle s.h s.r k) ∧ ∃ k, t ≤ k ∧ ¬ Idle s.h s.r k

/-- Behind the end of the list there is nothing to be started. -/
theorem idle_of_le (hk : h.objs.length ≤ k) : Idle h r k := by
  intro o ho
  rw [List.getElem?_eq_none hk] at ho
  cases ho

/-- Whether a dependency has failed is a matter of the status of what is depended on. -/
theorem depFailed_congr {h' : TO Case} : ∀ {deps : List Dep},
    (∀ td ∈ deps, ∀ j ∈ td.upref, h'.statusOf j = h.statusOf j) →
    h'.depFailed deps = h.depFailed deps
  | [], _ => rfl
  | td :: deps, hstatus => by
    have hrest := depFailed_congr fun td htd => hstatus td (List.mem_cons_of_mem _ htd)
    rw [TO.depFailed, TO.depFailed] at hrest
    rw [TO.depFailed, TO.depFailed, List.any_cons, List.any_cons, hrest]
    congr 1
    cases hup : td.upref with
    | none => rfl
    | some j => rw [Option.any_some, Option.any_some, hstatus td List.mem_cons_self j hup]

/-- Whether a test case is skipped does not depend on its own rank. -/
theorem idle_update (hw : WellRanked h) (ho : h.objs[i]? = some o) (hr : o.rank = r)
    (hf : TO.Keeps f) : Idle (h.update i f) r k ↔ Idle h r k := by
  have hfail : ∀ {q : Obj Case}, h.objs[k]? = some q → q.rank = r →
      (h.update i f).depFailed q.deps = h.depFailed q.deps := by
    intro q hq hrank
    have hstatus : ∀ td ∈ q.deps, ∀ j ∈ td.upref, (h.update i f).statusOf j = h.statusOf j := by
      intro td htd j hj
      obtain ⟨j', p, hup, hp, hlt⟩ := hw.deps k q hq td htd
      obtain rfl := Option.some.inj ((Option.mem_def.mp hj).symm.trans hup)
      refine TO.statusOf_update_ne ?_
      rintro rfl
      obtain rfl := Option.some.inj (ho.symm.trans hp)
      omega
    exact depFailed_congr hstatus
  constructor
  · intro hidle q hq
    have hget := TO.get_update h i k f
    rw [hq] at hget
    split at hget
    · obtain ⟨hrank, hdep⟩ := hidle _ hget
      rw [(hf q).1] at hrank
      rw [(hf q).2, hfail hq hrank] at hdep
      exact ⟨hrank, hdep⟩
    · obtain ⟨hrank, hdep⟩ := hidle _ hget
      rw [hfail hq hrank] at hdep
      exact ⟨hrank, hdep⟩
  · intro hidle q hq
    rw [TO.get_update] at hq
    split at hq
    · obtain ⟨q', hq', rfl⟩ := Option.map_eq_some_iff.mp hq
      obtain ⟨hrank, hdep⟩ := hidle q' hq'
      rw [(hf q').1, (hf q').2, hfail hq' hrank]
      exact ⟨hrank, hdep⟩
    · obtain ⟨hrank, hdep⟩ := hidle q hq
      rw [hfail hq hrank]
      exact ⟨hrank, hdep⟩

/-- A rank does not consist of test cases to be skipped. -/
theorem exists_not_idle (hw : WellRanked h) (hne : 0 < h.objs.length) :
    ∃ k, 0 ≤ k ∧ ¬ Idle h r k := by
  by_contra hno
  have hall : ∀ k, Idle h r k := fun k => by
    by_contra hk
    exact hno ⟨k, Nat.zero_le k, hk⟩
  have ho : h.objs[0]? = some h.objs[0] := List.getElem?_eq_getElem hne
  obtain ⟨hrank, hfail⟩ := hall 0 _ ho
  obtain ⟨j, hj, -⟩ := (TO.depFailed_iff ho).mp hfail
  obtain ⟨p, hp, hlt⟩ := TO.rank_lt_of_mem_depsOf hw ho hj
  have hpr := (hall j p hp).1
  omega

theorem init_pc (h : TO Case) : (init h).pc = .ranks ∨
    (h.objs = [] ∧ (init h).pc = .done false) := by
  rw [init]
  dsimp only
  split
  · next hemp => exact .inr ⟨List.isEmpty_iff.mp hemp, rfl⟩
  · exact .inl rfl

theorem pos_init (h : TO Case) : pos (init h) = some 0 := by
  rcases init_pc h with hpc | ⟨-, hpc⟩ <;> rw [pos, hpc]

theorem same_started : TO.Same h (started h i pid) :=
  ⟨rfl, (TO.same_update (f := fun tc : Obj Case =>
    { tc with body := { tc.body with pid := some pid } })
    fun _ => ⟨rfl, rfl⟩).objs⟩

theorem same_ended : TO.Same h (ended h i oc) :=
  ⟨rfl, (TO.same_update (f := fun tc : Obj Case =>
    { tc with status := oc.status, body := { tc.body with pid := none } }) fun _ => ⟨rfl,
    rfl⟩).objs⟩

/-- The invariant holds at the start. -/
theorem inv_init (hpid : ∀ o ∈ h₀.objs, o.body.pid = none) : Inv h₀ (init h₀) := by
  have hnone : ∀ k, pidOf h₀ k = none := by
    intro k
    rw [pidOf, Option.bind_eq_none_iff]
    exact fun o ho => hpid o (List.mem_of_getElem? ho)
  have hpc := init_pc h₀
  refine ⟨⟨rfl, rfl⟩, rfl, ⟨fun c hc => (by cases hc), fun k p hk => ?_, fun j k p hj => ?_, .nil,
    rfl⟩, fun k o _ hs => ?_, fun p hp => ?_, fun hp => ?_, fun _ => rfl, fun b hp => ?_,
    fun p t hp => ?_⟩
  · cases (hnone k).symm.trans hk
  · cases (hnone j).symm.trans hj
  · rw [show pidOf (init h₀).h k = none from hnone k] at hs
    cases hs
  · rcases hpc with heq | ⟨-, heq⟩ <;> cases heq.symm.trans hp
  · rcases hp with hp | hp <;> rcases hpc with heq | ⟨-, heq⟩ <;> cases heq.symm.trans hp
  · rcases hpc with heq | ⟨hnil, heq⟩
    · cases heq.symm.trans hp
    · cases heq.symm.trans hp
      exact ⟨rfl, .inr hnil⟩
  · rcases hpc with heq | ⟨-, heq⟩ <;> cases heq.symm.trans hp

/-- The test case that the walk is at has no process. -/
theorem Inv.free (hI : Inv h₀ s) (hpc : s.pc = .scan (some i)) (ho : s.h.objs[i]? = some o) :
    pidOf s.h i = none := by
  cases hp : pidOf s.h i with
  | none => rfl
  | some p =>
    obtain ⟨-, hpass⟩ := hI.busy i o ho (by rw [hp]; rfl)
    rw [pos, hpc] at hpass
    exact absurd (hpass i rfl) (Nat.lt_irrefl i)

/-- What the walk has passed, it has passed when it goes on. -/
theorem Inv.passed_next (hI : Inv h₀ s) (hpc : s.pc = .scan (some i)) (ho : s.h.objs[k]? = some o)
    (hs : (pidOf s.h k).isSome) : o.rank = s.r ∧ TO.passed (s.h.next i) k := by
  obtain ⟨hrank, hpass⟩ := hI.busy k o ho hs
  rw [pos, hpc] at hpass
  exact ⟨hrank, (TO.passed_next (List.getElem?_eq_some_iff.mp ho).1).mpr (.inr hpass)⟩

/-- At the end of the list, there is nothing to be restarted. -/
theorem Inv.tptr_eq_none (hI : Inv h₀ s) (hpc : s.pc = .scan none) : s.tptr = none := by
  cases ht : s.tptr with
  | none => rfl
  | some t =>
    obtain ⟨hidle, k, hle, hk⟩ := hI.live none t hpc ht
    exact absurd (hidle k hle fun _ hnone => by cases hnone) hk

/-- A test case is scheduled, and the chunk is full or not. -/
theorem scheduled_cases (maxParallel : UInt32) (s : State) (i : Nat) : ∃ m,
    scheduled maxParallel s i = { s with parallel := m, tptr := s.h.next i, pc := .reap } ∨
    scheduled maxParallel s i =
      { s with parallel := m, tptr := none, pc := .scan (s.h.next i) } := by
  rw [scheduled]
  dsimp only
  split
  · exact ⟨_, .inl rfl⟩
  · exact ⟨_, .inr rfl⟩

/-- A test case that has been scheduled, be it skipped or started: the walk goes on, or it waits
because the chunk is full. -/
theorem inv_scheduled (hsame : TO.Same h₀ s.h) (hint : s.interrupted = false)
    (hF : Forked s.h s.children) (hr : s.r ≤ s.h.currank)
    (hbusy : ∀ (k : Nat) (o : Obj Case), s.h.objs[k]? = some o → (pidOf s.h k).isSome →
      o.rank = s.r ∧ TO.passed (s.h.next i) k) : Inv h₀ (scheduled maxParallel s i) := by
  obtain ⟨m, heq | heq⟩ := scheduled_cases maxParallel s i
  · rw [heq]
    refine ⟨hsame, hint, hF, hbusy, fun p hp => (by cases hp),
      fun _ => ⟨hr, fun t ht => TO.next_lt ht⟩, fun hp => ?_, fun b hp => (by cases hp),
      fun p t hp => (by cases hp)⟩
    rcases hp with hp | hp | hp <;> cases hp
  · rw [heq]
    refine ⟨hsame, hint, hF, hbusy, fun p hp => ?_, fun hp => ?_, fun hp => ?_,
      fun b hp => (by cases hp), fun p t _ ht => (by cases ht)⟩
    · obtain rfl := Pc.scan.inj hp
      exact ⟨hr, fun t ht => TO.next_lt ht⟩
    · rcases hp with hp | hp <;> cases hp
    · rcases hp with hp | hp | hp <;> cases hp

/-- The walk through a rank starts at the first test case, and not all of them are to be skipped. -/
theorem Inv.enter (hw : WellRanked h₀) (hI : Inv h₀ s) (hpc : s.pc = .ranks)
    (hr : s.r ≤ s.h.currank) : Inv h₀ { s with pc := .scan s.h.first, tptr := s.h.first } := by
  have hn := hI.quiet (.inl hpc)
  refine ⟨hI.same, hI.uninterrupted, hI.forked, fun k _ _ hs => absurd hs
    (hI.forked.not_busy hn k), fun p hp => ?_, fun hp => ?_, fun hp => ?_,
    fun b hp => (by cases hp), fun p t hp ht => ?_⟩
  · obtain rfl := Pc.scan.inj hp
    exact ⟨hr, fun _ => TO.first_lt⟩
  · rcases hp with hp | hp <;> cases hp
  · rcases hp with hp | hp | hp <;> cases hp
  · obtain rfl := Pc.scan.inj hp
    have hlt := TO.first_lt ht
    have hzero : t = 0 := by
      have hfirst : s.h.first = some t := ht
      rw [TO.first] at hfirst
      split at hfirst
      · cases hfirst
      · exact (Option.some.inj hfirst).symm
    subst hzero
    exact ⟨fun k _ hpass => absurd (hpass 0 ht) (Nat.not_lt_zero k),
      exists_not_idle (hI.same.wellRanked hw) hlt⟩

/-- A test case that is skipped changes its status only, which no test case of its rank looks at. -/
theorem Inv.skip (hw : WellRanked h₀) (hI : Inv h₀ s) (hpc : s.pc = .scan (some i))
    (ho : s.h.objs[i]? = some tc) (hr : tc.rank = s.r) (hfail : s.h.depFailed tc.deps = true) :
    Inv h₀ { s with
      h := s.h.update i fun tc => { tc with status := skipped }
      pc := .scan (s.h.next i) } := by
  have hws := hI.same.wellRanked hw
  have hkeeps : TO.Keeps fun tc : Obj Case => { tc with status := skipped } := fun _ => ⟨rfl, rfl⟩
  refine ⟨hI.same.trans (TO.same_update hkeeps), hI.uninterrupted, hI.forked.update fun _ => rfl,
    fun k o ho hs => ?_, fun p hp => ?_, fun hp => ?_, fun hp => ?_, fun b hp => (by cases hp),
    fun p t hp ht => ?_⟩
  · obtain ⟨q, hq, hrank, -⟩ := (TO.same_update hkeeps).get ho
    have hs' : (pidOf s.h k).isSome := by
      rwa [pidOf_update (f := fun tc => { tc with status := skipped }) fun _ => rfl] at hs
    rw [← hrank]
    exact hI.passed_next hpc hq hs'
  · obtain rfl := Pc.scan.inj hp
    refine ⟨(hI.scan _ hpc).1, fun j hj => ?_⟩
    rw [TO.length_update]
    exact TO.next_lt hj
  · rcases hp with hp | hp <;> cases hp
  · rcases hp with hp | hp | hp <;> cases hp
  · obtain rfl := Pc.scan.inj hp
    obtain ⟨hidle, k₀, hle₀, hk₀⟩ := hI.live _ t hpc ht
    refine ⟨fun k hle hpass => (idle_update hws ho hr hkeeps).mpr ?_,
      k₀, hle₀, fun hid => hk₀ ((idle_update hws ho hr hkeeps).mp hid)⟩
    rcases Nat.lt_or_ge k s.h.objs.length with hlt | hge
    · rcases (TO.passed_next hlt).mp hpass with rfl | hpass
      · intro o ho'
        obtain rfl := Option.some.inj (ho.symm.trans ho')
        exact ⟨hr, hfail⟩
      · exact hidle k hle hpass
    · exact idle_of_le hge

/-- A test case that is started has a process from there on, and the walk has passed it. -/
theorem Inv.fork (hI : Inv h₀ s) (hat : At s i tc) (hpid : ∀ c ∈ s.children, c.pid ≠ pid) :
    Inv h₀ (scheduled maxParallel { s with
      h := started s.h i pid
      children := ⟨pid, none⟩ :: s.children } i) := by
  have hsame : TO.Same s.h (started s.h i pid) := same_started
  have hnext : (started s.h i pid).next i = s.h.next i := by
    rw [TO.next, TO.next, hsame.length]
  refine inv_scheduled (hI.same.trans hsame) hI.uninterrupted
    (hI.forked.started hat.obj (hI.free hat.pc hat.obj) hpid) (hI.scan _ hat.pc).1
    fun k o ho hs => ?_
  obtain ⟨q, hq, hrank, -⟩ := hsame.get ho
  rw [hnext, ← hrank]
  rw [pidOf_started hat.obj] at hs
  split at hs
  · next hki =>
    rw [hki] at hq ⊢
    obtain rfl := Option.some.inj (hat.obj.symm.trans hq)
    exact ⟨hat.rank, (TO.passed_next (List.getElem?_eq_some_iff.mp hq).1).mpr (.inl rfl)⟩
  · exact hI.passed_next hat.pc hq hs

/-- The test case whose process has been waited for is not busy any more. -/
theorem Inv.wait {c : Child} (hI : Inv h₀ s) (hpc : s.pc = .reap) (hchild : c ∈ s.children)
    (hi : searchByPid s.h c.pid = some i) :
    Inv h₀ { s with h := ended s.h i oc, children := without s.children c.pid } := by
  obtain ⟨o, ho, -⟩ := searchByPid_some hi
  have hsame : TO.Same s.h (ended s.h i oc) := same_ended
  have hpos : pos { s with h := ended s.h i oc, children := without s.children c.pid } = pos s :=
    rfl
  refine ⟨hI.same.trans hsame, hI.uninterrupted, hI.forked.ended hchild hi, fun k q hq hs => ?_,
    fun p hp => (by cases hpc.symm.trans hp), fun hp => ?_, fun hp => ?_,
    fun b hp => (by cases hpc.symm.trans hp), fun p t hp => (by cases hpc.symm.trans hp)⟩
  · obtain ⟨q', hq', hrank, -⟩ := hsame.get hq
    rw [pidOf_ended ho] at hs
    split at hs
    · cases hs
    · rw [hpos, ← hrank]
      exact hI.busy k q' hq' hs
  · rw [hsame.length]
    exact hI.chunk hp
  · rcases hp with hp | hp | hp <;> cases hpc.symm.trans hp

/-- A restart, from a state that is not stranded, finds a test case that is not to be skipped. -/
theorem Inv.resched (hI : Inv h₀ s) (hpc : s.pc = .reaped) (hfree : ∀ t, ¬ Stranded s t) :
    Inv h₀ { s with parallel := 0, pc := .scan s.tptr } := by
  have hn := hI.quiet (.inr (.inl hpc))
  obtain ⟨hr, hlt⟩ := hI.chunk (.inr hpc)
  refine ⟨hI.same, hI.uninterrupted, hI.forked, fun k _ _ hs => absurd hs
    (hI.forked.not_busy hn k), fun p hp => ?_, fun hp => ?_, fun hp => ?_,
    fun b hp => (by cases hp), fun p t hp ht => ?_⟩
  · obtain rfl := Pc.scan.inj hp
    exact ⟨hr, hlt⟩
  · rcases hp with hp | hp <;> cases hp
  · rcases hp with hp | hp | hp <;> cases hp
  · obtain rfl := Pc.scan.inj hp
    refine ⟨fun k hle hpass => absurd (hpass t ht) (Nat.not_lt.mpr hle), ?_⟩
    by_contra hno
    refine hfree t ⟨hpc, ht, fun k hle => ?_⟩
    by_contra hk
    exact hno ⟨k, hle, hk⟩

/-- **One step** from a state that is not stranded keeps the invariant. -/
theorem Inv.step (hw : WellRanked h₀) (hI : Inv h₀ s) (hstep : FreeStep maxParallel s e s') :
    Inv h₀ s' := by
  obtain ⟨⟨hstep, hcalm⟩, hfree⟩ := hstep
  cases hstep with
  | enter hpc hr _ => exact hI.enter hw hpc hr
  | leave hpc hr =>
    have hn := hI.quiet (.inl hpc)
    refine ⟨hI.same, hI.uninterrupted, hI.forked, fun k _ _ hs => absurd hs
      (hI.forked.not_busy hn k), fun p hp => (by cases hp), fun hp => ?_, fun _ => hn,
      fun b hp => ?_, fun p t hp => (by cases hp)⟩
    · rcases hp with hp | hp <;> cases hp
    · cases hp
      refine ⟨rfl, .inl (hr.resolve_right fun hint => ?_)⟩
      rw [hI.uninterrupted] at hint
      cases hint
  | pass hpc hto hr =>
    refine ⟨hI.same, hI.uninterrupted, hI.forked, fun k o ho hs => hI.passed_next hpc ho hs,
      fun p hp => ?_, fun hp => ?_, fun hp => ?_, fun b hp => (by cases hp),
      fun p t _ ht => (by cases ht)⟩
    · obtain rfl := Pc.scan.inj hp
      exact ⟨(hI.scan _ hpc).1, fun _ => TO.next_lt⟩
    · rcases hp with hp | hp <;> cases hp
    · rcases hp with hp | hp | hp <;> cases hp
  | skip hpc hto hr hfail => exact hI.skip hw hpc hto hr hfail
  | noFunc hat _ =>
    exact inv_scheduled hI.same hI.uninterrupted hI.forked (hI.scan _ hat.pc).1
      fun k o ho hs => hI.passed_next hat.pc ho hs
  | fork hat _ hpid => exact hI.fork hat hpid
  | forkFails _ _ => cases hcalm
  | exhausted hpc =>
    have htptr := hI.tptr_eq_none hpc
    refine ⟨hI.same, hI.uninterrupted, hI.forked, fun k o ho hs => ⟨(hI.busy k o ho hs).1,
      fun t ht => ?_⟩, fun p hp => (by cases hp), fun _ => ⟨(hI.scan _ hpc).1,
      fun t ht => ?_⟩, fun hp => ?_, fun b hp => (by cases hp), fun p t hp => (by cases hp)⟩
    · cases htptr.symm.trans ht
    · cases htptr.symm.trans ht
    · rcases hp with hp | hp | hp <;> cases hp
  | wait hpc hn hchild hi => exact hI.wait hpc hchild hi
  | lost hpc hn hchild hi =>
    obtain ⟨k, hk⟩ := hI.forked.child _ hchild
    exact absurd hi (searchByPid_isSome hk)
  | waitFails _ _ => cases hcalm
  | reaped hpc hn =>
    have hpos : pos { s with pc := .reaped } = pos s := by
      rw [pos, pos, hpc]
    refine ⟨hI.same, hI.uninterrupted, hI.forked, fun k o ho hs => ?_, fun p hp => (by cases hp),
      fun _ => hI.chunk (.inl hpc), fun _ => hn, fun b hp => (by cases hp),
      fun p t hp => (by cases hp)⟩
    rw [hpos]
    exact hI.busy k o ho hs
  | resched hpc htptr => exact hI.resched hpc hfree
  | nextRank hpc htptr =>
    have hn := hI.quiet (.inr (.inl hpc))
    refine ⟨hI.same, hI.uninterrupted, hI.forked, fun k _ _ hs => absurd hs
      (hI.forked.not_busy hn k), fun p hp => (by cases hp), fun hp => ?_, fun _ => hn,
      fun b hp => (by cases hp), fun p t hp => (by cases hp)⟩
    rcases hp with hp | hp <;> cases hp
  | exit oc hchild =>
    exact ⟨hI.same, hI.uninterrupted, hI.forked.exit hchild, hI.busy, hI.scan, hI.chunk, hI.quiet,
      hI.done, hI.live⟩
  | interrupt => cases hcalm

/-! ## 3. The jobs -/

/-- The test cases as jobs, of which those that have a process are busy. -/
def jobs (s : State) : Jobs Nat Status := TO.jobs s.h s.r (pos s) fun k => (pidOf s.h k).isSome

/-- The jobs after one test case has been scheduled. -/
theorem jobs_scheduled : jobs (scheduled maxParallel s i) =
    TO.jobs s.h s.r (s.h.next i) fun k => (pidOf s.h k).isSome := by
  obtain ⟨m, heq | heq⟩ := scheduled_cases maxParallel s i <;> rw [heq] <;> rfl

/-- A step that leaves the list as it is, and deals with nothing, is none of the jobs. -/
theorem steps_idle (hh : s'.h = s.h)
    (hdealt : ∀ k, TO.Dealt s.h s'.r (pos s') k ↔ TO.Dealt s.h s.r (pos s) k) :
    Steps (JobStep h₀.depsOf success skipped) (jobs s) [] (jobs s') := by
  have heq : jobs s' = jobs s :=
    TO.jobs_congr (by rwa [hh]) (fun _ => by rw [hh]) (by rw [hh])
  rw [heq]
  exact .nil

/-- The processes are of test cases of the rank. -/
theorem Inv.busy_rank (hI : Inv h₀ s) (k : Nat) (q : Obj Case) (hq : s.h.objs[k]? = some q)
    (hs : (pidOf s.h k).isSome) : q.rank = s.r :=
  (hI.busy k q hq hs).1

/-- A test case that is skipped. -/
theorem Inv.steps_skip (hw : WellRanked h₀) (hI : Inv h₀ s) (hpc : s.pc = .scan (some i))
    (ho : s.h.objs[i]? = some tc) (hr : tc.rank = s.r) (hfail : s.h.depFailed tc.deps = true) :
    JobStep h₀.depsOf success skipped (jobs s) (.skip i) (jobs { s with
      h := s.h.update i fun tc => { tc with status := skipped }
      pc := .scan (s.h.next i) }) := by
  have hws := hI.same.wellRanked hw
  have hsame : ∀ k, pidOf (s.h.update i fun tc => { tc with status := skipped }) k =
      pidOf s.h k :=
    fun k => pidOf_update fun _ => rfl
  have hnot : ¬ (pidOf s.h i).isSome := by
    rw [hI.free hpc ho]
    exact Bool.false_ne_true
  rw [jobs, jobs, pos, pos, hpc]
  simp only [hsame]
  exact TO.jobs_skip hI.same hws ho hr hfail hI.busy_rank hnot (fun _ => ⟨rfl, rfl⟩) rfl

/-- A test case without a function is started and finishes in one step. -/
theorem Inv.steps_noFunc (hw : WellRanked h₀) (hI : Inv h₀ s) (hat : At s i tc) :
    Steps (JobStep h₀.depsOf success skipped) (jobs s) [.start i, .finish i tc.status]
      (jobs (scheduled maxParallel s i)) := by
  have hws := hI.same.wellRanked hw
  have hstart := TO.jobs_start (f := id) hI.same hws hat.obj hat.rank hat.deps hI.busy_rank
    (fun _ => ⟨rfl, rfl⟩) fun k => (Iff.rfl : k = i ∨ (pidOf s.h k).isSome = true ↔ _)
  have hfinish : JobStep h₀.depsOf success skipped
      (TO.jobs s.h s.r (s.h.next i) fun k => k = i ∨ (pidOf s.h k).isSome = true)
      (.finish i tc.status)
      (TO.jobs (s.h.update i id) s.r (s.h.next i) fun k => (pidOf s.h k).isSome) := by
    refine TO.jobs_finish hat.obj (.inl rfl) (fun _ => ⟨rfl, rfl⟩) rfl fun k => ?_
    have hfree : k = i → ¬ (pidOf s.h k).isSome := by
      rintro rfl
      rw [hI.free hat.pc hat.obj]
      exact Bool.false_ne_true
    exact ⟨fun hs => ⟨fun heq => hfree heq hs, .inr hs⟩, fun hs => hs.2.resolve_left hs.1⟩
  rw [TO.update_id] at hstart hfinish
  rw [jobs_scheduled, jobs, pos, hat.pc]
  exact (Steps.single hstart).snoc hfinish

/-- A test case that is forked is started. -/
theorem Inv.steps_fork (hw : WellRanked h₀) (hI : Inv h₀ s) (hat : At s i tc) (pid : Nat) :
    JobStep h₀.depsOf success skipped (jobs s) (.start i) (jobs (scheduled maxParallel { s with
      h := started s.h i pid
      children := ⟨pid, none⟩ :: s.children } i)) := by
  have hws := hI.same.wellRanked hw
  have hsame : TO.Same s.h (started s.h i pid) := same_started
  have hnext : (started s.h i pid).next i = s.h.next i := by
    rw [TO.next, TO.next, hsame.length]
  rw [jobs_scheduled, jobs, pos, hat.pc]
  dsimp only
  rw [hnext]
  refine TO.jobs_start (f := fun tc => { tc with body := { tc.body with pid := some pid } })
    hI.same hws hat.obj hat.rank hat.deps hI.busy_rank (fun _ => ⟨rfl, rfl⟩) fun k => ?_
  rw [pidOf_started hat.obj]
  split
  · next heq => simp [heq]
  · next hne => simp [hne]

/-- A test case whose process is waited for finishes. -/
theorem steps_wait {pid : Nat} (hi : searchByPid s.h pid = some i) :
    JobStep h₀.depsOf success skipped (jobs s) (.finish i oc.status)
      (jobs { s with h := ended s.h i oc, children := without s.children pid }) := by
  obtain ⟨o, ho, hpid⟩ := searchByPid_some hi
  have hbi : (pidOf s.h i).isSome := by
    rw [hpid]
    rfl
  have hpos : pos { s with h := ended s.h i oc, children := without s.children pid } = pos s :=
    rfl
  rw [jobs, jobs, hpos]
  refine TO.jobs_finish
    (f := fun tc => { tc with status := oc.status, body := { tc.body with pid := none } })
    ho ?_ (fun _ => ⟨rfl, rfl⟩) rfl fun k => ?_
  · exact hbi
  · rw [pidOf_ended ho]
    split
    · next heq => simp [heq]
    · next hne => simp [hne]

/-- **A step is a run of the jobs.** -/
theorem Inv.steps (hw : WellRanked h₀) (hI : Inv h₀ s) (hstep : FreeStep maxParallel s e s') :
    Steps (JobStep h₀.depsOf success skipped) (jobs s) e.jobs (jobs s') := by
  obtain ⟨⟨hstep, hcalm⟩, -⟩ := hstep
  cases hstep with
  | enter hpc _ _ =>
    refine steps_idle rfl fun k => ?_
    rw [pos, pos, hpc]
    exact TO.dealt_first
  | leave hpc _ =>
    refine steps_idle rfl fun k => ?_
    rw [pos, pos, hpc]
  | pass hpc hto hr =>
    refine steps_idle rfl fun k => ?_
    rw [pos, pos, hpc]
    exact TO.dealt_pass hto hr
  | skip hpc hto hr hfail => exact .single (hI.steps_skip hw hpc hto hr hfail)
  | noFunc hat _ => exact hI.steps_noFunc hw hat
  | @fork i tc pid hat _ _ => exact .single (hI.steps_fork hw hat pid)
  | forkFails _ _ => cases hcalm
  | exhausted hpc =>
    refine steps_idle rfl fun k => ?_
    rw [pos, pos, hpc, hI.tptr_eq_none hpc]
  | wait hpc hn hchild hi => exact .single (steps_wait hi)
  | lost hpc hn hchild hi =>
    obtain ⟨k, hk⟩ := hI.forked.child _ hchild
    exact absurd hi (searchByPid_isSome hk)
  | waitFails _ _ => cases hcalm
  | reaped hpc hn =>
    refine steps_idle rfl fun k => ?_
    rw [pos, pos, hpc]
  | resched hpc htptr =>
    refine steps_idle rfl fun k => ?_
    rw [pos, pos, hpc]
  | nextRank hpc htptr =>
    refine steps_idle rfl fun k => ?_
    rw [pos, pos, hpc, htptr]
    exact TO.dealt_rank
  | exit oc hchild => exact steps_idle rfl fun _ => Iff.rfl
  | interrupt => cases hcalm

/-! ## 4. The end -/

/-- What is left of the walk through the ranks. -/
def left (n : Nat) (tptr : Option Nat) : Pc → Nat
  | .ranks => 5 * n + 6
  | .scan (some i) => 5 * (n - i) + 3
  | .scan none => 3
  | .reap => match tptr with
    | some t => 5 * (n - t) + 5
    | none => 2
  | .reaped => match tptr with
    | some t => 5 * (n - t) + 4
    | none => 1
  | .done _ => 0

/-- What is left of the walk, without the processes that run. -/
def rest (s : State) : Nat :=
  (s.h.currank + 1 - s.r) * (5 * s.h.objs.length + 10) + left s.h.objs.length s.tptr s.pc

/-- A step of the scheduler weighs more than the two steps of the process that it may start. -/
def measure (s : State) : Nat := 3 * rest s + (s.children.length + alive s)

/-- A step of the walk takes five from what is left, of which waiting and going on need the rest. -/
theorem left_scan {t : Option Nat} (hi : i < n) :
    left n t (.scan (some i)) = 5 * (n - (i + 1)) + 8 := by
  rw [left]
  omega

/-- Going on in the list leaves less. -/
theorem left_next {t t' : Option Nat} (hi : i < h.objs.length) :
    left h.objs.length t (.scan (h.next i)) < left h.objs.length t' (.scan (some i)) := by
  rw [left_scan hi]
  cases hnext : h.next i with
  | none =>
    rw [left]
    omega
  | some j =>
    obtain ⟨rfl, -⟩ := TO.next_some hnext
    rw [left]
    omega

/-- Beginning to wait leaves less of the walk. -/
theorem left_reap {t : Option Nat} (hi : i < h.objs.length) :
    left h.objs.length (h.next i) .reap < left h.objs.length t (.scan (some i)) := by
  rw [left_scan hi]
  cases hnext : h.next i with
  | none =>
    rw [left]
    omega
  | some j =>
    obtain ⟨rfl, -⟩ := TO.next_some hnext
    rw [left]
    omega

/-- Less is left if less is left of the walk and at most one process was started. -/
theorem measure_lt_of_rest (hrest : rest s' < rest s)
    (hchildren : s'.children.length + alive s' ≤ s.children.length + alive s + 2) :
    measure s' < measure s := by
  rw [measure, measure]
  omega

/-- Within a rank it is enough that less is left of this one. -/
theorem rest_lt_of_left (hr : s'.r = s.r) (hh : TO.Same s.h s'.h)
    (hleft : left s.h.objs.length s'.tptr s'.pc < left s.h.objs.length s.tptr s.pc) :
    rest s' < rest s := by
  rw [rest, rest, hr, hh.currank, hh.length]
  exact Nat.add_lt_add_left hleft _

theorem rest_scheduled (hpc : s.pc = .scan (some i)) (ho : s.h.objs[i]? = some o)
    (hh : TO.Same s.h h) {s₁ : State} (hs₁ : s₁ = { s with h := h, children := children }) :
    rest (scheduled maxParallel s₁ i) < rest s := by
  have hi := (List.getElem?_eq_some_iff.mp ho).1
  have hnext : h.next i = s.h.next i := by
    rw [TO.next, TO.next, hh.length]
  subst hs₁
  obtain ⟨m, heq | heq⟩ := scheduled_cases maxParallel { s with h := h, children := children } i
  · rw [heq]
    refine rest_lt_of_left rfl hh ?_
    rw [hpc]
    dsimp only
    rw [hnext]
    exact left_reap hi
  · rw [heq]
    refine rest_lt_of_left rfl hh ?_
    rw [hpc]
    dsimp only
    rw [hnext]
    exact left_next hi

/-- A fork leaves less: the walk has less to do, and one process more counts for two. -/
theorem measure_lt_fork {tc : Obj Case} {pid : Nat} (hat : At s i tc) :
    measure (scheduled maxParallel { s with
      h := started s.h i pid
      children := ⟨pid, none⟩ :: s.children } i) < measure s := by
  refine measure_lt_of_rest (rest_scheduled hat.pc hat.obj same_started rfl) ?_
  have hadd : ∀ {s₁ : State}, s₁.children = ⟨pid, none⟩ :: s.children →
      s₁.children.length + alive s₁ ≤ s.children.length + alive s + 2 := by
    intro s₁ hs₁
    rw [alive, hs₁, List.length_cons, List.countP_cons_of_pos rfl, alive]
    omega
  refine hadd ?_
  obtain ⟨m, heq | heq⟩ := scheduled_cases maxParallel
    { s with h := started s.h i pid, children := ⟨pid, none⟩ :: s.children } i <;> rw [heq]

/-- Waiting for a process leaves a process less. -/
theorem Inv.measure_lt_wait {c : Child} (hI : Inv h₀ s) (hchild : c ∈ s.children) :
    measure { s with h := ended s.h i oc, children := without s.children c.pid } < measure s := by
  have hrest : rest { s with h := ended s.h i oc, children := without s.children c.pid } =
      rest s := by
    have hsame : TO.Same s.h (ended s.h i oc) := same_ended
    rw [rest, rest, hsame.currank, hsame.length]
  have hlen := length_without hI.forked.nodup hchild
  have halive := countP_without (·.ended.isNone) hI.forked.nodup hchild
  rw [measure, measure, hrest, alive, alive]
  dsimp only at hlen halive ⊢
  omega

/-- A process that ends is one less that is alive. -/
theorem Inv.measure_lt_exit {pid : Nat} (hI : Inv h₀ s)
    (hchild : (⟨pid, none⟩ : Child) ∈ s.children) :
    measure { s with children := ⟨pid, some oc⟩ :: without s.children pid } < measure s := by
  have hrest : rest { s with children := ⟨pid, some oc⟩ :: without s.children pid } = rest s :=
    rfl
  have hlen := length_without hI.forked.nodup hchild
  have halive := countP_without (·.ended.isNone) hI.forked.nodup hchild
  rw [measure, measure, hrest, alive, alive]
  dsimp only at hlen halive ⊢
  rw [List.length_cons, List.countP_cons]
  simp only [Option.isNone_some, Option.isNone_none, if_true, Bool.false_eq_true,
    if_false] at halive ⊢
  omega

/-- **Every step from a state that is not stranded leaves less to do.** -/
theorem Inv.measure_lt (hI : Inv h₀ s) (hstep : FreeStep maxParallel s e s') :
    measure s' < measure s := by
  obtain ⟨⟨hstep, hcalm⟩, -⟩ := hstep
  cases hstep with
  | enter hpc _ _ =>
    refine measure_lt_of_rest (rest_lt_of_left rfl (TO.Same.refl _) ?_) (Nat.le_add_right _ 2)
    rw [hpc]
    dsimp only
    rw [TO.first]
    split
    · rw [left, left]
      omega
    · rw [left, left]
      omega
  | leave hpc _ =>
    refine measure_lt_of_rest (rest_lt_of_left rfl (TO.Same.refl _) ?_) (Nat.le_add_right _ 2)
    rw [hpc]
    exact Nat.succ_pos _
  | pass hpc hto _ =>
    refine measure_lt_of_rest (rest_lt_of_left rfl (TO.Same.refl _) ?_) (Nat.le_add_right _ 2)
    rw [hpc]
    exact left_next (List.getElem?_eq_some_iff.mp hto).1
  | skip hpc hto _ _ =>
    refine measure_lt_of_rest (rest_lt_of_left rfl (TO.same_update fun _ => ⟨rfl, rfl⟩) ?_)
      (Nat.le_add_right _ 2)
    rw [hpc]
    exact left_next (List.getElem?_eq_some_iff.mp hto).1
  | @noFunc i _ hat _ =>
    refine measure_lt_of_rest (rest_scheduled hat.pc hat.obj (TO.Same.refl _) rfl) ?_
    obtain ⟨m, heq | heq⟩ := scheduled_cases maxParallel s i <;> rw [heq] <;> exact
      Nat.le_add_right _ 2
  | fork hat _ _ => exact measure_lt_fork hat
  | forkFails _ _ => cases hcalm
  | exhausted hpc =>
    refine measure_lt_of_rest (rest_lt_of_left rfl (TO.Same.refl _) ?_) (Nat.le_add_right _ 2)
    rw [hpc]
    dsimp only
    rw [hI.tptr_eq_none hpc, left, left]
    omega
  | wait _ _ hchild _ => exact hI.measure_lt_wait hchild
  | lost hpc hn hchild hi =>
    obtain ⟨k, hk⟩ := hI.forked.child _ hchild
    exact absurd hi (searchByPid_isSome hk)
  | waitFails _ _ => cases hcalm
  | reaped hpc _ =>
    refine measure_lt_of_rest (rest_lt_of_left rfl (TO.Same.refl _) ?_) (Nat.le_add_right _ 2)
    rw [hpc]
    cases htptr : s.tptr with
    | none => exact Nat.lt_succ_self _
    | some t => exact Nat.lt_succ_self _
  | resched hpc htptr =>
    refine measure_lt_of_rest (rest_lt_of_left rfl (TO.Same.refl _) ?_) (Nat.le_add_right _ 2)
    rw [hpc, htptr]
    exact Nat.lt_succ_self _
  | nextRank hpc htptr =>
    obtain ⟨hr, -⟩ := hI.chunk (.inr hpc)
    refine measure_lt_of_rest ?_ (Nat.le_add_right _ 2)
    rw [rest, rest, hpc, htptr, left, left]
    dsimp only
    obtain ⟨a, ha⟩ : ∃ a, s.h.currank + 1 - s.r = a + 1 := ⟨s.h.currank - s.r, by omega⟩
    have ha' : s.h.currank + 1 - (s.r + 1) = a := by omega
    rw [ha, ha', Nat.succ_mul a]
    omega
  | exit _ hchild => exact hI.measure_lt_exit hchild
  | interrupt => cases hcalm

/-- There is always a number that no process has. -/
theorem exists_fresh (children : List Child) : ∃ pid, ∀ c ∈ children, c.pid ≠ pid := by
  suffices h : ∃ n, ∀ c ∈ children, c.pid < n from h.imp fun n hn c hc => Nat.ne_of_lt (hn c hc)
  induction children with
  | nil => exact ⟨0, fun c hc => (by cases hc)⟩
  | cons d children ih =>
    obtain ⟨n, hn⟩ := ih
    refine ⟨max n (d.pid + 1), fun c hc => ?_⟩
    rcases List.mem_cons.mp hc with rfl | hc
    · exact Nat.lt_of_lt_of_le (Nat.lt_succ_self _) (Nat.le_max_right _ _)
    · exact Nat.lt_of_lt_of_le (hn c hc) (Nat.le_max_left _ _)

/-- A calm scheduler is never stuck. -/
theorem Inv.goes (maxParallel : UInt32) (hI : Inv h₀ s) (hdone : s.pc ≠ .done false) :
    ∃ e s', calm (Step maxParallel) s e s' := by
  cases hpc : s.pc with
  | ranks =>
    by_cases hr : s.r ≤ s.h.currank
    · exact ⟨_, _, .enter hpc hr hI.uninterrupted, trivial⟩
    · exact ⟨_, _, .leave hpc (.inl (Nat.lt_of_not_le hr)), trivial⟩
  | scan p =>
    cases p with
    | none => exact ⟨_, _, .exhausted hpc, trivial⟩
    | some i =>
      have hi := (hI.scan _ hpc).2 i rfl
      have ho : s.h.objs[i]? = some s.h.objs[i] := List.getElem?_eq_getElem hi
      by_cases hr : s.h.objs[i].rank = s.r
      · by_cases hfail : s.h.depFailed s.h.objs[i].deps = true
        · exact ⟨_, _, .skip hpc ho hr hfail, trivial⟩
        · have hat : At s i s.h.objs[i] := ⟨hpc, ho, hr, Bool.eq_false_iff.mpr hfail⟩
          cases hfunc : s.h.objs[i].body.func with
          | false => exact ⟨_, _, .noFunc hat hfunc, trivial⟩
          | true =>
            obtain ⟨pid, hpid⟩ := exists_fresh s.children
            exact ⟨_, _, .fork hat hfunc hpid, trivial⟩
      · exact ⟨_, _, .pass hpc ho hr, trivial⟩
  | reap =>
    cases hn : s.h.nchildren with
    | zero => exact ⟨_, _, .reaped hpc hn, trivial⟩
    | succ n =>
      have hpos : 0 < s.h.nchildren := by
        rw [hn]
        exact Nat.succ_pos n
      have hlen := hI.forked.count ▸ hpos
      obtain ⟨⟨pid, ended⟩, hc⟩ := List.exists_mem_of_length_pos hlen
      cases ended with
      | none => exact ⟨_, _, .exit (.exited 0) hc, trivial⟩
      | some oc =>
        cases hi : searchByPid s.h pid with
        | none => exact ⟨_, _, .lost hpc hpos hc hi, trivial⟩
        | some i => exact ⟨_, _, .wait hpc hpos hc hi, trivial⟩
  | reaped =>
    cases htptr : s.tptr with
    | none => exact ⟨_, _, .nextRank hpc htptr, trivial⟩
    | some t => exact ⟨_, _, .resched hpc htptr, trivial⟩
  | done b =>
    obtain ⟨rfl, -⟩ := hI.done b hpc
    exact absurd hpc hdone

/-- As long as it is not stranded, the scheduler halts. -/
theorem halts_free (maxParallel : UInt32) (hw : WellRanked h₀) (hI : Inv h₀ s) :
    Halts (FreeStep maxParallel) s :=
  halts_of_measure (Inv h₀) measure
    (fun _ _ _ hI hstep => ⟨hI.step hw hstep, hI.measure_lt hstep⟩) hI

/-- **It gets to its end, unless it is stranded.** -/
theorem completes_of_free (hw : WellRanked h) (hpid : ∀ o ∈ h.objs, o.body.pid = none)
    (hfree : ∀ s t, Reaches (calm (Step maxParallel)) (init h) s → ¬ Stranded s t) :
    Completes (calm (Step maxParallel)) (init h) (·.pc = .done false) (·.h) h := by
  have hinit := inv_init hpid
  have hsteps : ∀ {es : List Event} {s : State}, Steps (calm (Step maxParallel)) (init h) es s →
      Steps (FreeStep maxParallel) (init h) es s := by
    intro es s hrun
    induction hrun with
    | nil => exact .nil
    | snoc hrun hstep ih => exact ih.snoc ⟨hstep, fun t => hfree _ t ⟨_, hrun⟩⟩
  have hreach : ∀ {es : List Event} {s : State}, Steps (calm (Step maxParallel)) (init h) es s →
      Inv h s := fun hrun =>
    (hsteps hrun).invariant (I := fun _ s => Inv h s) hinit
    fun _ _ _ _ _ hI hstep => hI.step hw hstep
  refine ⟨?_, ?_, ?_⟩
  · obtain ⟨n, hn⟩ := halts_free maxParallel hw hinit
    exact ⟨n, fun es s hrun => hn es s (hsteps hrun)⟩
  · rintro s ⟨es, hrun⟩ hdone
    exact (hreach hrun).goes maxParallel hdone
  · intro es s hrun hdone
    have hI := hreach hrun
    have hjobs := (hsteps hrun).simulate jobs Event.jobs (Inv h)
      (fun _ _ _ hI hstep => hI.step hw hstep) (fun _ _ _ hI hstep => hI.steps hw hstep) hinit
    refine complete_of_steps (by decide) (fun i hi => ?_)
      (hinit.forked.not_busy rfl) hjobs fun i hi => ?_
    · obtain ⟨o, -, hlt | ⟨-, hpass⟩⟩ := hi
      · exact Nat.not_lt_zero _ hlt
      · exact Nat.not_lt_zero i (hpass 0 (pos_init h))
    · have hlen := hI.same.length
      rcases (hI.done false hdone).2 with hlt | hnil
      · refine settled_of_ranks (hI.same.wellRanked hw) hlt
          (hI.forked.not_busy (hI.quiet (.inr (.inr hdone)))) ?_
        rw [hlen]
        exact hi
      · rw [hnil] at hlen
        rw [← hlen] at hi
        exact absurd hi (Nat.not_lt_zero i)

/-- Nothing but test cases to be skipped is left from `t` on, and nothing runs. -/
structure Doomed (s : State) (t : Nat) : Prop where
  ranks : WellRanked s.h
  nchildren : s.h.nchildren = 0
  tptr : s.tptr = some t
  lt : t < s.h.objs.length
  idle : ∀ k, t ≤ k → Idle s.h s.r k

/-- The walk skips them all, and comes to the restart again. -/
theorem Doomed.scan (maxParallel : UInt32) {t : Nat} : ∀ (d : Nat) {s : State} {q : Option Nat},
    Doomed s t → s.pc = .scan q → (∀ i ∈ q, t ≤ i ∧ i < s.h.objs.length ∧ s.h.objs.length ≤ i + d) →
    ∃ es s', Steps (calm (Step maxParallel)) s es s' ∧ Doomed s' t ∧ s'.pc = .reaped
  | _, s, none, hD, hpc, _ => by
    have hreap : Steps (calm (Step maxParallel)) s [.tau] { s with pc := .reap } :=
      .single ⟨.exhausted hpc, trivial⟩
    exact ⟨_, { s with pc := .reaped }, hreap.snoc ⟨.reaped rfl hD.nchildren, trivial⟩,
      ⟨hD.ranks, hD.nchildren, hD.tptr, hD.lt, hD.idle⟩, rfl⟩
  | 0, s, some i, hD, hpc, hq => by
    obtain ⟨-, hlt, hle⟩ := hq i rfl
    exact absurd hlt (Nat.not_lt.mpr hle)
  | d + 1, s, some i, hD, hpc, hq => by
    obtain ⟨hti, hlt, hle⟩ := hq i rfl
    have ho : s.h.objs[i]? = some s.h.objs[i] := List.getElem?_eq_getElem hlt
    obtain ⟨hr, hfail⟩ := hD.idle i hti _ ho
    have hkeeps : TO.Keeps fun tc : Obj Case => { tc with status := skipped } := fun _ => ⟨rfl, rfl⟩
    have hsame : TO.Same s.h (s.h.update i fun tc => { tc with status := skipped }) :=
      TO.same_update hkeeps
    have hD' : Doomed { s with
        h := s.h.update i fun tc => { tc with status := skipped }
        pc := .scan (s.h.next i) } t := by
      refine ⟨hsame.wellRanked hD.ranks, hD.nchildren, hD.tptr, ?_, fun k hk => ?_⟩
      · rw [TO.length_update]
        exact hD.lt
      · exact (idle_update hD.ranks ho hr hkeeps).mpr (hD.idle k hk)
    obtain ⟨es, s', hrun, hend⟩ := hD'.scan maxParallel d rfl fun j hj => by
      obtain ⟨rfl, hj'⟩ := TO.next_some hj
      rw [TO.length_update]
      exact ⟨Nat.le_succ_of_le hti, hj', by omega⟩
    exact ⟨_, s', (Steps.single ⟨.skip hpc ho hr hfail, trivial⟩).trans hrun, hend⟩

/-- **A stranded scheduler restarts forever.** -/
theorem not_halts_of_stranded (hw : WellRanked h) (hpid : ∀ o ∈ h.objs, o.body.pid = none) {t : Nat}
    (hreach : Reaches (calm (Step maxParallel)) (init h) s) (hs : Stranded s t) :
    ¬ Halts (calm (Step maxParallel)) (init h) := by
  -- up to the first time that it is stranded, the invariant holds
  have hfirst : ∀ {es : List Event} {s : State}, Steps (calm (Step maxParallel)) (init h) es s →
      Inv h s ∨ ∃ s₁ t, Reaches (calm (Step maxParallel)) (init h) s₁ ∧ Inv h s₁ ∧
      Stranded s₁ t := by
    intro es s hrun
    induction hrun with
    | nil => exact .inl (inv_init hpid)
    | @snoc es s _ _ hrun hstep ih =>
      rcases ih with hI | hex
      · by_cases hfree : ∀ t, ¬ Stranded s t
        · exact .inl (hI.step hw ⟨hstep, hfree⟩)
        · obtain ⟨t, ht⟩ := not_forall_not.mp hfree
          exact .inr ⟨s, t, ⟨es, hrun⟩, hI, ht⟩
      · exact .inr hex
  obtain ⟨s₁, t₁, hreach₁, hI, hs₁⟩ :
      ∃ s₁ t, Reaches (calm (Step maxParallel)) (init h) s₁ ∧ Inv h s₁ ∧ Stranded s₁ t := by
    obtain ⟨es, hrun⟩ := hreach
    rcases hfirst hrun with hI | hex
    · exact ⟨s, t, ⟨es, hrun⟩, hI, hs⟩
    · exact hex
  have hD : Doomed s₁ t₁ := ⟨hI.same.wellRanked hw, hI.quiet (.inr (.inl hs₁.pc)), hs₁.tptr,
    (hI.chunk (.inr hs₁.pc)).2 t₁ hs₁.tptr, hs₁.idle⟩
  refine not_halts_of_cycle (fun s => Doomed s t₁ ∧ s.pc = .reaped) ?_ hreach₁ ⟨hD, hs₁.pc⟩
  rintro s ⟨hD, hpc⟩
  have hD' : Doomed { s with parallel := 0, pc := .scan s.tptr } t₁ :=
    ⟨hD.ranks, hD.nchildren, hD.tptr, hD.lt, hD.idle⟩
  obtain ⟨es, s', hrun, hend⟩ := hD'.scan maxParallel s.h.objs.length rfl fun i hi => by
    obtain rfl := Option.some.inj (hD.tptr.symm.trans hi)
    exact ⟨Nat.le_refl _, hD.lt, Nat.le_add_left _ _⟩
  exact ⟨[.tau] ++ es, s', by simp, (Steps.single ⟨.resched hpc hD.tptr, trivial⟩).trans hrun, hend⟩

/-- Test cases that depend on nothing are not skipped, so that no chunk is left with nothing else.
-/
theorem not_stranded_of_deps (hw : WellRanked h) (hpid : ∀ o ∈ h.objs, o.body.pid = none)
    (hdeps : ∀ o ∈ h.objs, o.deps = []) {t : Nat}
    (hreach : Reaches (calm (Step maxParallel)) (init h) s) : ¬ Stranded s t := by
  have hfree : ∀ {s : State} {t : Nat}, Inv h s → ¬ Stranded s t := by
    rintro s t hI ⟨hpc, htptr, hidle⟩
    have hlt := (hI.chunk (.inr hpc)).2 t htptr
    have ho := List.getElem?_eq_getElem hlt
    obtain ⟨-, hfail⟩ := hidle t (Nat.le_refl t) _ ho
    obtain ⟨p, hp, -, heq⟩ := hI.same.get ho
    rw [← heq, hdeps p (List.mem_of_getElem? hp)] at hfail
    cases hfail
  obtain ⟨es, hrun⟩ := hreach
  have hI : Inv h s := by
    induction hrun with
    | nil => exact inv_init hpid
    | snoc _ hstep ih => exact ih.step hw ⟨hstep, fun _ => hfree ih⟩
  exact hfree hI

/-- **When the scheduler of sandboxed test cases does its work.** -/
theorem completes_iff (maxParallel : UInt32) (hw : WellRanked h)
    (hpid : ∀ o ∈ h.objs, o.body.pid = none) :
    Completes (calm (Step maxParallel)) (init h) (·.pc = .done false) (·.h) h ↔
      ∀ s t, Reaches (calm (Step maxParallel)) (init h) s → ¬ Stranded s t := by
  constructor
  · intro hc s t hreach hs
    exact not_halts_of_stranded hw hpid hreach hs hc.halts
  · exact completes_of_free hw hpid

end Sandbox

end Libu.Test
