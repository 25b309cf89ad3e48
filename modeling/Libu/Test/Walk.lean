/-
# Walking the list once for each rank

What is common to the two schedulers of test cases, the one that runs them one by one and the one
that forks: both walk the whole list once for each rank, and take up what has this rank.  An object
is dealt with once the walk has passed it in its rank; since the ranks go up along the dependencies,
what an object depends on has then been dealt with in an earlier walk.  So the walk is a run of the
machine of `Libu.Verif.Depend`, in which a job is looked at when all that it depends on is settled.

* §1: what scheduling does not change in a list, and what the ranks say of dependencies.
* §2: the objects that a scheduler is done with, as jobs that depend on each other.
* §3: the scheduler that runs the objects one by one comes to its end, with all jobs complete
  (`simple_completes`).
-/
import Libu.Test.Sequencer

namespace Libu.Test

open Verif

variable {α : Type} {h h' : TO α} {o p : Obj α} {f : Obj α → Obj α} {i j k r : Nat}

namespace TO

/-! ## 1. Lists of objects -/

/-- The objects that an object depends on. -/
def depsOf (h : TO α) (i : Nat) : List Nat :=
  (h.objs[i]?.map fun o => o.deps.filterMap (·.upref)).getD []

/-- Ranks and dependencies are the same. -/
structure Same (h h' : TO α) : Prop where
  currank : h'.currank = h.currank
  objs : h'.objs.map (fun o => (o.rank, o.deps)) = h.objs.map fun o => (o.rank, o.deps)

theorem Same.refl (h : TO α) : Same h h := ⟨rfl, rfl⟩

theorem Same.symm (hs : Same h h') : Same h' h := ⟨hs.currank.symm, hs.objs.symm⟩

theorem Same.trans {h'' : TO α} (hs : Same h h') (hs' : Same h' h'') : Same h h'' :=
  ⟨hs'.currank.trans hs.currank, hs'.objs.trans hs.objs⟩

theorem Same.get (hs : Same h h') (ho : h'.objs[i]? = some o) :
    ∃ p : Obj α, h.objs[i]? = some p ∧ p.rank = o.rank ∧ p.deps = o.deps := by
  have hget : (h'.objs[i]?).map (fun o => (o.rank, o.deps)) =
      (h.objs[i]?).map fun o => (o.rank, o.deps) := by
    rw [← List.getElem?_map, ← List.getElem?_map, hs.objs]
  rw [ho] at hget
  obtain ⟨p, hp, heq⟩ := Option.map_eq_some_iff.mp hget.symm
  exact ⟨p, hp, congrArg Prod.fst heq, congrArg Prod.snd heq⟩

theorem Same.length (hs : Same h h') : h'.objs.length = h.objs.length := by
  have hlen := congrArg List.length hs.objs
  rwa [List.length_map, List.length_map] at hlen

/-- What is said of ranks is said of every list that scheduling makes of the first one. -/
theorem Same.wellRanked (hs : Same h h') (hr : WellRanked h) : WellRanked h' := by
  refine ⟨fun i o ho td htd => ?_, fun o ho => ?_⟩
  · obtain ⟨p, hp, hrank, hdeps⟩ := hs.get ho
    obtain ⟨j, q, hj, hq, hlt⟩ := hr.deps i p hp td (hdeps ▸ htd)
    obtain ⟨q', hq', hrank', -⟩ := hs.symm.get hq
    exact ⟨j, q', hj, hq', by rwa [hrank', ← hrank]⟩
  · obtain ⟨i, hi⟩ := List.getElem?_of_mem ho
    obtain ⟨p, hp, hrank, -⟩ := hs.get hi
    rw [← hrank, hs.currank]
    exact hr.rank p (List.mem_of_getElem? hp)

theorem Same.depsOf (hs : Same h h') : h'.depsOf i = h.depsOf i := by
  rw [TO.depsOf, TO.depsOf]
  cases ho : h'.objs[i]? with
  | none =>
    have hlen := List.getElem?_eq_none_iff.mp ho
    rw [hs.length] at hlen
    rw [List.getElem?_eq_none hlen]
  | some o =>
    obtain ⟨p, hp, -, hdeps⟩ := hs.get ho
    rw [hp, Option.map_some, Option.map_some, hdeps]

@[simp] theorem update_currank (h : TO α) (i : Nat) (f : Obj α → Obj α) :
    (h.update i f).currank = h.currank := rfl

@[simp] theorem length_update (h : TO α) (i : Nat) (f : Obj α → Obj α) :
    (h.update i f).objs.length = h.objs.length := List.length_modify f h.objs i

/-- The objects of a list in which one is changed. -/
theorem get_update (h : TO α) (i k : Nat) (f : Obj α → Obj α) :
    (h.update i f).objs[k]? = if i = k then h.objs[k]?.map f else h.objs[k]? := by
  rw [update, List.getElem?_modify]
  split
  · rfl
  · exact Option.map_id'

@[simp] theorem update_id (h : TO α) (i : Nat) : h.update i id = h := by
  rw [update, List.modify_id]

/-- Changing the status of an object changes neither ranks nor dependencies. -/
theorem same_update (hf : ∀ o, (f o).rank = o.rank ∧ (f o).deps = o.deps) :
    Same h (h.update i f) := by
  refine ⟨rfl, List.ext_getElem? fun k => ?_⟩
  rw [List.getElem?_map, List.getElem?_map, get_update]
  split
  · rw [Option.map_map]
    congr 1
    funext o
    exact Prod.ext (hf o).1 (hf o).2
  · rfl

/-- The other objects keep their status. -/
theorem statusOf_update_ne (hne : k ≠ i) : (h.update i f).statusOf k = h.statusOf k := by
  rw [statusOf, statusOf, get_update, if_neg hne.symm]

theorem statusOf_update_self (ho : h.objs[i]? = some o) :
    (h.update i f).statusOf i = (f o).status := by
  rw [statusOf, get_update, if_pos rfl, ho]
  rfl

theorem statusOf_eq (ho : h.objs[i]? = some o) : h.statusOf i = o.status := by
  rw [statusOf, ho]
  rfl

/-- A dependency failure, in terms of the objects depended on. -/
theorem depFailed_iff (ho : h.objs[i]? = some o) :
    h.depFailed o.deps = true ↔ ∃ j ∈ h.depsOf i, h.statusOf j ≠ success := by
  rw [depFailed, depsOf, ho, List.any_eq_true]
  simp only [Option.map_some, Option.getD_some, List.mem_filterMap, Option.any_eq_true,
    decide_eq_true_eq]
  constructor
  · rintro ⟨td, htd, j, hj, hne⟩
    exact ⟨j, ⟨td, htd, hj⟩, hne⟩
  · rintro ⟨j, ⟨td, htd, hj⟩, hne⟩
    exact ⟨td, htd, j, hj, hne⟩

/-- No dependency has failed if and only if all that is depended on went well. -/
theorem not_depFailed_iff (ho : h.objs[i]? = some o) :
    h.depFailed o.deps = false ↔ ∀ j ∈ h.depsOf i, h.statusOf j = success := by
  rw [Bool.eq_false_iff, Ne, depFailed_iff ho]
  simp only [not_exists, not_and, not_not]


/-- The objects that an object depends on are in the list, with lower ranks. -/
theorem rank_lt_of_mem_depsOf (hr : WellRanked h) (ho : h.objs[i]? = some o) (hj : j ∈ h.depsOf i) :
    ∃ p : Obj α, h.objs[j]? = some p ∧ p.rank < o.rank := by
  rw [depsOf, ho, Option.map_some, Option.getD_some, List.mem_filterMap] at hj
  obtain ⟨td, htd, hup⟩ := hj
  obtain ⟨k, p, hk, hp, hlt⟩ := hr.deps i o ho td htd
  obtain rfl := Option.some.inj (hup.symm.trans hk)
  exact ⟨p, hp, hlt⟩

/-! ## 2. What the scheduler is done with -/

/-- The walk has passed the position `k`, when it is at `pos`. -/
def passed (pos : Option Nat) (k : Nat) : Prop := ∀ t ∈ pos, k < t

/-- The scheduler is done with the object: it is at a later rank, or behind the object. -/
def Dealt (h : TO α) (r : Nat) (pos : Option Nat) (k : Nat) : Prop :=
  ∃ o : Obj α, h.objs[k]? = some o ∧ (o.rank < r ∨ o.rank = r ∧ passed pos k)

theorem Same.dealt (hs : Same h h') {pos : Option Nat} : Dealt h' r pos k ↔ Dealt h r pos k := by
  constructor
  · rintro ⟨o, ho, hor⟩
    obtain ⟨p, hp, hrank, -⟩ := hs.get ho
    exact ⟨p, hp, by rwa [hrank]⟩
  · rintro ⟨o, ho, hor⟩
    obtain ⟨p, hp, hrank, -⟩ := hs.symm.get ho
    exact ⟨p, hp, by rwa [hrank]⟩

/-- The object behind another one in the list. -/
theorem next_some (hnext : h.next i = some j) : j = i + 1 ∧ j < h.objs.length := by
  rw [next] at hnext
  split at hnext
  · next hlt =>
    obtain rfl := Option.some.inj hnext
    exact ⟨rfl, hlt⟩
  · cases hnext

/-- Behind the last object there is none. -/
theorem next_none (hnext : h.next i = none) : h.objs.length ≤ i + 1 := by
  rw [next] at hnext
  split at hnext
  · cases hnext
  · next hlt => exact Nat.not_lt.mp hlt

theorem next_lt (hj : h.next i = some j) : j < h.objs.length := (next_some hj).2

theorem first_lt (hj : h.first = some j) : j < h.objs.length := by
  rw [first] at hj
  split at hj
  · cases hj
  · next hne =>
    obtain rfl := Option.some.inj hj
    refine List.length_pos_iff.mpr ?_
    rintro hnil
    rw [hnil] at hne
    exact hne rfl

/-- The next object passes this one. -/
theorem passed_next (hk : k < h.objs.length) : passed (h.next i) k ↔ k = i ∨ passed (some i) k := by
  simp only [passed, Option.mem_some, forall_eq']
  constructor
  · intro hpass
    cases hnext : h.next i with
    | none =>
      have hlen := next_none hnext
      omega
    | some t =>
      have hlt := hpass t hnext
      obtain ⟨rfl, -⟩ := next_some hnext
      omega
  · intro hor t ht
    obtain ⟨rfl, -⟩ := next_some ht
    omega

/-- Going on behind an object of the rank deals with that object. -/
theorem dealt_next (ho : h.objs[i]? = some o) (hr : o.rank = r) :
    Dealt h r (h.next i) k ↔ k = i ∨ Dealt h r (some i) k := by
  constructor
  · rintro ⟨p, hp, hlt | ⟨heq, hpass⟩⟩
    · exact .inr ⟨p, hp, .inl hlt⟩
    · have hk := (List.getElem?_eq_some_iff.mp hp).1
      exact ((passed_next hk).mp hpass).imp_right fun hi => ⟨p, hp, .inr ⟨heq, hi⟩⟩
  · rintro (rfl | ⟨p, hp, hor⟩)
    · have hk := (List.getElem?_eq_some_iff.mp ho).1
      exact ⟨o, ho, .inr ⟨hr, (passed_next hk).mpr (.inl rfl)⟩⟩
    · have hk := (List.getElem?_eq_some_iff.mp hp).1
      exact ⟨p, hp, hor.imp_right fun hi => ⟨hi.1, (passed_next hk).mpr (.inr hi.2)⟩⟩

/-- Going on behind an object of another rank deals with nothing. -/
theorem dealt_pass (ho : h.objs[i]? = some o) (hr : o.rank ≠ r) :
    Dealt h r (h.next i) k ↔ Dealt h r (some i) k := by
  refine exists_congr fun p => and_congr_right fun hp => or_congr_right
    (and_congr_right fun heq => ?_)
  have hk := (List.getElem?_eq_some_iff.mp hp).1
  rw [passed_next hk, or_iff_right]
  rintro rfl
  exact hr ((congrArg Obj.rank (Option.some.inj (ho.symm.trans hp))).trans heq)

/-- Starting a walk deals with nothing. -/
theorem dealt_first : Dealt h r h.first k ↔ Dealt h r (some 0) k := by
  refine exists_congr fun p => and_congr_right fun hp => ?_
  have hk := (List.getElem?_eq_some_iff.mp hp).1
  have hne : h.objs.isEmpty = false := by
    rw [List.isEmpty_eq_false_iff]
    rintro hnil
    rw [hnil] at hk
    exact absurd hk (Nat.not_lt_zero k)
  rw [first, hne]
  rfl

/-- Going on to the next rank deals with nothing. -/
theorem dealt_rank : Dealt h (r + 1) (some 0) k ↔ Dealt h r none k := by
  refine exists_congr fun p => and_congr_right fun _ => ?_
  simp only [passed, Option.mem_some, forall_eq', Nat.not_lt_zero, and_false, or_false,
    Option.not_mem_none, false_implies, implies_true, and_true]
  omega

/-- The state of the objects as jobs. -/
def jobs (h : TO α) (r : Nat) (pos : Option Nat) (busy : Nat → Prop) : Jobs Nat Status :=
  ⟨Dealt h r pos, busy, h.statusOf⟩

/-- The jobs are what is seen, what is busy, and the status of each. -/
theorem jobs_congr {pos pos' : Option Nat} {busy busy' : Nat → Prop} {r' : Nat}
    (hseen : ∀ k, Dealt h' r' pos' k ↔ Dealt h r pos k) (hbusy : ∀ k, busy' k ↔ busy k)
    (hstatus : h'.statusOf = h.statusOf) : jobs h' r' pos' busy' = jobs h r pos busy := by
  rw [jobs, jobs, hstatus, funext fun k => propext (hseen k), funext fun k => propext (hbusy k)]

/-- When an object is looked at, those that it depends on are settled. -/
theorem settled_deps (hr : WellRanked h) (ho : h.objs[i]? = some o) (hrank : o.rank = r)
    {pos : Option Nat} {busy : Nat → Prop}
    (hbusy : ∀ k p, h.objs[k]? = some p → busy k → p.rank = r) (hj : j ∈ h.depsOf i) :
    (jobs h r pos busy).Settled j := by
  obtain ⟨p, hp, hlt⟩ := rank_lt_of_mem_depsOf hr ho hj
  refine ⟨⟨p, hp, .inl (hrank ▸ hlt)⟩, fun hb => ?_⟩
  have heq := hbusy j p hp hb
  omega

/-- An object that the walk is at is not dealt with yet. -/
theorem not_dealt (ho : h.objs[i]? = some o) (hr : o.rank = r) : ¬ Dealt h r (some i) i := by
  rintro ⟨p, hp, hor⟩
  obtain rfl := Option.some.inj (ho.symm.trans hp)
  rcases hor with hlt | ⟨-, hpass⟩
  · omega
  · exact Nat.lt_irrefl i (hpass i rfl)

/-- An object whose status and body change, but not its rank and its dependencies. -/
def Keeps (f : Obj α → Obj α) : Prop := ∀ o, (f o).rank = o.rank ∧ (f o).deps = o.deps

section Steps

variable {h₀ : TO α} {busy busy' : Nat → Prop} {pos : Option Nat} {w : Status}

/-- An object with a failed dependency is skipped. -/
theorem jobs_skip (hs : Same h₀ h) (hr : WellRanked h) (ho : h.objs[i]? = some o)
    (hrank : o.rank = r)
    (hfail : h.depFailed o.deps = true) (hbusy : ∀ k p, h.objs[k]? = some p → busy k → p.rank = r)
    (hbi : ¬ busy i) (hf : Keeps f) (hw : (f o).status = skipped) :
    JobStep h₀.depsOf success skipped (jobs h r (some i) busy) (.skip i)
      (jobs (h.update i f) r (h.next i) busy) := by
  obtain ⟨j, hj, hne⟩ := (depFailed_iff ho).mp hfail
  refine ⟨not_dealt ho hrank, hbi, ⟨j, hs.depsOf ▸ hj, settled_deps hr ho hrank hbusy hj, hne⟩,
    fun k => ?_, fun _ => Iff.rfl, (statusOf_update_self ho).trans hw,
    fun k hk => statusOf_update_ne hk⟩
  exact (same_update hf).dealt.trans (dealt_next ho hrank)

/-- An object whose dependencies are fine is started. -/
theorem jobs_start (hs : Same h₀ h) (hr : WellRanked h) (ho : h.objs[i]? = some o)
    (hrank : o.rank = r)
    (hfail : h.depFailed o.deps = false) (hbusy : ∀ k p, h.objs[k]? = some p → busy k → p.rank = r)
    (hf : Keeps f) (hbusy' : ∀ k, busy' k ↔ k = i ∨ busy k) :
    JobStep h₀.depsOf success skipped (jobs h r (some i) busy) (.start i)
      (jobs (h.update i f) r (h.next i) busy') := by
  refine ⟨not_dealt ho hrank, fun j hj => ?_, fun k => ?_, hbusy',
    fun k hk => statusOf_update_ne hk⟩
  · rw [← hs.depsOf] at hj
    exact ⟨settled_deps hr ho hrank hbusy hj, (not_depFailed_iff ho).mp hfail j hj⟩
  · exact (same_update hf).dealt.trans (dealt_next ho hrank)

/-- An object that is busy finishes. -/
theorem jobs_finish (ho : h.objs[i]? = some o) (hbi : busy i) (hf : Keeps f)
    (hw : (f o).status = w) (hbusy' : ∀ k, busy' k ↔ k ≠ i ∧ busy k) :
    JobStep h₀.depsOf success skipped (jobs h r pos busy) (.finish i w)
      (jobs (h.update i f) r pos busy') :=
  ⟨hbi, fun _ => (same_update hf).dealt, hbusy', (statusOf_update_self ho).trans hw,
    fun _ hk => statusOf_update_ne hk⟩

end Steps

end TO

/-! ## 3. One by one -/

/-- The steps in which nobody interrupts and no system call fails. -/
def calm {σ : Type} (step : σ → Event → σ → Prop) (s : σ) (e : Event) (s' : σ) : Prop :=
  step s e s' ∧ e.Calm

/-- **The scheduler of the list `h` does its work.**  From `s₀`, it comes to an end whatever
happens, is never stuck on the way, and at its end the jobs are complete. -/
structure Completes {σ : Type} (step : σ → Event → σ → Prop) (s₀ : σ) (done : σ → Prop)
    (list : σ → TO α) (h : TO α) : Prop where
  halts : Halts step s₀
  goes : ∀ s, Reaches step s₀ s → ¬ done s → ∃ e s', step s e s'
  complete : ∀ es s, Steps step s₀ es s → done s →
    Complete h.depsOf success skipped (· < h.objs.length) (es.flatMap Event.jobs) (list s).statusOf

/-- When all ranks are walked, all objects are settled. -/
theorem settled_of_ranks (hr : WellRanked h) (hrank : h.currank < r) {pos : Option Nat}
    {busy : Nat → Prop} (hbusy : ∀ k, ¬ busy k) (hi : i < h.objs.length) :
    (TO.jobs h r pos busy).Settled i :=
  ⟨⟨h.objs[i], List.getElem?_eq_getElem hi,
    .inl (Nat.lt_of_le_of_lt (hr.rank _ (List.getElem_mem hi)) hrank)⟩, hbusy i⟩

/-- Scheduling an object changes its status and its body only, and those that are `ready` can be
scheduled. -/
structure Kind.Sound (k : Kind α) (ready : α → Prop) : Prop where
  update : ∀ h i h', k.sched h i h' → ∃ f, TO.Keeps f ∧ h' = h.update i f
  sched : ∀ (h : TO α) (i : Nat) (o : Obj α), h.objs[i]? = some o → ready o.body →
    ∃ h', k.sched h i h'

namespace Simple

def Pc.pos : Pc → Option Nat
  | .scan p => p
  | _ => some 0

/-- What is true of the scheduler as long as it is calm. -/
structure Inv (ready : α → Prop) (h₀ : TO α) (s : State α) : Prop where
  same : TO.Same h₀ s.h
  uninterrupted : s.interrupted = false
  scan : ∀ p, s.pc = .scan p → s.r ≤ s.h.currank ∧ ∀ i ∈ p, i < s.h.objs.length
  done : s.pc = .done → s.h.currank < s.r ∨ s.h.objs = []
  ready : ∀ (i : Nat) (o : Obj α), s.h.objs[i]? = some o → ¬ TO.Dealt s.h s.r s.pc.pos i →
    ready o.body

variable {kind : Kind α} {ready : α → Prop} {h₀ : TO α} {s s' : State α} {e : Event}

/-- The invariant holds at the start. -/
theorem inv_init (hbody : ∀ o ∈ h₀.objs, ready o.body) : Inv ready h₀ (init h₀) := by
  refine ⟨⟨rfl, rfl⟩, rfl, fun p hp => ?_, fun hd => ?_, fun i o ho _ => hbody o
    (List.mem_of_getElem? ho)⟩
  · rw [init] at hp
    dsimp only at hp
    split at hp <;> cases hp
  · rw [init] at hd
    dsimp only at hd
    split at hd
    · next hemp => exact .inr (List.isEmpty_iff.mp hemp)
    · cases hd

theorem pos_init (h : TO α) : (init h).pc.pos = some 0 := by
  rw [init]
  dsimp only
  split <;> rfl

/-- The invariant, when one object changes and is behind the scheduler then. -/
theorem Inv.updated (hI : Inv ready h₀ s) {i : Nat} {o : Obj α} {f : Obj α → Obj α}
    (hpc : s.pc = .scan (some i)) (ho : s.h.objs[i]? = some o) (hr : o.rank = s.r)
    (hf : TO.Keeps f) : Inv ready h₀ { s with h := s.h.update i f, pc := .scan (s.h.next i) } := by
  refine ⟨hI.same.trans (TO.same_update hf), hI.uninterrupted, fun p hp => ?_,
    fun hd => (by cases hd), fun j p hp hnot => ?_⟩
  · obtain rfl := Pc.scan.inj hp
    refine ⟨(hI.scan _ hpc).1, fun j hj => ?_⟩
    rw [TO.length_update]
    exact TO.next_lt hj
  · have hdealt : ¬ (j = i ∨ TO.Dealt s.h s.r (some i) j) := fun hor =>
      hnot ((TO.same_update hf).dealt.mpr ((TO.dealt_next ho hr).mpr hor))
    rw [not_or] at hdealt
    have hp' := TO.get_update s.h i j f
    rw [if_neg (Ne.symm hdealt.1)] at hp'
    exact hI.ready j p (hp'.symm.trans hp) (by rw [hpc]; exact hdealt.2)

/-- **One calm step** keeps the invariant. -/
theorem Inv.step (hk : kind.Sound ready) (hI : Inv ready h₀ s) (hstep : calm (Step kind) s e s') :
    Inv ready h₀ s' := by
  obtain ⟨hstep, hcalm⟩ := hstep
  cases hstep with
  | enter hpc hr _ =>
    refine ⟨hI.same, hI.uninterrupted, fun p hp => ?_, fun hd => (by cases hd),
      fun i o ho hnot => ?_⟩
    · obtain rfl := Pc.scan.inj hp
      exact ⟨hr, fun _ => TO.first_lt⟩
    · exact hI.ready i o ho fun hd => hnot (TO.dealt_first.mpr (by rwa [hpc] at hd))
  | leave hpc hr =>
    refine ⟨hI.same, hI.uninterrupted, fun p hp => (by cases hp), fun _ => .inl ?_,
      fun i o ho hnot => ?_⟩
    · refine hr.resolve_right fun hint => ?_
      rw [hI.uninterrupted] at hint
      cases hint
    · exact hI.ready i o ho fun hd => hnot (by rwa [hpc] at hd)
  | pass hpc hto hr =>
    refine ⟨hI.same, hI.uninterrupted, fun p hp => ?_, fun hd => (by cases hd),
      fun i o ho hnot => ?_⟩
    · obtain rfl := Pc.scan.inj hp
      exact ⟨(hI.scan _ hpc).1, fun _ => TO.next_lt⟩
    · exact hI.ready i o ho fun hd => hnot ((TO.dealt_pass hto hr).mpr (by rwa [hpc] at hd))
  | skip hpc hto hr _ => exact hI.updated hpc hto hr fun _ => ⟨rfl, rfl⟩
  | run hpc hto hr _ hsched =>
    obtain ⟨f, hf, rfl⟩ := hk.update _ _ _ hsched
    exact hI.updated hpc hto hr hf
  | exhausted hpc =>
    refine ⟨hI.same, hI.uninterrupted, fun p hp => (by cases hp), fun hd => (by cases hd),
      fun i o ho hnot => ?_⟩
    exact hI.ready i o ho fun hd => hnot (TO.dealt_rank.mpr (by rwa [hpc] at hd))
  | interrupt => cases hcalm

/-- The objects as jobs, of which none is busy between two steps. -/
def jobs (s : State α) : Jobs Nat Status := TO.jobs s.h s.r s.pc.pos fun _ => False

/-- **A step is a run of the jobs.** -/
theorem Inv.steps (hk : kind.Sound ready) (hw : WellRanked h₀) (hI : Inv ready h₀ s)
    (hstep : Step kind s e s') :
    Steps (JobStep h₀.depsOf success skipped) (jobs s) e.jobs (jobs s') := by
  have hidle : ∀ {s' : State α}, s'.h = s.h →
      (∀ k, TO.Dealt s.h s'.r s'.pc.pos k ↔ TO.Dealt s.h s.r s.pc.pos k) →
      Steps (JobStep h₀.depsOf success skipped) (jobs s) [] (jobs s') := by
    intro s' hh hdealt
    have heq : jobs s' = jobs s :=
      TO.jobs_congr (by rwa [hh]) (fun _ => Iff.rfl) (by rw [hh])
    rw [heq]
    exact .nil
  have hws := hI.same.wellRanked hw
  cases hstep with
  | enter hpc _ _ => exact hidle rfl fun k => by rw [hpc]; exact TO.dealt_first
  | leave hpc _ => exact hidle rfl fun k => by rw [hpc]; rfl
  | pass hpc hto hr => exact hidle rfl fun k => by rw [hpc]; exact TO.dealt_pass hto hr
  | skip hpc hto hr hfail =>
    refine .single ?_
    rw [jobs, hpc]
    exact TO.jobs_skip hI.same hws hto hr hfail (fun _ _ _ hb => hb.elim) id
      (fun _ => ⟨rfl, rfl⟩) rfl
  | @run i tobj _ hpc hto hr hfail hsched =>
    obtain ⟨f, hf, rfl⟩ := hk.update _ _ _ hsched
    rw [jobs, hpc]
    -- the object is started and finishes in one step
    have hone : ∀ k, k = i ↔ k = i ∨ False := fun k => (or_iff_left id).symm
    have hstart := TO.jobs_start (f := id) hI.same hws hto hr hfail (fun _ _ _ hb => hb.elim)
      (fun _ => ⟨rfl, rfl⟩) hone
    rw [TO.update_id] at hstart
    have hfinish : JobStep h₀.depsOf success skipped (TO.jobs s.h s.r (s.h.next i) (· = i))
        (.finish i ((s.h.update i f).statusOf i))
        (TO.jobs (s.h.update i f) s.r (s.h.next i) fun _ => False) :=
      TO.jobs_finish hto rfl hf (TO.statusOf_update_self hto).symm
        fun k => ⟨False.elim, fun hne => hne.1 hne.2⟩
    exact (Steps.single hstart).snoc hfinish
  | exhausted hpc => exact hidle rfl fun k => by rw [hpc]; exact TO.dealt_rank
  | interrupt => exact hidle rfl fun _ => Iff.rfl

/-- What is left of the walk through the ranks. -/
def left (n : Nat) : Pc → Nat
  | .ranks => n + 2
  | .scan (some i) => n - i + 1
  | .scan none => 1
  | .done => 0

/-- What is left to do: the ranks that are left, and what is left of this one. -/
def measure (s : State α) : Nat :=
  (s.h.currank + 1 - s.r) * (s.h.objs.length + 2) + left s.h.objs.length s.pc

/-- Going on in the list leaves less of the walk. -/
theorem left_next {h : TO α} {i : Nat} (hi : i < h.objs.length) :
    left h.objs.length (.scan (h.next i)) < left h.objs.length (.scan (some i)) := by
  cases hnext : h.next i with
  | none =>
    rw [left, left]
    omega
  | some j =>
    obtain ⟨rfl, -⟩ := TO.next_some hnext
    rw [left, left]
    omega

/-- Starting the walk leaves less of it. -/
theorem left_first {h : TO α} : left h.objs.length (.scan h.first) < left h.objs.length .ranks := by
  rw [TO.first]
  split
  · rw [left, left]
    omega
  · rw [left, left]
    omega

/-- **Every calm step leaves less to do.** -/
theorem Inv.measure_lt (hk : kind.Sound ready) (hI : Inv ready h₀ s)
    (hstep : calm (Step kind) s e s') : measure s' < measure s := by
  obtain ⟨hstep, hcalm⟩ := hstep
  cases hstep with
  | enter hpc _ _ =>
    rw [measure, measure, hpc]
    exact Nat.add_lt_add_left left_first _
  | leave hpc _ =>
    rw [measure, measure, hpc]
    exact Nat.add_lt_add_left (Nat.succ_pos _) _
  | pass hpc hto _ =>
    rw [measure, measure, hpc]
    exact Nat.add_lt_add_left (left_next (List.getElem?_eq_some_iff.mp hto).1) _
  | skip hpc hto _ _ =>
    rw [measure, measure, hpc, TO.length_update]
    exact Nat.add_lt_add_left (left_next (List.getElem?_eq_some_iff.mp hto).1) _
  | run hpc hto _ _ hsched =>
    obtain ⟨f, hf, rfl⟩ := hk.update _ _ _ hsched
    rw [measure, measure, hpc, TO.length_update]
    exact Nat.add_lt_add_left (left_next (List.getElem?_eq_some_iff.mp hto).1) _
  | exhausted hpc =>
    have hr := (hI.scan _ hpc).1
    rw [measure, measure, hpc, left, left]
    dsimp only
    obtain ⟨a, ha⟩ : ∃ a, s.h.currank + 1 - s.r = a + 1 := ⟨s.h.currank - s.r, by omega⟩
    have ha' : s.h.currank + 1 - (s.r + 1) = a := by omega
    rw [ha, ha', Nat.succ_mul]
    omega
  | interrupt => cases hcalm

/-- A calm scheduler is never stuck. -/
theorem Inv.goes (hk : kind.Sound ready) (hI : Inv ready h₀ s) (hdone : s.pc ≠ .done) :
    ∃ e s', calm (Step kind) s e s' := by
  cases hpc : s.pc with
  | ranks =>
    by_cases hr : s.r ≤ s.h.currank
    · exact ⟨_, _, .enter hpc hr hI.uninterrupted, trivial⟩
    · exact ⟨_, _, .leave hpc (.inl (Nat.lt_of_not_le hr)), trivial⟩
  | scan p =>
    cases p with
    | none => exact ⟨_, _, .exhausted hpc, trivial⟩
    | some i =>
      have hi := (hI.scan _ hpc).2 i rfl
      have ho : s.h.objs[i]? = some s.h.objs[i] := List.getElem?_eq_getElem hi
      by_cases hr : s.h.objs[i].rank = s.r
      · by_cases hfail : s.h.depFailed s.h.objs[i].deps = true
        · exact ⟨_, _, .skip hpc ho hr hfail, trivial⟩
        · have hready := hI.ready i _ ho (by rw [hpc]; exact TO.not_dealt ho hr)
          obtain ⟨h', hsched⟩ := hk.sched s.h i _ ho hready
          exact ⟨_, _, .run hpc ho hr (Bool.eq_false_iff.mpr hfail) hsched, trivial⟩
      · exact ⟨_, _, .pass hpc ho hr, trivial⟩
  | done => exact absurd hpc hdone

/-- **One by one, all jobs are completed.** -/
theorem simple_completes (hk : kind.Sound ready) {h : TO α} (hw : WellRanked h)
    (hbody : ∀ o ∈ h.objs, ready o.body) :
    Completes (calm (Step kind)) (init h) (·.pc = .done) (·.h) h := by
  have hinit := inv_init hbody
  have hreach : ∀ {es : List Event} {s : State α}, Steps (calm (Step kind)) (init h) es s →
      Inv ready h s := fun hrun =>
    hrun.invariant (I := fun _ s => Inv ready h s) hinit fun _ _ _ _ _ hI hstep => hI.step hk hstep
  refine ⟨?_, ?_, ?_⟩
  · exact halts_of_measure (Inv ready h) measure
      (fun s e s' hI hstep => ⟨hI.step hk hstep, hI.measure_lt hk hstep⟩) hinit
  · rintro s ⟨es, hrun⟩ hdone
    exact (hreach hrun).goes hk hdone
  · intro es s hrun hdone
    have hI := hreach hrun
    have hjobs := hrun.simulate jobs Event.jobs (Inv ready h)
      (fun _ _ _ hI hstep => hI.step hk hstep) (fun _ _ _ hI hstep => hI.steps hk hw hstep.1) hinit
    refine complete_of_steps (by decide) (fun i hi => ?_) (fun _ => id) hjobs fun i hi => ?_
    · obtain ⟨o, -, hlt | ⟨-, hpass⟩⟩ := hi
      · exact Nat.not_lt_zero _ hlt
      · exact Nat.not_lt_zero i (hpass 0 (pos_init h))
    · rcases hI.done hdone with hlt | hnil
      · refine settled_of_ranks (hI.same.wellRanked hw) hlt (fun _ => id) ?_
        rw [hI.same.length]
        exact hi
      · have hlen := hI.same.length
        rw [hnil] at hlen
        rw [← hlen] at hi
        exact absurd hi (Nat.not_lt_zero i)

end Simple

end Libu.Test
