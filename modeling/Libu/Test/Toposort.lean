/-
# What the sequencer accepts

The sequencer accepts a list of registered objects exactly if every dependency names an object of
the list and no object depends on itself, and what it then makes of the list is `Sequenced`.

Both directions are about the loop as a whole, and neither needs the order in which it picks: what
counts is what is left when nothing can be picked any more.  The direction from an order to success
is by contradiction, with `Acyclic.exists_last` for the object that could still have been picked.

The loop ends when no object can be picked.  Each object that is left then has a dependency that is
not resolved, and what that one names is left as well (`Open`).  So among the objects that are left
there is a cycle, or one of them names no object.
-/
import Mathlib.Data.Fintype.EquivFin
import Libu.Test.Sequencer

namespace Libu.Test

open Verif

variable {α : Type} {h h' : TO α} {o p q : Obj α} {id : String} {i j k n : Nat}

/-! ## 1. Partial orders of objects -/

/-- A list of objects as they are registered, each with a list of dependencies without repeated
entries. -/
structure Declared (h : TO α) : Prop extends Registered h where
  nodup : ∀ o ∈ h.objs, (o.deps.map (·.id)).Nodup

namespace TO

/-- The object at `i` names the object at `j`. -/
def Depends (h : TO α) (i j : Fin h.objs.length) : Prop :=
  ∃ td ∈ h.objs[i].deps, td.id = h.objs[j].id

/-- Every dependency names an object, and there is no cycle. -/
structure Orderable (h : TO α) : Prop where
  named : ∀ o ∈ h.objs, ∀ td ∈ o.deps, ∃ p ∈ h.objs, p.id = td.id
  acyclic : Acyclic h.Depends

/-- The objects and what they name, which no sequencing changes. -/
def labels (h : TO α) : List (String × List String) := h.objs.map fun o => (o.id, o.deps.map (·.id))

/-- The list `h` after its sequencing.  Every dependency is linked to the object that it names,
which has a lower rank, and the scheduler gets to the rank of every object. -/
structure Sequenced (h h' : TO α) : Prop where
  labels : h'.labels = h.labels
  linked : ∀ o ∈ h'.objs, ∀ td ∈ o.deps, ∃ (j : Nat) (p : Obj α),
    td.upref = some j ∧ h'.objs[j]? = some p ∧ p.id = td.id ∧ p.rank < o.rank
  rank : ∀ o ∈ h'.objs, o.rank ≤ h'.currank

/-! ## 2. What an eviction resolves -/

/-- Resolving changes no label. -/
theorem resolve_ids {u : Option Nat} : ∀ {deps deps' : List Dep}, resolve id u deps = some deps' →
    deps'.map (·.id) = deps.map (·.id)
  | [], _, h => by cases h
  | d :: deps, deps', h => by
    rw [resolve] at h
    split at h
    · obtain rfl := Option.some.inj h
      rfl
    · obtain ⟨rest, hrest, rfl⟩ := Option.map_eq_some_iff.mp h
      rw [List.map_cons, List.map_cons, resolve_ids hrest]

/-- Where no entry is repeated, the first is the only one. -/
theorem resolve_upref {u : Option Nat} : ∀ {deps deps' : List Dep}, (deps.map (·.id)).Nodup →
    resolve id u deps = some deps' → ∀ td ∈ deps', td.id = id → td.upref = u
  | [], _, _, h, _, _, _ => by cases h
  | d :: deps, deps', hnd, h, td, htd, hid => by
    obtain ⟨hd, hnd⟩ := List.nodup_cons.mp hnd
    rw [resolve] at h
    split at h
    · next heq =>
      obtain rfl := Option.some.inj h
      rcases List.mem_cons.mp htd with rfl | htd
      · rfl
      · exact absurd (List.mem_map.mpr ⟨td, htd, hid.trans heq.symm⟩) hd
    · next hne =>
      obtain ⟨rest, hrest, rfl⟩ := Option.map_eq_some_iff.mp h
      rcases List.mem_cons.mp htd with rfl | htd
      · exact absurd hid hne
      · exact resolve_upref hnd hrest td htd hid

/-- Neither does an eviction. -/
theorem evictObj_ids (h : TO α) (id : String) (o : Obj α) :
    (h.evictObj id o).deps.map (·.id) = o.deps.map (·.id) := by
  simp only [evictObj]
  split
  · next deps hres => split <;> exact resolve_ids hres
  · split <;> rfl

/-- The evicted object is where the dependency on it leads. -/
theorem evictObj_upref (hnd : (o.deps.map (·.id)).Nodup) :
    ∀ td ∈ (h.evictObj id o).deps, td.id = id → td.upref = h.search id := by
  intro td htd hid
  cases hres : resolve id (h.search id) o.deps with
  | none =>
    have hno := resolve_eq_none.mp hres
    rw [(evictObj_of_not_mem hno).1] at htd
    exact absurd hid (hno td htd)
  | some deps =>
    have hdeps : (h.evictObj id o).deps = deps := by
      simp only [evictObj, hres]
      split <;> rfl
    rw [hdeps] at htd
    exact resolve_upref hnd hres td htd hid

/-- The dependencies on other objects are left alone. -/
theorem mem_of_mem_evictObj {td : Dep} (htd : td ∈ (h.evictObj id o).deps) (hne : td.id ≠ id) :
    td ∈ o.deps := by
  by_cases hdep : ∃ td ∈ o.deps, td.id = id
  · exact ((evictObj_of_mem hdep).2 td htd).resolve_right fun hid => hne hid.1
  · have hno : ∀ td ∈ o.deps, td.id ≠ id := fun td htd hid => hdep ⟨td, htd, hid⟩
    rwa [(evictObj_of_not_mem hno).1] at htd

@[simp] theorem evictId_labels (h : TO α) (id : String) : (h.evictId id).labels = h.labels := by
  simp [labels, evictId, Function.comp_def, evictObj_ids]

/-- The whole loop leaves the labels and what they name. -/
theorem sequenceLoop_labels : ∀ (n : Nat) (h : TO α), (sequenceLoop n h).labels = h.labels
  | 0, _ => rfl
  | n + 1, h => by
    rw [sequenceLoop]
    split
    · rfl
    · next h' id hpick =>
      obtain ⟨k, o, -, -, -, rfl, rfl⟩ := pickTop_some hpick
      rw [sequenceLoop_labels n, evictId_labels]
      rfl

/-- The objects of two lists with the same labels, one by one. -/
theorem getElem?_of_labels (hl : h'.labels = h.labels) (ho : h.objs[i]? = some o) :
    ∃ o' : Obj α, h'.objs[i]? = some o' ∧ o'.id = o.id ∧ o'.deps.map (·.id) =
      o.deps.map (·.id) := by
  have hi : h'.labels[i]? = some (o.id, o.deps.map (·.id)) := by
    rw [hl, labels, List.getElem?_map, ho]
    rfl
  rw [labels, List.getElem?_map] at hi
  obtain ⟨o', ho', heq⟩ := Option.map_eq_some_iff.mp hi
  obtain ⟨hid, hdeps⟩ := Prod.mk.inj heq
  exact ⟨o', ho', hid, hdeps⟩

/-- An object of the one list has its counterpart in the other. -/
theorem mem_of_labels (hl : h'.labels = h.labels) (ho : o ∈ h.objs) :
    ∃ o' ∈ h'.objs, o'.id = o.id ∧ o'.deps.map (·.id) = o.deps.map (·.id) := by
  obtain ⟨i, hi⟩ := List.getElem?_of_mem ho
  obtain ⟨o', ho', heq⟩ := getElem?_of_labels hl hi
  exact ⟨o', List.mem_of_getElem? ho', heq⟩

/-! ## 3. What is left when the loop ends -/

/-- A dependency that is not resolved names no object that is sequenced. -/
structure Open (h : TO α) : Prop where
  ids : (h.objs.map (·.id)).Nodup
  nodup : ∀ o ∈ h.objs, (o.deps.map (·.id)).Nodup
  upref : ∀ o ∈ h.objs, ∀ td ∈ o.deps, td.upref = none → ∀ p ∈ h.objs, p.id = td.id →
    p.sequenced = false

/-- At the start, what is not resolved is what nothing has been evicted for. -/
theorem open_of_declared (hd : Declared h) : Open h :=
  ⟨hd.ids, hd.nodup, fun _ _ _ _ _ p hp _ => hd.sequenced p hp⟩

/-- An object is found by its label. -/
theorem search_isSome (ho : o ∈ h.objs) : h.search o.id ≠ none := by
  intro hnone
  have hno := List.findIdx?_eq_none_iff.mp hnone o ho
  simp at hno

/-- An eviction keeps it so: the dependencies on the object are resolved everywhere. -/
theorem Open.evictId (hop : Open h) (ho : o ∈ h.objs) : Open (h.evictId o.id) := by
  constructor
  · have hmap : (h.evictId o.id).objs.map (·.id) = h.objs.map (·.id) := by
      simp [TO.evictId, Function.comp_def]
    rw [hmap]
    exact hop.ids
  · intro q' hq'
    obtain ⟨q, hq, rfl⟩ := List.mem_map.mp hq'
    rw [evictObj_ids]
    exact hop.nodup q hq
  · intro q' hq' td htd hnone p' hp' hid
    obtain ⟨q, hq, rfl⟩ := List.mem_map.mp hq'
    obtain ⟨p, hp, rfl⟩ := List.mem_map.mp hp'
    rw [evictObj_id] at hid
    have hne : td.id ≠ o.id := by
      intro heq
      rw [evictObj_upref (hop.nodup q hq) td htd heq] at hnone
      exact search_isSome ho hnone
    rw [evictObj_sequenced, hop.upref q hq td (mem_of_mem_evictObj htd hne) hnone p hp hid,
      Bool.false_or, decide_eq_false_iff_not, hid]
    exact hne

/-- The loop keeps it so, by induction on its turns. -/
theorem Open.sequenceLoop : ∀ {n : Nat} {h : TO α}, Open h → Open (sequenceLoop n h)
  | 0, _, hop => hop
  | n + 1, h, hop => by
    rw [TO.sequenceLoop]
    split
    · exact hop
    · next h' id hpick =>
      obtain ⟨k, o, ho, -, -, rfl, rfl⟩ := pickTop_some hpick
      have hop' : Open { h with currank := max o.rank h.currank } := ⟨hop.ids, hop.nodup, hop.upref⟩
      exact (hop'.evictId (List.mem_of_getElem? ho)).sequenceLoop

/-- An object that is left depends on another one that is left. -/
theorem Open.dep_left (hop : Open h) (hnamed : ∀ o ∈ h.objs, ∀ td ∈ o.deps,
    ∃ p ∈ h.objs, p.id = td.id)
    (hpick : h.pickTop = none) (ho : o ∈ h.objs) (hs : o.sequenced = false) :
    ∃ td ∈ o.deps, ∃ p ∈ h.objs, p.id = td.id ∧ p.sequenced = false := by
  rw [pickTop, Option.map_eq_none_iff, List.find?_eq_none] at hpick
  have hdry : depDry o.deps ≠ true := by
    intro hdry
    exact hpick o ho (by rw [hs, hdry]; rfl)
  obtain ⟨td, htd, hnone⟩ : ∃ td ∈ o.deps, td.upref = none := by
    simpa [depDry] using hdry
  obtain ⟨p, hp, hid⟩ := hnamed o ho td htd
  exact ⟨td, htd, p, hp, hid, hop.upref o ho td htd hnone p hp hid⟩

/-! ## 4. The sequencer -/

/-- Whether a list can be ordered is a matter of its labels. -/
theorem orderable_of_labels (hl : h'.labels = h.labels) (hord : Orderable h) : Orderable h' := by
  have hlen : h'.objs.length = h.objs.length := by
    simpa [labels] using congrArg List.length hl
  constructor
  · intro o' ho' td' htd'
    obtain ⟨o, ho, -, hdeps⟩ := mem_of_labels hl.symm ho'
    have hmem : td'.id ∈ o.deps.map (·.id) := by
      rw [hdeps]
      exact List.mem_map.mpr ⟨td', htd', rfl⟩
    obtain ⟨td, htd, hid⟩ := List.mem_map.mp hmem
    obtain ⟨p, hp, hpid⟩ := hord.named o ho td htd
    obtain ⟨p', hp', hpid', -⟩ := mem_of_labels hl hp
    exact ⟨p', hp', hpid'.trans (hpid.trans hid)⟩
  · intro i hcyc
    refine hord.acyclic (i.cast hlen) (Relation.TransGen.lift (Fin.cast hlen) ?_ i i hcyc)
    rintro a b ⟨td', htd', hid⟩
    obtain ⟨o', ho', -, hdeps⟩ := getElem?_of_labels hl.symm (List.getElem?_eq_getElem a.2)
    obtain ⟨p', hp', hpid, -⟩ := getElem?_of_labels hl.symm (List.getElem?_eq_getElem b.2)
    obtain ⟨_, rfl⟩ := List.getElem?_eq_some_iff.mp ho'
    obtain ⟨_, rfl⟩ := List.getElem?_eq_some_iff.mp hp'
    have hmem : td'.id ∈ h'.objs[(a : Nat)].deps.map (·.id) := List.mem_map.mpr ⟨td', htd', rfl⟩
    rw [← hdeps] at hmem
    obtain ⟨td, htd, htdid⟩ := List.mem_map.mp hmem
    exact ⟨td, htd, htdid.trans (hid.trans hpid.symm)⟩

/-- **The sequencer is complete**: it leaves no object of a partial order out. -/
theorem sequencer_isSome (hd : Declared h) (hord : Orderable h) : ∃ h', h.sequencer = some h' := by
  have hl := sequenceLoop_labels h.objs.length h
  have hord' := orderable_of_labels hl hord
  have hop := (open_of_declared hd).sequenceLoop (n := h.objs.length)
  have hpick : (sequenceLoop h.objs.length h).pickTop = none :=
    pickTop_sequenceLoop List.countP_le_length
  refine ⟨sequenceLoop h.objs.length h, ?_⟩
  rw [sequencer]
  refine if_pos (List.all_eq_true.mpr ?_)
  -- an object that is left, and depends on none that is left
  by_contra hleft
  obtain ⟨i, hi, hlast⟩ := hord'.acyclic.exists_last
    (P := fun i => (sequenceLoop h.objs.length h).objs[i].sequenced = false) (by
      push Not at hleft
      obtain ⟨o, ho, hs⟩ := hleft
      obtain ⟨i, hlt, rfl⟩ := List.getElem_of_mem ho
      exact ⟨⟨i, hlt⟩, Bool.eq_false_iff.mpr hs⟩)
  obtain ⟨td, htd, p, hp, hid, hps⟩ := hop.dep_left hord'.named hpick (List.getElem_mem i.2) hi
  obtain ⟨j, hlt, rfl⟩ := List.getElem_of_mem hp
  exact hlast ⟨j, hlt⟩ ⟨td, htd, hid.symm⟩ hps

/-- **The sequencer is sound.** -/
theorem sequenced_of_sequencer (hreg : Registered h) (hseq : h.sequencer = some h') :
    Sequenced h h' := by
  have hwell := wellRanked_of_sequencer hreg hseq
  rw [sequencer] at hseq
  split at hseq
  · obtain rfl := Option.some.inj hseq
    have hr := (ranking_of_registered hreg).sequenceLoop (n := h.objs.length)
    refine ⟨sequenceLoop_labels _ h, fun o ho td htd => ?_, hwell.rank⟩
    obtain ⟨i, hi⟩ := List.getElem?_of_mem ho
    obtain ⟨j, -, hj, -⟩ := hwell.deps i o hi td htd
    obtain ⟨p, hp, hid, -, hlt⟩ := hr.deps i o hi td htd j hj
    exact ⟨j, p, hj, hp, hid, hlt⟩
  · cases hseq

/-- A list whose ranks go up along its dependencies is a partial order. -/
theorem Sequenced.orderable (hids : (h.objs.map (·.id)).Nodup)
    (hs : Sequenced h h') : Orderable h := by
  have hord : Orderable h' := by
    have hids' : (h'.objs.map (·.id)).Nodup := by
      have heq : ∀ h : TO α, h.objs.map (·.id) = h.labels.map (·.1) := by
        intro h
        simp [TO.labels, Function.comp_def]
      rwa [heq, hs.labels, ← heq]
    constructor
    · intro o ho td htd
      obtain ⟨j, p, -, hp, hid, -⟩ := hs.linked o ho td htd
      exact ⟨p, List.mem_of_getElem? hp, hid⟩
    · refine acyclic_of_rank (fun i => h'.objs[i].rank) ?_
      rintro i j ⟨td, htd, hid⟩
      obtain ⟨k, p, -, hp, hpid, hlt⟩ := hs.linked _ (List.getElem_mem i.2) td htd
      obtain ⟨hk, rfl⟩ := List.getElem?_eq_some_iff.mp hp
      -- what the dependency names is the object it is linked to, since labels are not shared
      obtain rfl : k = j := by
        have hkl : k < (h'.objs.map (·.id)).length := by simpa using hk
        have hjl : j.1 < (h'.objs.map (·.id)).length := by simp
        have heq : (h'.objs.map (·.id))[k] =
          (h'.objs.map (·.id))[j.1] := by simpa using hpid.trans hid
        exact (List.getElem_inj hids').mp heq
      exact hlt
  exact orderable_of_labels hs.labels.symm hord

/-- **The sequencer accepts a list if and only if it can be ordered.** -/
theorem sequencer_isSome_iff (hd : Declared h) : (∃ h', h.sequencer = some h') ↔ Orderable h := by
  constructor
  · rintro ⟨h', hseq⟩
    exact (sequenced_of_sequencer hd.toRegistered hseq).orderable hd.ids
  · exact sequencer_isSome hd

end TO

/-! ## 5. Test suites and their test cases -/

section Suites

theorem mapM_sequencer_isSome {l : List (Obj Suite)} (h : ∀ ts ∈ l, ∃ cases,
    ts.body.sequencer = some cases) :
    ∃ l', l.mapM (fun ts => ts.body.sequencer.map fun cases => { ts with body := cases }) =
    some l' := by
  induction l with
  | nil => exact ⟨[], rfl⟩
  | cons ts l ih =>
    obtain ⟨cases, hcases⟩ := h ts List.mem_cons_self
    obtain ⟨rest, hrest⟩ := ih fun ts hts => h ts (List.mem_cons_of_mem _ hts)
    exact ⟨{ ts with body := cases } :: rest, by rw [List.mapM_cons, hcases, hrest]; rfl⟩

/-- The suites of the two lists, one by one. -/
theorem CasesSequenced.getElem? {l l' : List (Obj Suite)} (h : CasesSequenced l l')
    {i : Nat} {ts : Obj Suite}
    (hts : l[i]? = some ts) : ∃ ts', l'[i]? = some ts' ∧ ts.body.sequencer = some ts'.body ∧
      ts' = { ts with body := ts'.body } := by
  induction h generalizing i with
  | nil => cases hts
  | cons hR _ ih =>
    cases i with
    | zero =>
      obtain rfl := Option.some.inj hts
      exact ⟨_, rfl, hR⟩
    | succ i => exact ih hts

/-- Sequencing the test cases changes nothing of the suites' order. -/
theorem TO.Sequenced.cases {t h : TO Suite} {objs : List (Obj Suite)} (hs : t.Sequenced h)
    (hcases : CasesSequenced h.objs objs) : t.Sequenced { h with objs } := by
  constructor
  · rw [← hs.labels]
    exact hcases.map_eq fun _ _ => rfl
  · intro o' ho' td htd
    obtain ⟨o, ho, -, heq⟩ := hcases.mem ho'
    rw [heq] at htd ⊢
    obtain ⟨j, p, hup, hp, hid, hlt⟩ := hs.linked o ho td htd
    obtain ⟨p', hp', -, heq'⟩ := hcases.getElem? hp
    refine ⟨j, p', hup, hp', ?_, ?_⟩
    · rw [heq']
      exact hid
    · rw [heq']
      exact hlt
  · intro o' ho'
    obtain ⟨o, ho, -, heq⟩ := hcases.mem ho'
    rw [heq]
    exact hs.rank o ho

/-- The sequencer orders the suites, and then the test cases of each. -/
theorem sequencer_eq_some {t t' : TO Suite} : sequencer t = some t' ↔ ∃ h objs,
    t.sequencer = some h ∧
    h.objs.mapM (fun ts => ts.body.sequencer.map fun cases => { ts with body := cases }) =
    some objs ∧ t' = { h with objs } := by
  rw [sequencer]
  constructor
  · intro h
    obtain ⟨h, hseq, hrest⟩ := Option.bind_eq_some_iff.mp h
    obtain ⟨objs, hobjs, heq⟩ := Option.bind_eq_some_iff.mp hrest
    exact ⟨h, objs, hseq, hobjs, (Option.some.inj heq).symm⟩
  · rintro ⟨h, objs, hseq, hobjs, rfl⟩
    rw [hseq, Option.bind_eq_bind, Option.bind_some, hobjs]
    rfl

/-- A property of the test cases of all suites is one of each suite. -/
theorem forall_body {t h : TO Suite} {P : TO Case → Prop}
    (heq : h.objs.map (·.body) = t.objs.map (·.body))
    (ht : ∀ ts ∈ t.objs, P ts.body) : ∀ ts ∈ h.objs, P ts.body := by
  intro ts hts
  have hmem : ts.body ∈ t.objs.map (·.body) := by
    rw [← heq]
    exact List.mem_map.mpr ⟨ts, hts, rfl⟩
  obtain ⟨ts', hts', heq'⟩ := List.mem_map.mp hmem
  rw [← heq']
  exact ht ts' hts'

theorem forall₂_sequenced {l l' : List (Obj Suite)} (hd : ∀ ts ∈ l, Declared ts.body)
    (h : List.Forall₂ (fun ts ts' => ts.body.sequencer = some ts'.body) l l') :
    List.Forall₂ (fun ts ts' => ts.body.Sequenced ts'.body) l l' := by
  induction h with
  | nil => exact .nil
  | cons hseq _ ih =>
    obtain ⟨hts, hd⟩ := List.forall_mem_cons.mp hd
    exact .cons (TO.sequenced_of_sequencer hts.toRegistered hseq) (ih hd)

/-- The suites in their order, and the test cases of each in theirs. -/
structure SuitesSequenced (t t' : TO Suite) : Prop where
  suites : t.Sequenced t'
  cases : List.Forall₂ (fun ts ts' => ts.body.Sequenced ts'.body) t.objs t'.objs

/-- **The sequencer is a topological sort**, of test cases and of test suites.  On objects as they
are registered it succeeds if and only if every dependency names an object of the list and no object
depends on itself, however indirectly; and then the list that it returns is the given one with every
dependency resolved and every rank above those of what the object depends on. -/
theorem sequencer_iff_orderable :
    (∀ h : TO Case, Declared h → ((∃ h', h.sequencer = some h') ↔ h.Orderable) ∧
      ∀ h', h.sequencer = some h' → h.Sequenced h') ∧
    (∀ t : TO Suite, Declared t → (∀ ts ∈ t.objs, Declared ts.body) →
      ((∃ t', sequencer t = some t') ↔ t.Orderable ∧ ∀ ts ∈ t.objs, ts.body.Orderable) ∧
      ∀ t', sequencer t = some t' → SuitesSequenced t t') := by
  refine ⟨fun h hd => ⟨TO.sequencer_isSome_iff hd,
    fun h' => TO.sequenced_of_sequencer hd.toRegistered⟩, fun t hd hcases => ⟨⟨?_, ?_⟩, ?_⟩⟩
  · rintro ⟨t', hseq⟩
    obtain ⟨h, objs, hh, hobjs, rfl⟩ := sequencer_eq_some.mp hseq
    have hbody := TO.sequencer_body hh
    have hcases' := forall_body hbody hcases
    refine ⟨(TO.sequencer_isSome_iff hd).mp ⟨h, hh⟩, forall_body hbody.symm fun ts hts => ?_⟩
    obtain ⟨i, hi⟩ := List.getElem?_of_mem hts
    obtain ⟨ts', -, hseq', -⟩ := (mapM_sequencer hobjs).getElem? hi
    exact (TO.sequencer_isSome_iff (hcases' ts hts)).mp ⟨_, hseq'⟩
  · rintro ⟨hord, hords⟩
    obtain ⟨h, hh⟩ := TO.sequencer_isSome hd hord
    have hseq : ∀ ts ∈ t.objs, ∃ cases, ts.body.sequencer = some cases := by
      intro ts hts
      exact TO.sequencer_isSome (hcases ts hts) (hords ts hts)
    obtain ⟨objs, hobjs⟩ := mapM_sequencer_isSome
      (forall_body (P := fun cases => ∃ cases', cases.sequencer = some cases')
        (TO.sequencer_body hh) hseq)
    exact ⟨_, sequencer_eq_some.mpr ⟨h, objs, hh, hobjs, rfl⟩⟩
  · intro t' hseq
    obtain ⟨h, objs, hh, hobjs, rfl⟩ := sequencer_eq_some.mp hseq
    have hs := TO.sequenced_of_sequencer hd.toRegistered hh
    have hobjs := mapM_sequencer hobjs
    refine ⟨hs.cases hobjs, forall₂_sequenced hcases ?_⟩
    -- the bodies of `h` are those of `t`
    have hall : List.Forall₂ (fun cases ts' => cases.sequencer = some (Obj.body ts'))
        (h.objs.map (·.body)) objs := List.forall₂_map_left_iff.mpr (hobjs.imp fun _ _ hR => hR.1)
    rw [TO.sequencer_body hh] at hall
    exact List.forall₂_map_left_iff.mp hall

end Suites

/-- Two test cases, the first of which needs the second. -/
def pair : TO Case :=
  ⟨0, 0, [⟨"a", false, 0, success, [⟨"b", none⟩], ⟨true, none⟩⟩,
    ⟨"b", false, 0, success, [], ⟨true, none⟩⟩]⟩

theorem declared_pair : Declared pair := by
  refine ⟨⟨?_, ?_, ?_⟩, ?_⟩ <;> decide

/-- Two suites, the second of which needs the first and contains them. -/
def suites : TO Suite :=
  ⟨0, 0, [⟨"s", false, 0, success, [], ⟨0, 0, []⟩⟩, ⟨"t", false, 0, success, [⟨"s", none⟩], pair⟩]⟩

theorem sequencer_iff_orderable_suites :
    pair.Orderable ∧ suites.Orderable ∧ ∀ ts ∈ suites.objs, ts.body.Orderable := by
  have hcases : ∀ ts ∈ suites.objs, Declared ts.body := by
    rw [suites, List.forall_mem_cons, List.forall_mem_singleton]
    exact ⟨⟨⟨by decide, by decide, by decide⟩, by decide⟩, declared_pair⟩
  have hsuites : Declared suites := ⟨⟨by decide, by decide, by decide⟩, by decide⟩
  exact ⟨(sequencer_iff_orderable.1 pair declared_pair).1.mp
    (Option.isSome_iff_exists.mp (by decide)), (sequencer_iff_orderable.2 suites hsuites
      hcases).1.mp (Option.isSome_iff_exists.mp (by decide))⟩

/-- Two test cases that need each other are refused. -/
example : (TO.sequencer (α := Case) ⟨0, 0, [⟨"a", false, 0, success, [⟨"b", none⟩], ⟨true, none⟩⟩,
    ⟨"b", false, 0, success, [⟨"a", none⟩], ⟨true, none⟩⟩]⟩) = none := by decide

end Libu.Test
