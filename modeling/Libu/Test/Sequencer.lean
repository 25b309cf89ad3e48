/-
# What the sequencer promises the scheduler

When the sequencer accepts a list of registered objects, every dependency is resolved to an object
of the list with a lower rank, and no rank is above the rank of the list
(`wellRanked_of_sequencer`).

The sequencer picks, again and again, an object all of whose dependencies are resolved, gives it the
rank that has been counted so far, and evicts it: every dependency on it is resolved to it.  A
dependency that is resolved therefore names an object that was picked before, and what the
schedulers need to know of the whole loop is that picking and evicting keep this.
-/
import Mathlib.Data.List.Forall2
import Libu.Test.Basic

namespace Libu.Test

variable {α : Type} {h h' : TO α} {o p q : Obj α} {id : String} {i j k n : Nat}

/-! ## 1. One object in the loop of an eviction -/

/-- A list of objects as they are registered.  Their labels "MUST be unique". -/
structure Registered (h : TO α) : Prop where
  ids : (h.objs.map (·.id)).Nodup
  sequenced : ∀ o ∈ h.objs, o.sequenced = false
  deps : ∀ o ∈ h.objs, ∀ td ∈ o.deps, td.upref = none

structure WellRanked (h : TO α) : Prop where
  deps : ∀ (i : Nat) (o : Obj α), h.objs[i]? = some o → ∀ td ∈ o.deps, ∃ (j : Nat) (p : Obj α),
    td.upref = some j ∧ h.objs[j]? = some p ∧ p.rank < o.rank
  rank : ∀ o ∈ h.objs, o.rank ≤ h.currank

namespace TO

theorem resolve_eq_none {u : Option Nat} : ∀ {deps : List Dep}, resolve id u deps = none ↔
    ∀ td ∈ deps, td.id ≠ id
  | [] => by simp [resolve]
  | d :: deps => by
    rw [resolve]
    split
    · next heq => simp [heq]
    · next hne =>
      rw [Option.map_eq_none_iff, resolve_eq_none, List.forall_mem_cons]
      exact (and_iff_right hne).symm

theorem resolve_some {u : Option Nat} : ∀ {deps deps' : List Dep}, resolve id u deps = some deps' →
    ∀ td ∈ deps', td ∈ deps ∨ (td.id = id ∧ td.upref = u)
  | [], _, h, _, _ => by cases h
  | d :: deps, deps', h, td, htd => by
    rw [resolve] at h
    split at h
    · next heq =>
      obtain rfl := Option.some.inj h
      rcases List.mem_cons.mp htd with rfl | htd
      · exact .inr ⟨heq, rfl⟩
      · exact .inl (List.mem_cons_of_mem _ htd)
    · obtain ⟨rest, hrest, rfl⟩ := Option.map_eq_some_iff.mp h
      rcases List.mem_cons.mp htd with rfl | htd
      · exact .inl List.mem_cons_self
      · exact (resolve_some hrest td htd).imp_left (List.mem_cons_of_mem _)

@[simp] theorem evictObj_id (h : TO α) (id : String) (o : Obj α) : (h.evictObj id o).id = o.id := by
  simp only [evictObj]
  split <;> split <;> rfl

@[simp] theorem evictObj_body (h : TO α) (id : String) (o : Obj α) :
    (h.evictObj id o).body = o.body := by
  simp only [evictObj]
  split <;> split <;> rfl

theorem evictObj_sequenced (h : TO α) (id : String) (o : Obj α) :
    (h.evictObj id o).sequenced = (o.sequenced || o.id = id) := by
  simp only [evictObj]
  split <;> split <;> simp_all

/-- An object that does not depend on the evicted one. -/
theorem evictObj_of_not_mem (hno : ∀ td ∈ o.deps, td.id ≠ id) :
    (h.evictObj id o).deps = o.deps ∧ (h.evictObj id o).rank = o.rank := by
  have hnone := resolve_eq_none (u := h.search id) |>.mpr hno
  simp only [evictObj, hnone]
  split <;> exact ⟨rfl, rfl⟩

/-- An object that does. -/
theorem evictObj_of_mem (hdep : ∃ td ∈ o.deps, td.id = id) :
    (h.evictObj id o).rank = h.currank + 1 ∧ ∀ td ∈ (h.evictObj id o).deps,
      td ∈ o.deps ∨ (td.id = id ∧ td.upref = h.search id) := by
  cases hres : resolve id (h.search id) o.deps with
  | none =>
    obtain ⟨td, htd, heq⟩ := hdep
    exact absurd heq (resolve_eq_none.mp hres td htd)
  | some deps =>
    simp only [evictObj, hres]
    split <;> exact ⟨rfl, resolve_some hres⟩

/-! ## 2. The loop -/

/-- What is true of a list while it is sequenced. -/
structure Ranking (h : TO α) : Prop where
  ids : (h.objs.map (·.id)).Nodup
  deps : ∀ (i : Nat) (o : Obj α), h.objs[i]? = some o → ∀ td ∈ o.deps, ∀ j, td.upref = some j →
    ∃ p : Obj α, h.objs[j]? = some p ∧ p.id = td.id ∧ p.sequenced = true ∧ p.rank < o.rank
  dry : ∀ o ∈ h.objs, o.sequenced = true → depDry o.deps = true
  rank : ∀ o ∈ h.objs, o.sequenced = true → o.rank ≤ h.currank

theorem ranking_of_registered (hr : Registered h) : Ranking h := by
  refine ⟨hr.ids, fun i o ho td htd j hj => ?_, fun o ho hs => ?_, fun o ho hs => ?_⟩
  · rw [hr.deps o (List.mem_of_getElem? ho) td htd] at hj
    cases hj
  · rw [hr.sequenced o ho] at hs
    cases hs
  · rw [hr.sequenced o ho] at hs
    cases hs

/-- Objects with one label are one object. -/
theorem Ranking.inj (hr : Ranking h) (ho : h.objs[i]? = some o) (hp : h.objs[j]? = some p)
    (hid : o.id = p.id) : i = j ∧ o = p := by
  have hlt : i < (h.objs.map (·.id)).length := by
    rw [List.length_map]
    exact (List.getElem?_eq_some_iff.mp ho).1
  obtain rfl : i = j := (List.getElem?_inj hlt hr.ids).mp (by simp [ho, hp, hid])
  exact ⟨rfl, Option.some.inj (ho.symm.trans hp)⟩

theorem Ranking.search_eq (hr : Ranking h) (ho : h.objs[k]? = some o) : h.search o.id = some k := by
  have hmem : o ∈ h.objs := List.mem_of_getElem? ho
  cases hs : h.search o.id with
  | none =>
    have hno := List.findIdx?_eq_none_iff.mp hs o hmem
    simp at hno
  | some i =>
    obtain ⟨hlt, hp, -⟩ := List.findIdx?_eq_some_iff_getElem.mp hs
    have hi : h.objs[i]? = some h.objs[i] := List.getElem?_eq_getElem hlt
    rw [(hr.inj hi ho (of_decide_eq_true hp)).1]

theorem pickTop_some (hpick : h.pickTop = some (h', id)) : ∃ (k : Nat) (o : Obj α),
    h.objs[k]? = some o ∧ o.sequenced = false ∧ depDry o.deps = true ∧ id = o.id ∧
    h' = { h with currank := max o.rank h.currank } := by
  obtain ⟨o, hfind, heq⟩ := Option.map_eq_some_iff.mp hpick
  obtain ⟨rfl, rfl⟩ := Prod.mk.inj heq
  obtain ⟨k, ho⟩ := List.getElem?_of_mem (List.mem_of_find?_eq_some hfind)
  have hp := List.find?_some hfind
  simp only [Bool.and_eq_true, Bool.not_eq_true'] at hp
  exact ⟨k, o, ho, hp.1, hp.2, rfl, rfl⟩

/-- An object whose dependencies are all resolved does not depend on one that is still to be
sequenced. -/
theorem Ranking.not_dep (hr : Ranking h) (ho : h.objs[k]? = some o) (hs : o.sequenced = false)
    (hp : h.objs[i]? = some p) (hdry : depDry p.deps = true) : ∀ td ∈ p.deps, td.id ≠ o.id := by
  intro td htd hid
  obtain ⟨j, hj⟩ := Option.isSome_iff_exists.mp (List.all_eq_true.mp hdry td htd)
  obtain ⟨q, hq, hqid, hqs, -⟩ := hr.deps i p hp td htd j hj
  obtain ⟨-, rfl⟩ := hr.inj hq ho (hqid.trans hid)
  rw [hs] at hqs
  cases hqs

theorem Ranking.currank (hr : Ranking h) (hle : h.currank ≤ n) : Ranking { h with currank := n } :=
  ⟨hr.ids, hr.deps, hr.dry, fun o ho hs => Nat.le_trans (hr.rank o ho hs) hle⟩

/-- **One eviction**, of an object whose dependencies are all resolved. -/
theorem Ranking.evictId (hr : Ranking h) (ho : h.objs[k]? = some o) (hs : o.sequenced = false)
    (hdry : depDry o.deps = true) (hrank : o.rank ≤ h.currank) : Ranking (h.evictId o.id) := by
  have hkeep : ∀ {i : Nat} {p : Obj α}, h.objs[i]? = some p → p.sequenced = true ∨ p.id = o.id →
      (h.evictObj o.id p).deps = p.deps ∧ (h.evictObj o.id p).rank = p.rank ∧
        depDry p.deps = true ∧ p.rank ≤ h.currank := by
    intro i p hp hor
    have hmem := List.mem_of_getElem? hp
    have hpdry : depDry p.deps = true ∧ p.rank ≤ h.currank := by
      rcases hor with hps | hid
      · exact ⟨hr.dry p hmem hps, hr.rank p hmem hps⟩
      · obtain ⟨-, rfl⟩ := hr.inj hp ho hid
        exact ⟨hdry, hrank⟩
    obtain ⟨hdeps, hrk⟩ := evictObj_of_not_mem (h := h) (hr.not_dep ho hs hp hpdry.1)
    exact ⟨hdeps, hrk, hpdry⟩
  have hget : ∀ {i : Nat} {q : Obj α}, (h.evictId o.id).objs[i]? = some q →
      ∃ p, h.objs[i]? = some p ∧ q = h.evictObj o.id p := by
    intro i q hq
    obtain ⟨p, hp, heq⟩ := Option.map_eq_some_iff.mp (List.getElem?_map.symm.trans hq)
    exact ⟨p, hp, heq.symm⟩
  have hset : ∀ {i : Nat} {p : Obj α}, h.objs[i]? = some p →
      (h.evictId o.id).objs[i]? = some (h.evictObj o.id p) := by
    intro i p hp
    exact List.getElem?_map.trans (by rw [hp]; rfl)
  have hor : ∀ {p : Obj α}, (h.evictObj o.id p).sequenced = true → p.sequenced =
    true ∨ p.id = o.id := by
    intro p hp
    simpa [evictObj_sequenced] using hp
  refine ⟨?_, fun i q hq td htd j hj => ?_, fun q hq hqs => ?_, fun q hq hqs => ?_⟩
  · have hmap : (h.evictId o.id).objs.map (·.id) = h.objs.map (·.id) := by
      simp [TO.evictId, Function.comp_def]
    rw [hmap]
    exact hr.ids
  · obtain ⟨p, hp, rfl⟩ := hget hq
    -- what was resolved before is sequenced: its rank is as it was, and not above the rank reached
    have hold : td ∈ p.deps → p.rank = (h.evictObj o.id p).rank ∨
        h.currank < (h.evictObj o.id p).rank → ∃ r : Obj α, (h.evictId o.id).objs[j]? = some r ∧
          r.id = td.id ∧ r.sequenced = true ∧ r.rank < (h.evictObj o.id p).rank := by
      intro hmem hle
      obtain ⟨r, hrj, hrid, hrs, hlt⟩ := hr.deps i p hp td hmem j hj
      obtain ⟨-, hrk, -, hrle⟩ := hkeep hrj (.inl hrs)
      refine ⟨_, hset hrj, by rw [evictObj_id, hrid], by simp [evictObj_sequenced, hrs], ?_⟩
      rw [hrk]
      rcases hle with heq | hle
      · rwa [← heq]
      · exact Nat.lt_of_le_of_lt hrle hle
    by_cases hdep : ∃ td ∈ p.deps, td.id = o.id
    · obtain ⟨hrk, hdeps⟩ := evictObj_of_mem (h := h) hdep
      rcases hdeps td htd with hmem | ⟨hid, hup⟩
      · exact hold hmem (.inr (by rw [hrk]; exact Nat.lt_succ_self _))
      · rw [hup, hr.search_eq ho] at hj
        obtain rfl := Option.some.inj hj
        obtain ⟨-, hok, -, hole⟩ := hkeep ho (.inr rfl)
        refine ⟨_, hset ho, by rw [evictObj_id, hid], by simp [evictObj_sequenced], ?_⟩
        rw [hok, hrk]
        exact Nat.lt_succ_of_le hole
    · have hno : ∀ td ∈ p.deps, td.id ≠ o.id := fun td htd hid => hdep ⟨td, htd, hid⟩
      obtain ⟨hdeps, hrk⟩ := evictObj_of_not_mem (h := h) hno
      rw [hdeps] at htd
      exact hold htd (.inl hrk.symm)
  · obtain ⟨i, hi⟩ := List.getElem?_of_mem hq
    obtain ⟨p, hp, rfl⟩ := hget hi
    obtain ⟨hdeps, -, hpdry, -⟩ := hkeep hp (hor hqs)
    rw [hdeps]
    exact hpdry
  · obtain ⟨i, hi⟩ := List.getElem?_of_mem hq
    obtain ⟨p, hp, rfl⟩ := hget hi
    obtain ⟨-, hrk, -, hle⟩ := hkeep hp (hor hqs)
    rw [hrk]
    exact hle

theorem Ranking.turn (hr : Ranking h) (hpick : h.pickTop = some (h', id)) :
    Ranking (h'.evictId id) := by
  obtain ⟨k, o, ho, hs, hdry, rfl, rfl⟩ := pickTop_some hpick
  exact (hr.currank (Nat.le_max_right _ _)).evictId ho hs hdry (Nat.le_max_left _ _)

theorem Ranking.sequenceLoop : ∀ {n : Nat} {h : TO α}, Ranking h → Ranking (sequenceLoop n h)
  | 0, _, hr => hr
  | n + 1, h, hr => by
    rw [TO.sequenceLoop]
    split
    · exact hr
    · next hpick => exact (hr.turn hpick).sequenceLoop

/-- The loop leaves the bodies of the objects alone. -/
theorem sequenceLoop_body : ∀ (n : Nat) (h : TO α),
    (sequenceLoop n h).objs.map (·.body) = h.objs.map (·.body)
  | 0, _ => rfl
  | n + 1, h => by
    rw [sequenceLoop]
    split
    · rfl
    · next h' id hpick =>
      obtain ⟨k, o, -, -, -, rfl, rfl⟩ := pickTop_some hpick
      rw [sequenceLoop_body n]
      simp [evictId, Function.comp_def]

/-- The objects still to be sequenced. -/
def pending (h : TO α) : Nat := h.objs.countP (!·.sequenced)

theorem countP_map_lt {β : Type} {f : β → β} {P : β → Bool} (hf : ∀ x, P (f x) = true → P x = true)
    {x : β} (hx : P x = true) (hfx : P (f x) = false) :
    ∀ {l : List β}, x ∈ l → (l.map f).countP P < l.countP P
  | y :: l, hmem => by
    have hle : (l.map f).countP P ≤ l.countP P := by
      rw [List.countP_map]
      exact List.countP_mono_left fun z _ hz => hf z hz
    have hy : (if P (f y) = true then 1 else 0) ≤ if P y = true then 1 else 0 := by
      split
      · next h => exact Nat.le_of_eq (if_pos (hf y h)).symm
      · exact Nat.zero_le _
    rw [List.map_cons, List.countP_cons, List.countP_cons]
    rcases List.mem_cons.mp hmem with rfl | hmem
    · rw [hx, hfx]
      exact Nat.lt_of_le_of_lt hle (Nat.lt_succ_self _)
    · exact Nat.add_lt_add_of_lt_of_le (countP_map_lt hf hx hfx hmem) hy

/-- Every turn sequences one more. -/
theorem pending_turn (hpick : h.pickTop = some (h', id)) : (h'.evictId id).pending < h.pending := by
  obtain ⟨k, o, ho, hs, -, rfl, rfl⟩ := pickTop_some hpick
  refine countP_map_lt (x := o) (fun p hp => ?_) (by rw [hs]; rfl) ?_ (List.mem_of_getElem? ho)
  · rw [evictObj_sequenced, Bool.not_or, Bool.and_eq_true] at hp
    exact hp.1
  · rw [evictObj_sequenced, decide_eq_true rfl, Bool.or_true]
    rfl

/-- **The fuel of the loop is enough**: no object is left that could be picked. -/
theorem pickTop_sequenceLoop : ∀ {n : Nat} {h : TO α}, h.pending ≤ n →
    (sequenceLoop n h).pickTop = none
  | 0, h, hn => by
    rw [sequenceLoop, pickTop, Option.map_eq_none_iff, List.find?_eq_none]
    intro o ho
    have hs := List.countP_eq_zero.mp (Nat.le_zero.mp hn) o ho
    rw [Bool.not_eq_true, Bool.not_eq_false'] at hs
    rw [hs]
    exact Bool.false_ne_true
  | n + 1, h, hn => by
    rw [sequenceLoop]
    split
    · next hpick => exact hpick
    · next hpick =>
        exact pickTop_sequenceLoop (Nat.le_of_lt_succ (Nat.lt_of_lt_of_le (pending_turn hpick) hn))

/-! ## 3. The sequencer -/

/-- **Ranks go up along the dependencies.** -/
theorem wellRanked_of_sequencer (hreg : Registered h) (hseq : h.sequencer = some h') :
    WellRanked h' := by
  rw [sequencer] at hseq
  split at hseq
  · next hall =>
    obtain rfl := Option.some.inj hseq
    have hr := (ranking_of_registered hreg).sequenceLoop (n := h.objs.length)
    have hsequenced := List.all_eq_true.mp hall
    refine ⟨fun i o ho td htd => ?_, fun o ho => hr.rank o ho (hsequenced o ho)⟩
    have hmem := List.mem_of_getElem? ho
    have hdry := List.all_eq_true.mp (hr.dry o hmem (hsequenced o hmem)) td htd
    obtain ⟨j, hj⟩ := Option.isSome_iff_exists.mp hdry
    obtain ⟨p, hp, -, -, hlt⟩ := hr.deps i o ho td htd j hj
    exact ⟨j, p, hj, hp, hlt⟩
  · cases hseq

theorem sequencer_body (hseq : h.sequencer = some h') : h'.objs.map (·.body) =
    h.objs.map (·.body) := by
  rw [sequencer] at hseq
  split at hseq
  · obtain rfl := Option.some.inj hseq
    exact sequenceLoop_body _ h
  · cases hseq

end TO

/-! ## 4. The test cases of suites -/

/-- `l'` is `l` with the test cases of every suite sequenced. -/
abbrev CasesSequenced (l l' : List (Obj Suite)) : Prop :=
  List.Forall₂ (fun ts ts' => ts.body.sequencer = some ts'.body ∧
    ts' = { ts with body := ts'.body }) l l'

theorem mapM_sequencer {l l' : List (Obj Suite)}
    (h : l.mapM (fun ts => ts.body.sequencer.map fun cases => { ts with body := cases }) =
      some l') :
    CasesSequenced l l' := by
  induction l generalizing l' with
  | nil =>
    obtain rfl : [] = l' := by simpa using h
    exact .nil
  | cons ts l ih =>
    rw [List.mapM_cons] at h
    obtain ⟨ts', hts, h⟩ := Option.bind_eq_some_iff.mp h
    obtain ⟨rest, hrest, h⟩ := Option.bind_eq_some_iff.mp h
    obtain rfl : ts' :: rest = l' := Option.some.inj h
    obtain ⟨cases, hcases, rfl⟩ := Option.map_eq_some_iff.mp hts
    exact .cons ⟨hcases, rfl⟩ (ih hrest)

/-- Nothing else of the suites changes. -/
theorem CasesSequenced.map_eq {β : Type} {g : Obj Suite → β}
    (hg : ∀ ts cases, g { ts with body := cases } = g ts) {l l' : List (Obj Suite)}
    (h : CasesSequenced l l') : l'.map g = l.map g := by
  induction h with
  | nil => rfl
  | cons hR _ ih => rw [List.map_cons, List.map_cons, ih, hR.2, hg]

theorem CasesSequenced.mem {l l' : List (Obj Suite)} (h : CasesSequenced l l') {ts' : Obj Suite}
    (hts' : ts' ∈ l') : ∃ ts ∈ l, ts.body.sequencer = some ts'.body ∧
      ts' = { ts with body := ts'.body } := by
  induction h with
  | nil => cases hts'
  | cons hR _ ih =>
    rcases List.mem_cons.mp hts' with rfl | hts'
    · exact ⟨_, List.mem_cons_self, hR⟩
    · obtain ⟨ts, hts, hR⟩ := ih hts'
      exact ⟨ts, List.mem_cons_of_mem _ hts, hR⟩

end Libu.Test
