/-
# Ranks and dependency depths

"We are primarily concerned in equally ranking all test objects which are at the same
'dependency-depth' so that the scheduler can exec tests in the same rank-pool in parallel", says the
sequencer.  But it counts the depth reached in one number for the whole list: while it goes down one
chain of dependencies, an object gets a rank that is above all of the chain as soon as what it needs
is picked.

The documentation has the depths in mind, the code counts; the theorem says for which lists the two
are the same.  The order in which objects are picked is not free: among those whose dependencies are
all picked, the first of the list is next.  It is determined by the list and its dependencies, and
so is the condition.

* §1: what the sequencer's loop keeps, with the labels that it has picked (`Picked`).
* §2: the ranks are the depths exactly when the objects are picked level by level
  (`rank_depth_iff`).
-/
import Mathlib.Data.List.Find
import Libu.Test.Toposort
import Libu.Verif.Cmp
import Libu.Verif.Depth

namespace Libu.Test

open Verif

variable {α : Type} {h h' : TO α} {o p q : Obj α} {id : String}

/-! ## 1. Picking one by one -/

/-- The labels of the objects, and what an object names. -/
def jobsOf (labels : List (String × List String)) : List String := labels.map Prod.fst

def needsOf (labels : List (String × List String)) (id : String) : List String :=
  ((labels.find? fun l => l.1 = id).map Prod.snd).getD []

/-- As `u_test_obj_init` and `u_test_obj_dep_add` leave the objects of a list. -/
structure Fresh (h : TO α) : Prop extends Declared h where
  rank : ∀ o ∈ h.objs, o.rank = 0
  currank : h.currank = 0

namespace TO

theorem jobsOf_labels (h : TO α) : jobsOf h.labels = h.objs.map (·.id) := by
  rw [jobsOf, labels, List.map_map]
  rfl

theorem needsOf_labels (hids : (h.objs.map (·.id)).Nodup) (ho : o ∈ h.objs) :
    needsOf h.labels o.id = o.deps.map (·.id) := by
  have hkeys : (jobsOf h.labels).Nodup := jobsOf_labels h ▸ hids
  have hlabel := find?_key hkeys (List.mem_map_of_mem ho)
  rw [needsOf, hlabel]
  rfl

theorem mem_needsOf {a b : String} (hb : b ∈ needsOf h.labels a) :
    ∃ o ∈ h.objs, o.id = a ∧ b ∈ o.deps.map (·.id) := by
  unfold needsOf at hb
  cases hfind : h.labels.find? (fun l => l.1 = a) with
  | none =>
    rw [hfind] at hb
    cases hb
  | some l =>
    rw [hfind] at hb
    obtain ⟨o, ho, rfl⟩ := List.mem_map.mp (List.mem_of_find?_eq_some hfind)
    have hid := List.find?_some hfind
    exact ⟨o, ho, of_decide_eq_true hid, hb⟩

/-- The list when the labels `taken` have been picked, where a label picked has the rank `rank`. -/
structure Picked (h : TO α) (taken : List String) (rank : String → Nat) : Prop where
  ids : (h.objs.map (·.id)).Nodup
  nodup : ∀ o ∈ h.objs, (o.deps.map (·.id)).Nodup
  mem : ∀ a ∈ taken, ∃ o ∈ h.objs, o.id = a
  sequenced : ∀ o ∈ h.objs, o.sequenced = true ↔ o.id ∈ taken
  resolved : ∀ o ∈ h.objs, ∀ td ∈ o.deps, td.upref.isSome = true ↔ td.id ∈ taken
  order : ∀ n < taken.length, taken[n]? = nextJob (jobsOf h.labels)
    (needsOf h.labels) (taken.take n)
  closed : ∀ o ∈ h.objs, o.id ∈ taken → ∀ td ∈ o.deps, td.id ∈ taken
  currank : h.currank + 1 = max 1 (above (taken.map rank))
  ranked : ∀ o ∈ h.objs, o.id ∈ taken → o.rank = rank o.id
  counted : ∀ o ∈ h.objs, o.rank = counted rank taken (o.deps.map (·.id))

variable {taken : List String} {rank : String → Nat}

theorem picked_of_fresh (hf : Fresh h) (rank : String → Nat) : Picked h [] rank where
  ids := hf.ids
  nodup := hf.nodup
  mem a ha := absurd ha List.not_mem_nil
  sequenced o ho := by
    rw [hf.sequenced o ho]
    exact iff_of_false Bool.false_ne_true List.not_mem_nil
  resolved o ho td htd := by
    rw [hf.deps o ho td htd]
    exact iff_of_false Bool.false_ne_true List.not_mem_nil
  order n hn := absurd hn (Nat.not_lt_zero n)
  closed o _ hin := absurd hin List.not_mem_nil
  currank := by
    rw [hf.currank]
    rfl
  ranked o _ hin := absurd hin List.not_mem_nil
  counted o ho := by
    rw [hf.rank o ho, counted, List.take_nil]
    rfl

theorem Picked.dry_iff (hp : Picked h taken rank) (ho : o ∈ h.objs) :
    depDry o.deps = true ↔ ∀ d ∈ o.deps.map (·.id), d ∈ taken := by
  rw [depDry, List.all_eq_true, List.forall_mem_map]
  exact forall₂_congr fun td htd => hp.resolved o ho td htd

/-- What the sequencer picks is the next job. -/
theorem Picked.next (hp : Picked h taken rank) :
    nextJob (jobsOf h.labels) (needsOf h.labels) taken = h.pickTop.map Prod.snd := by
  have hsame : ∀ o ∈ h.objs, decide (o.id ∉ taken ∧ ∀ d ∈ needsOf h.labels o.id, d ∈ taken) =
      (!o.sequenced && depDry o.deps) := by
    intro o ho
    rw [needsOf_labels hp.ids ho, Bool.eq_iff_iff, decide_eq_true_iff, ← hp.dry_iff ho,
      Bool.and_eq_true, Bool.not_eq_true', ← hp.sequenced o ho, Bool.not_eq_true]
  rw [nextJob, jobsOf_labels, List.find?_map, pickTop, Option.map_map]
  exact congrArg (Option.map _) (List.find?_congr hsame)

/-- **One turn of the loop.** -/
theorem Picked.turn (hp : Picked h taken rank) (hpick : h.pickTop = some (h', id)) :
    ∃ r, Picked (h'.evictId id) (taken ++ [id]) (Function.update rank id r) := by
  have hnext := hp.next
  rw [hpick] at hnext
  obtain ⟨k, o, ho, hs, hdry, rfl, rfl⟩ := pickTop_some hpick
  have hmem : o ∈ h.objs := List.mem_of_getElem? ho
  have hnew : o.id ∉ taken := fun hin => Bool.false_ne_true
    (hs.symm.trans ((hp.sequenced o hmem).mpr hin))
  have hkeep : ∀ a ∈ taken, Function.update rank o.id o.rank a = rank a := fun a ha =>
    Function.update_of_ne (fun heq : a = o.id => hnew (heq ▸ ha)) _ _
  -- an object that has been picked, now or before, needs nothing that was not picked before
  have hneeds : ∀ q ∈ h.objs, q.id ∈ taken ++ [o.id] → ∀ td ∈ q.deps, td.id ∈ taken := by
    intro q hq hin td htd
    rcases List.mem_append.mp hin with hin | hin
    · exact hp.closed q hq hin td htd
    · obtain rfl := List.inj_on_of_nodup_map hp.ids hq hmem (List.mem_singleton.mp hin)
      exact (hp.dry_iff hmem).mp hdry td.id (List.mem_map_of_mem htd)
  have hfirst : ∀ q ∈ h.objs, q.id ∈ taken ++ [o.id] → ∀ td ∈ q.deps, td.id ≠ o.id := by
    rintro q hq hin td htd hid
    exact hnew (hid ▸ hneeds q hq hin td htd)
  have htop : max o.rank h.currank + 1 = above ((taken ++ [o.id]).map
    (Function.update rank o.id o.rank)) := by
    rw [List.map_append, List.map_congr_left hkeep, List.map_singleton,
      Function.update_self, above_concat]
    have hcur := hp.currank
    omega
  refine ⟨o.rank, ?_, ?_, ?_, ?_, ?_, ?_, ?_, ?_, ?_, ?_⟩
  · have hmap : (evictId { h with currank := max o.rank h.currank } o.id).objs.map (·.id) =
        h.objs.map (·.id) := by
      simp [TO.evictId, Function.comp_def]
    rw [hmap]
    exact hp.ids
  · intro q' hq'
    obtain ⟨q, hq, rfl⟩ := List.mem_map.mp hq'
    rw [evictObj_ids]
    exact hp.nodup q hq
  · intro a ha
    have hold : ∃ q ∈ h.objs, q.id = a := by
      rcases List.mem_append.mp ha with ha | ha
      · exact hp.mem a ha
      · exact ⟨o, hmem, (List.mem_singleton.mp ha).symm⟩
    obtain ⟨q, hq, rfl⟩ := hold
    exact ⟨_, List.mem_map_of_mem hq, evictObj_id _ _ q⟩
  · intro q' hq'
    obtain ⟨q, hq, rfl⟩ := List.mem_map.mp hq'
    rw [evictObj_sequenced, evictObj_id, Bool.or_eq_true, decide_eq_true_iff, List.mem_append,
      List.mem_singleton]
    exact or_congr_left (hp.sequenced q hq)
  · intro q' hq' td htd
    obtain ⟨q, hq, rfl⟩ := List.mem_map.mp hq'
    rw [List.mem_append, List.mem_singleton]
    by_cases hid : td.id = o.id
    · rw [evictObj_upref (hp.nodup q hq) td htd hid]
      refine iff_of_true (Option.isSome_iff_ne_none.mpr ?_) (.inr hid)
      exact @search_isSome _ { h with currank := max o.rank h.currank } _ hmem
    · rw [or_iff_left hid]
      exact hp.resolved q hq td (mem_of_mem_evictObj htd hid)
  · intro n hn
    rw [evictId_labels]
    change _ = nextJob (jobsOf h.labels) (needsOf h.labels) _
    rw [List.length_append, List.length_singleton] at hn
    rcases Nat.lt_or_eq_of_le (Nat.le_of_lt_succ hn) with hlt | rfl
    · rw [List.getElem?_append_left hlt, List.take_append_of_le_length (Nat.le_of_lt hlt)]
      exact hp.order n hlt
    · rw [List.getElem?_concat_length, List.take_left, hnext]
      rfl
  · intro q' hq' hin td htd
    obtain ⟨q, hq, rfl⟩ := List.mem_map.mp hq'
    rw [evictObj_id] at hin
    have htd' : td.id ∈ q.deps.map (·.id) := evictObj_ids _ _ q ▸ List.mem_map_of_mem htd
    obtain ⟨td', hmem', hid⟩ := List.mem_map.mp htd'
    exact hid ▸ List.mem_append_left _ (hneeds q hq hin td' hmem')
  · rw [← htop]
    change max o.rank h.currank + 1 = _
    omega
  · intro q' hq' hin
    obtain ⟨q, hq, rfl⟩ := List.mem_map.mp hq'
    rw [evictObj_id] at hin ⊢
    rw [(evictObj_of_not_mem (hfirst q hq hin)).2]
    rcases List.mem_append.mp hin with hold | hid
    · rw [hkeep _ hold]
      exact hp.ranked q hq hold
    · obtain rfl := List.inj_on_of_nodup_map hp.ids hq hmem (List.mem_singleton.mp hid)
      rw [Function.update_self]
  · intro q' hq'
    obtain ⟨q, hq, rfl⟩ := List.mem_map.mp hq'
    rw [evictObj_ids]
    by_cases hdep : ∃ td ∈ q.deps, td.id = o.id
    · obtain ⟨td, htd, hid⟩ := id hdep
      have hin : o.id ∈ q.deps.map (·.id) := hid ▸ List.mem_map_of_mem htd
      rw [(evictObj_of_mem hdep).1, counted_concat_of_mem hnew hin, ← htop]
    · have hno : ∀ td ∈ q.deps, td.id ≠ o.id := fun td htd hid => hdep ⟨td, htd, hid⟩
      have hout : o.id ∉ q.deps.map (·.id) := by
        intro hin
        obtain ⟨td, htd, hid⟩ := List.mem_map.mp hin
        exact hno td htd hid
      rw [(evictObj_of_not_mem hno).2, counted_concat_of_not_mem hout, counted_congr hkeep]
      exact hp.counted q hq

theorem Picked.sequenceLoop : ∀ {n : Nat} {h : TO α} {taken : List String} {rank : String → Nat},
    Picked h taken rank → ∃ taken rank, Picked (sequenceLoop n h) taken rank
  | 0, _, _, _, hp => ⟨_, _, hp⟩
  | n + 1, h, _, _, hp => by
    rw [TO.sequenceLoop]
    split
    · exact ⟨_, _, hp⟩
    · next hpick =>
      obtain ⟨r, hp'⟩ := hp.turn hpick
      exact hp'.sequenceLoop

/-- When the sequencer accepts the list, all of it has been picked. -/
theorem picked_of_sequencer (hf : Fresh h) (hseq : h.sequencer = some h') :
    h'.objs.all (·.sequenced) = true ∧ h'.pickTop = none ∧ ∃ taken rank, Picked h' taken rank := by
  rw [sequencer] at hseq
  split at hseq
  · next hall =>
    obtain rfl := Option.some.inj hseq
    exact ⟨hall, pickTop_sequenceLoop List.countP_le_length,
      (picked_of_fresh hf fun _ => 0).sequenceLoop⟩
  · cases hseq

/-! ## 2. Levels -/

/-- **Ranks and depths.**  The order in which the objects are picked is the one in which the first
comes that needs no other before it, and an object has its depth as its rank, all of them, exactly
when the objects are picked level by level. -/
theorem rank_depth_iff (hf : Fresh h) (hord : Orderable h) : ∃ h' order depth,
    h.sequencer = some h' ∧ (∀ l, FirstFit (jobsOf h.labels) (needsOf h.labels) l ↔ l = order) ∧
    (∀ f, IsDepth (needsOf h.labels) f ↔ f = depth) ∧
    ((∀ o ∈ h'.objs, o.rank = depth o.id) ↔ LevelWise (needsOf h.labels) depth order) := by
  obtain ⟨h', hseq⟩ := sequencer_isSome hf.toDeclared hord
  have hlinked := (sequenced_of_sequencer hf.toRegistered hseq).linked
  have hlabels : h'.labels = h.labels := (sequenced_of_sequencer hf.toRegistered hseq).labels
  obtain ⟨hall, hdone, taken, rank, hp⟩ := picked_of_sequencer hf hseq
  rw [← hlabels]
  have htaken : ∀ o ∈ h'.objs, o.id ∈ taken := fun o ho =>
    (hp.sequenced o ho).mp (List.all_eq_true.mp hall o ho)
  have hfit : FirstFit (jobsOf h'.labels) (needsOf h'.labels) taken := by
    intro n
    rcases Nat.lt_or_ge n taken.length with hlt | hge
    · exact hp.order n hlt
    · rw [List.getElem?_eq_none hge, List.take_of_length_le hge, hp.next, hdone]
      rfl
  -- what an object needs has a lower rank
  have hlower : ∀ a, ∀ b ∈ needsOf h'.labels a, rank b < rank a := by
    intro a b hb
    obtain ⟨o, ho, rfl, hdep⟩ := mem_needsOf hb
    obtain ⟨td, htd, rfl⟩ := List.mem_map.mp hdep
    obtain ⟨j, p, -, hj, hid, hlt⟩ := hlinked o ho td htd
    have hmem := List.mem_of_getElem? hj
    rwa [hp.ranked o ho (htaken o ho), hp.ranked p hmem (htaken p hmem), hid] at hlt
  obtain ⟨depth, hdepth⟩ := exists_isDepth rank hlower
  have hcount : Counted (needsOf h'.labels) taken rank := by
    intro a ha
    obtain ⟨o, ho, rfl⟩ := hp.mem a ha
    rw [needsOf_labels hp.ids ho, ← hp.ranked o ho ha]
    exact hp.counted o ho
  refine ⟨h', taken, depth, hseq, fun l => ⟨fun hl => hl.unique hfit, fun hl => hl ▸ hfit⟩,
    fun f => ⟨fun hf => hf.unique hdepth, fun hf => hf ▸ hdepth⟩, ?_⟩
  rw [← hcount.eq_depth_iff hfit hdepth]
  constructor
  · intro heq a ha
    obtain ⟨o, ho, rfl⟩ := hp.mem a ha
    rw [← hp.ranked o ho ha]
    exact heq o ho
  · intro heq o ho
    rw [hp.ranked o ho (htaken o ho)]
    exact heq o.id (htaken o ho)

end TO

theorem fresh_pair : Fresh pair := ⟨declared_pair, by decide, rfl⟩

theorem orderable_pair : pair.Orderable :=
  (TO.sequencer_isSome_iff declared_pair).mp (Option.isSome_iff_exists.mp (by decide))

/-- Of the two test cases of `pair`, the second is picked before the first. -/
theorem rank_depth_pair : ∃ h' depth, pair.sequencer = some h' ∧
    IsDepth (needsOf pair.labels) depth ∧
    ((∀ o ∈ h'.objs, o.rank = depth o.id) ↔ LevelWise (needsOf pair.labels) depth ["b", "a"]) := by
  obtain ⟨h', order, depth, hseq, horder, hdepth, hiff⟩ :=
    TO.rank_depth_iff fresh_pair orderable_pair
  have hfit : FirstFit (jobsOf pair.labels) (needsOf pair.labels) ["b", "a"] := by
    rintro (_ | _ | n) <;> rfl
  obtain rfl := (horder _).mp hfit
  exact ⟨h', depth, hseq, (hdepth depth).mpr rfl, hiff⟩

/-- Two chains of two test cases, one behind the other. -/
def chains : TO Case :=
  ⟨0, 0, [
    ⟨"a", false, 0, success, [], ⟨true, none⟩⟩,
    ⟨"b", false, 0, success, [⟨"a", none⟩], ⟨true, none⟩⟩,
    ⟨"c", false, 0, success, [], ⟨true, none⟩⟩,
    ⟨"d", false, 0, success, [⟨"c", none⟩], ⟨true, none⟩⟩]⟩

/-- The last of the second chain is as deep as that of the first, and has a higher rank. -/
theorem rank_depth_chains : Fresh chains ∧ chains.Orderable ∧ ¬ ∃ h' depth,
    chains.sequencer = some h' ∧
    IsDepth (needsOf chains.labels) depth ∧ ∀ o ∈ h'.objs, o.rank = depth o.id := by
  have hdeclared : Declared chains := ⟨⟨by decide, by decide, by decide⟩, by decide⟩
  refine ⟨⟨hdeclared, by decide, rfl⟩, (TO.sequencer_isSome_iff hdeclared).mp
    (Option.isSome_iff_exists.mp (by decide)), ?_⟩
  rintro ⟨h', depth, hseq, hdepth, hrank⟩
  have hc : depth "c" = 0 := hdepth "c"
  have hd : depth "d" = 1 := by
    rw [hdepth "d"]
    change above [depth "c"] = 1
    rw [hc]
    rfl
  have hlast : ∃ o, h'.objs[3]? = some o ∧ o.id = "d" ∧ o.rank = 2 := by
    obtain rfl := Option.some.inj (hseq.symm.trans rfl)
    exact ⟨_, rfl, rfl, rfl⟩
  obtain ⟨o, ho, hid, hrk⟩ := hlast
  have hsame := hrank o (List.mem_of_getElem? ho)
  rw [hid, hd, hrk] at hsame
  cases hsame

end Libu.Test
