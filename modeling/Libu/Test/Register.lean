/-
# Registering dependencies

There are two ways to register a dependency: for an object at hand, and for an object by its label.
The second looks first whether the dependency is recorded.  So does the first, by its comment ("See
if the dependency isn't already recorded"), but what it looks for among the dependencies is the
label of the object itself.

* §1 is the code, for a list of objects and for a whole test.
* §2: one registration in a list.
* §3: one registration in a test.
* §4: an object with two records of one dependency is never picked, so the sequencer reports a loop.
* §5: in a run of registrations, registering again changes nothing, and the sequencer's verdict and
  ranks are as if it had not been done, exactly when every registration is `Harmless`
  (`idempotent_iff`).
-/
import Libu.Test.Toposort
import Libu.Test.Walk
import Libu.Verif.Run

namespace Libu.Test

open Verif

variable {α : Type}

/-! ## 1. The code -/

/-- `U_TEST_ID_MAX` -/
def idMax : Nat := 128

/-- `u_test_dep_new` -/
def depNew (id : String) : Option Dep := if id.utf8ByteSize < idMax then some ⟨id, none⟩ else none

/-- `u_test_dep_search` -/
def depSearch (deps : List Dep) (id : String) : Option Dep := deps.find? fun td => td.id = id

/-- `u_test_obj_dep_add` -/
def Obj.depAdd (td : Dep) (tobj : Obj α) : Obj α :=
  if (depSearch tobj.deps tobj.id).isNone then { tobj with deps := td :: tobj.deps } else tobj

/-- `u_test_case_dep_register`, `u_test_suite_dep_register`: the object, unless it fails. -/
def Obj.depRegister (id : String) (tobj : Obj α) : Option (Obj α) :=
  (depNew id).map fun td => tobj.depAdd td

/-- `u_test_obj_depends_on`: the object that is found by its label, unless it fails. -/
def Obj.dependsOn (depid : String) (tobj : Obj α) : Option (Obj α) :=
  -- check if the same dependency is already recorded
  if (depSearch tobj.deps depid).isSome then some tobj else (depNew depid).map
    fun td => tobj.depAdd td

/-- A registration in a list of objects: for the object at a handle, or for the first one with a
label. -/
inductive Reg
  | register (i : Nat) (id : String)
  | dependsOn (id depid : String)
  deriving DecidableEq

/-- The object that a registration is for. -/
def Reg.pos (h : TO α) : Reg → Option Nat
  | .register i _ => some i
  | .dependsOn id _ => h.search id

/-- The dependency. -/
def Reg.dep : Reg → String
  | .register _ id => id
  | .dependsOn _ depid => depid

/-- What becomes of the object. -/
def Reg.apply : Reg → Obj α → Option (Obj α)
  | .register _ id => Obj.depRegister id
  | .dependsOn _ depid => Obj.dependsOn depid

/-- The object afterwards. -/
def Reg.onObj (r : Reg) (tobj : Obj α) : Obj α := (r.apply tobj).getD tobj

/-- The list afterwards. -/
def Reg.exec (h : TO α) (r : Reg) : TO α :=
  match r.pos h with
  | none => h
  | some i => h.update i r.onObj

/-- A registration for a suite, or for a test case of the suite at a handle. -/
inductive Call
  | suite (r : Reg)
  | case (i : Nat) (r : Reg)
  deriving DecidableEq

/-- A registration for a suite changes the list of suites, one for a test case the list of that
suite. -/
def Call.exec (t : TO Suite) : Call → TO Suite
  | .suite r => r.exec t
  | .case i r => t.update i fun ts => { ts with body := r.exec ts.body }

/-! ## 2. In a list -/

/-- Of the objects of a changed list, each is as it was, or it is the one that was changed. -/
theorem TO.update_getElem? {h : TO α} {i j : Nat} {f : Obj α → Obj α} {o' : Obj α}
    (ho : (h.update i f).objs[j]? = some o') : ∃ o, h.objs[j]? = some o ∧
      (o' = o ∨ i = j ∧ o' = f o) := by
  rw [TO.get_update] at ho
  by_cases hij : i = j
  · rw [if_pos hij] at ho
    obtain ⟨o, hj, rfl⟩ := Option.map_eq_some_iff.mp ho
    exact ⟨o, hj, .inr ⟨hij, rfl⟩⟩
  · rw [if_neg hij] at ho
    exact ⟨o', ho, .inl rfl⟩

theorem TO.update_of_getElem? {h : TO α} {i : Nat} {f : Obj α → Obj α} {o : Obj α}
    (ho : h.objs[i]? = some o) : (h.update i f).objs[i]? = some (f o) := by
  rw [TO.get_update, if_pos rfl, ho, Option.map_some]

/-- A change that changes nothing is one that leaves its object as it was. -/
theorem TO.update_eq_iff {h : TO α} {i : Nat} {f : Obj α → Obj α} :
    h.update i f = h ↔ ∀ o, h.objs[i]? = some o → f o = o := by
  constructor
  · intro heq o ho
    have hi := TO.update_of_getElem? (f := f) ho
    rw [heq, ho] at hi
    exact (Option.some.inj hi).symm
  · intro hf
    have hobjs : (h.update i f).objs = h.objs := by
      refine List.ext_getElem? fun j => ?_
      rw [TO.get_update]
      split
      · next hij =>
        subst hij
        cases hi : h.objs[i]? with
        | none => rfl
        | some o => rw [Option.map_some, hf o hi]
      · rfl
    exact congrArg (fun objs => { h with objs }) hobjs

/-- There is nothing to do any more for a dependency: it is recorded, or has too long a label, or
nothing is recorded for the object from now on. -/
def Obj.Settled (id : String) (tobj : Obj α) : Prop :=
  idMax ≤ id.utf8ByteSize ∨ id ∈ tobj.deps.map (·.id) ∨ tobj.id ∈ tobj.deps.map (·.id)

/-- The registration looks for the dependency; or it has too long a label, or the object depends on
itself. -/
def Reg.Harmless : Reg → Obj α → Prop
  | .register _ id, tobj => idMax ≤ id.utf8ByteSize ∨ tobj.id ∈ tobj.deps.map (·.id)
  | .dependsOn _ _, _ => True

/-- What a registration adds. -/
def Obj.record (id : String) (tobj : Obj α) : Obj α := { tobj with deps := ⟨id, none⟩ :: tobj.deps }

section Object

variable {tobj : Obj α} {id : String} {r : Reg}

/-- A dependency is found if and only if it is recorded. -/
theorem depSearch_isSome {deps : List Dep} : (depSearch deps id).isSome = true ↔
    id ∈ deps.map (·.id) := by
  rw [depSearch, List.find?_isSome, List.mem_map]
  simp only [decide_eq_true_eq]

/-- A record more is another object. -/
theorem Obj.record_ne : tobj.record id ≠ tobj := by
  intro heq
  have hlen := congrArg (fun o : Obj α => o.deps.length) heq
  exact absurd hlen (Nat.succ_ne_self _)

/-- Where the label searched for is recorded, nothing is added. -/
theorem Obj.depAdd_of_mem {td : Dep} (hself : tobj.id ∈ tobj.deps.map (·.id)) :
    tobj.depAdd td = tobj := by
  rw [Obj.depAdd, Option.isNone_eq_false_iff.mpr (depSearch_isSome.mpr hself)]
  rfl

/-- Where it is not, the dependency is recorded. -/
theorem Obj.depAdd_of_not_mem (hself : tobj.id ∉ tobj.deps.map (·.id)) :
    tobj.depAdd ⟨id, none⟩ = tobj.record id := by
  have hnone : (depSearch tobj.deps tobj.id).isNone = true := by
    rw [← Option.not_isSome, Bool.not_eq_true', ← Bool.not_eq_true, depSearch_isSome]
    exact hself
  rw [Obj.depAdd, if_pos hnone, Obj.record]

/-- What becomes of the object at hand: the label of the object itself decides. -/
theorem Obj.depRegister_getD : (tobj.depRegister id).getD tobj =
    if idMax ≤ id.utf8ByteSize ∨ tobj.id ∈ tobj.deps.map (·.id) then tobj else tobj.record id := by
  rw [Obj.depRegister, depNew]
  by_cases hlen : id.utf8ByteSize < idMax
  · rw [if_pos hlen, Option.map_some, Option.getD_some]
    by_cases hself : tobj.id ∈ tobj.deps.map (·.id)
    · rw [if_pos (.inr hself), Obj.depAdd_of_mem hself]
    · rw [if_neg (not_or.mpr ⟨not_le.mpr hlen, hself⟩), Obj.depAdd_of_not_mem hself]
  · rw [if_neg hlen, if_pos (.inl (not_lt.mp hlen))]
    rfl

/-- A dependency by label that is recorded is not recorded again. -/
theorem Obj.dependsOn_of_mem (hin : id ∈ tobj.deps.map (·.id)) : tobj.dependsOn id = some tobj := by
  rw [Obj.dependsOn, if_pos (depSearch_isSome.mpr hin)]

/-- One that is not is registered like any other. -/
theorem Obj.dependsOn_of_not_mem (hin : id ∉ tobj.deps.map (·.id)) :
    tobj.dependsOn id = tobj.depRegister id := by
  rw [Obj.dependsOn, if_neg (mt depSearch_isSome.mp hin), Obj.depRegister]

/-- A registration leaves the object as it is, and then has no more to do, or adds a record. -/
theorem Reg.onObj_cases : r.onObj tobj = tobj ∧ tobj.Settled r.dep ∨ r.onObj tobj =
    tobj.record r.dep := by
  have hreg : ∀ id, (tobj.depRegister id).getD tobj = tobj ∧ tobj.Settled id ∨
      (tobj.depRegister id).getD tobj = tobj.record id := by
    intro id
    rw [Obj.depRegister_getD]
    split
    · next hblocked => exact .inl ⟨rfl, hblocked.imp_right .inr⟩
    · exact .inr rfl
  cases r with
  | register i id => exact hreg id
  | dependsOn id depid =>
    change (tobj.dependsOn depid).getD tobj = tobj ∧ tobj.Settled depid ∨
      (tobj.dependsOn depid).getD tobj = tobj.record depid
    by_cases hin : depid ∈ tobj.deps.map (·.id)
    · rw [Obj.dependsOn_of_mem hin]
      exact .inl ⟨rfl, .inr (.inl hin)⟩
    · rw [Obj.dependsOn_of_not_mem hin]
      exact hreg depid

/-- Another record does not unsettle a dependency. -/
theorem Obj.Settled.record (hs : tobj.Settled id) {id' : String} : (tobj.record id').Settled id :=
  hs.imp_right (Or.imp (List.mem_cons_of_mem _) (List.mem_cons_of_mem _))

theorem Obj.record_settled : (tobj.record id).Settled id := .inr (.inl List.mem_cons_self)

/-- A registration settles its dependency. -/
theorem Reg.onObj_settles : (r.onObj tobj).Settled r.dep := by
  obtain ⟨heq, hs⟩ | heq := @Reg.onObj_cases α tobj r
  · rw [heq]
    exact hs
  · rw [heq]
    exact Obj.record_settled

/-- No registration unsettles one. -/
theorem Obj.Settled.onObj (hs : tobj.Settled id) : (r.onObj tobj).Settled id := by
  obtain ⟨heq, -⟩ | heq := @Reg.onObj_cases α tobj r
  · rw [heq]
    exact hs
  · rw [heq]
    exact hs.record

/-- When there is nothing to do any more, a record is added all the same, unless that is
harmless. -/
theorem Reg.onObj_eq_iff (hs : tobj.Settled r.dep) : r.onObj tobj = tobj ↔ r.Harmless tobj := by
  cases r with
  | register i id =>
    change (tobj.depRegister id).getD tobj = tobj ↔ _
    rw [Obj.depRegister_getD, Reg.Harmless]
    constructor
    · intro heq
      by_contra hno
      rw [if_neg hno] at heq
      exact Obj.record_ne heq
    · exact fun hblocked => if_pos hblocked
  | dependsOn id depid =>
    refine iff_of_true ?_ trivial
    change (tobj.dependsOn depid).getD tobj = tobj
    by_cases hin : depid ∈ tobj.deps.map (·.id)
    · rw [Obj.dependsOn_of_mem hin]
      rfl
    · rw [Obj.dependsOn_of_not_mem hin, Obj.depRegister_getD]
      exact if_pos (hs.imp_right fun hmem => hmem.resolve_left hin)

end Object

/-- The dependency of the object at `i` is settled. -/
def TO.SettledAt (h : TO α) (i : Nat) (id : String) : Prop :=
  ∀ o, h.objs[i]? = some o → o.Settled id

/-- It is harmless for the object that it is for. -/
def Reg.HarmlessIn (h : TO α) (r : Reg) : Prop :=
  ∀ i o, r.pos h = some i → h.objs[i]? = some o → r.Harmless o

section List

variable {h : TO α} {r : Reg} {i j : Nat} {id : String}

/-- A registration changes the object that it is for. -/
theorem Reg.exec_of_pos (hpos : r.pos h = some i) : r.exec h = h.update i r.onObj := by
  rw [Reg.exec, hpos]

/-- One object changes, and every other is as it was. -/
theorem Reg.exec_getElem? {o' : Obj α} (ho : (r.exec h).objs[j]? = some o') :
    ∃ o, h.objs[j]? = some o ∧ (o' = o ∨ o' = r.onObj o) := by
  cases hpos : r.pos h with
  | none =>
    rw [Reg.exec, hpos] at ho
    exact ⟨o', ho, .inl rfl⟩
  | some i =>
    rw [Reg.exec_of_pos hpos] at ho
    obtain ⟨o, hj, heq⟩ := TO.update_getElem? ho
    exact ⟨o, hj, heq.imp_right And.right⟩

/-- In the list, the registration settles its dependency for its object. -/
theorem Reg.exec_settles (hpos : r.pos h = some i) : (r.exec h).SettledAt i r.dep := by
  intro o' ho
  rw [Reg.exec_of_pos hpos] at ho
  obtain ⟨o, hi, -⟩ := TO.update_getElem? ho
  obtain rfl : r.onObj o = o' := Option.some.inj ((TO.update_of_getElem? hi).symm.trans ho)
  exact Reg.onObj_settles

/-- What is settled stays settled. -/
theorem TO.SettledAt.exec (hs : h.SettledAt i id) : (r.exec h).SettledAt i id := by
  intro o' ho
  obtain ⟨o, hi, rfl | rfl⟩ := Reg.exec_getElem? ho
  · exact hs o' hi
  · exact (hs o hi).onObj

/-- **One registration**, of a dependency that is settled: it changes nothing if and only if it is
harmless. -/
theorem Reg.exec_eq_iff (hs : ∀ i, r.pos h = some i → h.SettledAt i r.dep) : r.exec h = h ↔
    r.HarmlessIn h := by
  cases hpos : r.pos h with
  | none =>
    rw [Reg.exec, hpos]
    refine iff_of_true rfl fun i o hi => ?_
    rw [hpos] at hi
    cases hi
  | some i =>
    rw [Reg.exec_of_pos hpos, TO.update_eq_iff]
    constructor
    · intro heq j o hj ho
      obtain rfl : i = j := Option.some.inj (hpos.symm.trans hj)
      exact (Reg.onObj_eq_iff (hs i hpos o ho)).mp (heq o ho)
    · intro hharm o ho
      exact (Reg.onObj_eq_iff (hs i hpos o ho)).mpr (hharm i o hpos ho)

end List

/-! ## 3. In a test -/

/-- The list of a dependency (of the suites, or of the test cases of a suite), the object, and the
label of what it depends on. -/
abbrev Target := Option Nat × Nat × String

/-- What a registration is about: the suite, if it is one of a test case, the object, and the
dependency. -/
def Call.target (t : TO Suite) : Call → Option Target
  | .suite r => (r.pos t).map fun i => (none, i, r.dep)
  | .case k r => t.objs[k]?.bind fun ts => (r.pos ts.body).map fun i => (some k, i, r.dep)

/-- The dependency of such a target is settled. -/
def TO.SettledIn (t : TO Suite) : Target → Prop
  | (none, i, id) => t.SettledAt i id
  | (some k, i, id) => ∀ ts, t.objs[k]? = some ts → ts.body.SettledAt i id

/-- The registration is harmless where it is looked for. -/
def Call.Harmless (t : TO Suite) : Call → Prop
  | .suite r => r.HarmlessIn t
  | .case k r => ∀ ts, t.objs[k]? = some ts → r.HarmlessIn ts.body

section Test

variable {t : TO Suite} {c : Call} {k : Target}

theorem Obj.record_body {tobj : Obj α} {id : String} : (tobj.record id).body = tobj.body := rfl

/-- A registration for a suite leaves its test cases alone. -/
theorem Reg.onObj_body {tobj : Obj α} {r : Reg} : (r.onObj tobj).body = tobj.body := by
  obtain ⟨heq, -⟩ | heq := @Reg.onObj_cases α tobj r
  · rw [heq]
  · rw [heq, Obj.record_body]

/-- A registration settles its target. -/
theorem Call.exec_settles (hk : c.target t = some k) : (c.exec t).SettledIn k := by
  cases c with
  | suite r =>
    obtain ⟨i, hpos, rfl⟩ := Option.map_eq_some_iff.mp hk
    exact Reg.exec_settles hpos
  | case j r =>
    obtain ⟨ts, hj, hmap⟩ := Option.bind_eq_some_iff.mp hk
    obtain ⟨i, hpos, rfl⟩ := Option.map_eq_some_iff.mp hmap
    intro ts' hts'
    obtain rfl := Option.some.inj ((TO.update_of_getElem? hj).symm.trans hts')
    exact Reg.exec_settles hpos

/-- A settled target stays settled, whatever is registered for whichever object. -/
theorem TO.SettledIn.exec (hs : t.SettledIn k) : (c.exec t).SettledIn k := by
  obtain ⟨k, i, id⟩ := k
  cases c with
  | suite r =>
    cases k with
    | none => exact TO.SettledAt.exec hs
    | some k =>
      intro ts' hts'
      obtain ⟨ts, hk, rfl | rfl⟩ := Reg.exec_getElem? hts'
      · exact hs ts' hk
      · rw [Reg.onObj_body]
        exact hs ts hk
  | case j r =>
    cases k with
    | none =>
      intro ts' hts'
      obtain ⟨ts, hi, rfl | ⟨-, rfl⟩⟩ := TO.update_getElem? hts'
      · exact hs ts' hi
      · exact hs ts hi
    | some k =>
      intro ts' hts'
      obtain ⟨ts, hk, rfl | ⟨-, rfl⟩⟩ := TO.update_getElem? hts'
      · exact hs ts' hk
      · exact TO.SettledAt.exec (hs ts hk)

theorem Call.settledAt_suite {r : Reg} (hs : ∀ k, (Call.suite r).target t = some k →
    t.SettledIn k) {i : Nat} (hpos : r.pos t = some i) : t.SettledAt i r.dep := by
  have htarget : (Call.suite r).target t = some (none, i, r.dep) := by
    rw [Call.target, hpos, Option.map_some]
  exact hs _ htarget

theorem Call.settledAt_case {r : Reg} {j : Nat} {ts : Obj Suite} (hts : t.objs[j]? = some ts)
    (hs : ∀ k, (Call.case j r).target t = some k → t.SettledIn k) {i : Nat}
    (hpos : r.pos ts.body = some i) : ts.body.SettledAt i r.dep := by
  have htarget : (Call.case j r).target t = some (some j, i, r.dep) := by
    rw [Call.target, hts, Option.bind_some, hpos, Option.map_some]
  exact hs _ htarget ts hts

/-- **One registration in a test**, of a target that is settled: it changes nothing if and only if
it is harmless. -/
theorem Call.exec_eq_iff (hs : ∀ k, c.target t = some k → t.SettledIn k) : c.exec t = t ↔
    c.Harmless t := by
  cases c with
  | suite r => exact Reg.exec_eq_iff fun i hpos => Call.settledAt_suite hs hpos
  | case k r =>
    refine TO.update_eq_iff.trans (forall₂_congr fun ts hts => ?_)
    rw [← Reg.exec_eq_iff fun i hpos => Call.settledAt_case hts hs hpos]
    constructor
    · exact congrArg Obj.body
    · intro heq
      rw [heq]

end Test

/-! ## 4. A second record -/

section Stalled

variable {h h' : TO α} {o : Obj α} {id l : String} {k : Nat}

namespace TO

/-- The records of a dependency that are still to be resolved. -/
def pendingOn (l : String) (deps : List Dep) : Nat :=
  deps.countP fun td => td.id = l ∧ td.upref = none

/-- An object whose dependencies are all resolved has no record left. -/
theorem pendingOn_of_dry {deps : List Dep} (hdry : depDry deps = true) : pendingOn l deps = 0 := by
  refine List.countP_eq_zero.mpr fun td htd hopen => ?_
  have hsome := List.all_eq_true.mp hdry td htd
  rw [(of_decide_eq_true hopen).2] at hsome
  cases hsome

/-- An eviction resolves one record at most, and only of the dependency that is evicted. -/
theorem resolve_pendingOn {u : Option Nat} : ∀ {deps deps' : List Dep},
    resolve id u deps = some deps' → pendingOn l deps ≤ pendingOn l deps' + if id = l then 1 else 0
  | [], _, h => by cases h
  | d :: deps, deps', h => by
    rw [resolve] at h
    split at h
    · next hid =>
      obtain rfl := Option.some.inj h
      simp only [pendingOn, List.countP_cons]
      by_cases hl : id = l
      · rw [if_pos hl]
        split <;> split <;> omega
      · have hdl : ¬ d.id = l := hid ▸ hl
        simp [hdl, hl]
    · obtain ⟨rest, hrest, rfl⟩ := Option.map_eq_some_iff.mp h
      have ih := @resolve_pendingOn u deps rest hrest
      simp only [pendingOn, List.countP_cons] at ih ⊢
      omega

/-- An eviction resolves one record at most, and only one of the label that is evicted. -/
theorem evictObj_pendingOn : pendingOn l o.deps ≤ pendingOn l (h.evictObj id o).deps +
    if id = l then 1 else 0 := by
  cases hres : resolve id (h.search id) o.deps with
  | none =>
    rw [(evictObj_of_not_mem (resolve_eq_none.mp hres)).1]
    exact Nat.le_add_right _ _
  | some deps =>
    have hdeps : (h.evictObj id o).deps = deps := by
      simp only [evictObj, hres]
      split <;> rfl
    rw [hdeps]
    exact resolve_pendingOn hres

/-- An object of the list has two records of one dependency, and one eviction will not do. -/
structure Stalled (l : String) (k : Nat) (h : TO α) : Prop where
  ids : (h.objs.map (·.id)).Nodup
  waits : ∃ o, h.objs[k]? = some o ∧ o.sequenced = false ∧
    (2 ≤ pendingOn l o.deps ∨ 1 ≤ pendingOn l o.deps ∧ ∀ p ∈ h.objs, p.id = l → p.sequenced = true)

/-- A turn of the loop leaves the object with a record that is not resolved: the label is evicted
once, and there were two. -/
theorem Stalled.turn (hs : Stalled l k h) (hpick : h.pickTop = some (h', id)) :
    Stalled l k (h'.evictId id) := by
  obtain ⟨j, p, hp, hpseq, hdry, rfl, rfl⟩ := pickTop_some hpick
  obtain ⟨o, ho, hseq, hwaits⟩ := hs.waits
  set h₁ : TO α := { h with currank := max p.rank h.currank }
  have hpend : 1 ≤ pendingOn l o.deps := hwaits.elim (fun h2 => Nat.le_of_succ_le h2) And.left
  have hne : o.id ≠ p.id := by
    intro hid
    obtain rfl := List.inj_on_of_nodup_map hs.ids (List.mem_of_getElem? ho)
      (List.mem_of_getElem? hp) hid
    rw [pendingOn_of_dry hdry] at hpend
    exact Nat.not_succ_le_zero 0 hpend
  refine ⟨?_, h₁.evictObj p.id o, ?_, ?_, ?_⟩
  · have hmap : (h₁.evictId p.id).objs.map (·.id) = h.objs.map (·.id) := by
      simp [TO.evictId, Function.comp_def, h₁]
    rw [hmap]
    exact hs.ids
  · simp [TO.evictId, h₁, ho]
  · simp [evictObj_sequenced, hseq, hne]
  · have hle := @evictObj_pendingOn α h₁ o p.id l
    by_cases hl : p.id = l
    · rw [if_pos hl] at hle
      have h2 : 2 ≤ pendingOn l o.deps := by
        refine hwaits.resolve_right fun h1 => ?_
        rw [h1.2 p (List.mem_of_getElem? hp) hl] at hpseq
        cases hpseq
      refine .inr ⟨by omega, fun q hq hql => ?_⟩
      obtain ⟨q, -, rfl⟩ := List.mem_map.mp hq
      rw [evictObj_id] at hql
      simp [evictObj_sequenced, hql, hl]
    · rw [if_neg hl] at hle
      refine hwaits.imp (fun h2 => by omega) fun h1 => ⟨by omega, fun q hq hql => ?_⟩
      obtain ⟨q, hqmem, rfl⟩ := List.mem_map.mp hq
      rw [evictObj_id] at hql
      simp [evictObj_sequenced, h1.2 q hqmem hql]

/-- So does the whole loop, by induction on its turns. -/
theorem Stalled.sequenceLoop : ∀ {n : Nat} {h : TO α}, Stalled l k h →
    Stalled l k (sequenceLoop n h)
  | 0, _, hs => hs
  | n + 1, h, hs => by
    rw [TO.sequenceLoop]
    split
    · exact hs
    · next hpick => exact (hs.turn hpick).sequenceLoop

/-- An object with two records of one dependency stalls from the start. -/
theorem stalled_of_repeated (hreg : Registered h) (ho : h.objs[k]? = some o)
    (hdup : ¬ (o.deps.map (·.id)).Nodup) : ∃ l, Stalled l k h := by
  have hmem := List.mem_of_getElem? ho
  obtain ⟨l, hl⟩ := not_forall.mp (mt List.nodup_iff_count_le_one.mpr hdup)
  have hopen : pendingOn l o.deps = (o.deps.map (·.id)).count l := by
    rw [pendingOn, List.count_eq_countP, List.countP_map]
    refine List.countP_congr fun td htd => ?_
    simp [hreg.deps o hmem td htd]
  refine ⟨l, hreg.ids, o, ho, hreg.sequenced o hmem, .inl ?_⟩
  rw [hopen]
  exact not_le.mp hl

/-- **A second record of one dependency is a dependency loop.** -/
theorem sequencer_repeated (hreg : Registered h) (ho : h.objs[k]? = some o)
    (hdup : ¬ (o.deps.map (·.id)).Nodup) : h.sequencer = none := by
  obtain ⟨l, hs⟩ := stalled_of_repeated hreg ho hdup
  obtain ⟨o', ho', hseq, -⟩ := (hs.sequenceLoop (n := h.objs.length)).waits
  rw [sequencer]
  refine if_neg fun hall => ?_
  rw [List.all_eq_true.mp hall o' (List.mem_of_getElem? ho')] at hseq
  cases hseq

end TO

end Stalled

/-- A registration that is not harmless adds a second record. -/
theorem Reg.onObj_repeated {o : Obj α} {r : Reg} (hs : o.Settled r.dep) (hharm : ¬ r.Harmless o) :
    ¬ ((r.onObj o).deps.map (·.id)).Nodup := by
  have hrecord : r.onObj o = o.record r.dep := by
    refine (@Reg.onObj_cases α o r).resolve_left fun hsame => ?_
    exact hharm ((Reg.onObj_eq_iff hs).mp hsame.1)
  have hin : r.dep ∈ o.deps.map (·.id) := by
    cases r with
    | register i id =>
      rcases hs with hlen | hin | hself
      · exact absurd (.inl hlen) hharm
      · exact hin
      · exact absurd (.inr hself) hharm
    | dependsOn id depid => exact absurd trivial hharm
  rw [hrecord]
  exact fun hnodup => (List.nodup_cons.mp hnodup).1 hin

theorem Reg.onObj_registered {o : Obj α} {r : Reg} : (r.onObj o).id = o.id ∧
    (r.onObj o).sequenced = o.sequenced ∧ ∀ td ∈ (r.onObj o).deps, td ∈ o.deps ∨
    td.upref = none := by
  obtain ⟨heq, -⟩ | heq := @Reg.onObj_cases α o r
  · rw [heq]
    exact ⟨rfl, rfl, fun td htd => .inl htd⟩
  · rw [heq]
    refine ⟨rfl, rfl, fun td htd => ?_⟩
    rcases List.mem_cons.mp htd with rfl | htd
    · exact .inr rfl
    · exact .inl htd

/-- Registering leaves the objects registered, with nothing resolved. -/
theorem Registered.exec {h : TO α} (hreg : Registered h) (r : Reg) : Registered (r.exec h) := by
  have hback : ∀ o' ∈ (r.exec h).objs, ∃ o ∈ h.objs, o'.sequenced = o.sequenced ∧
      ∀ td ∈ o'.deps, td ∈ o.deps ∨ td.upref = none := by
    intro o' ho'
    obtain ⟨j, hj⟩ := List.getElem?_of_mem ho'
    obtain ⟨o, ho, rfl | rfl⟩ := Reg.exec_getElem? hj
    · exact ⟨o', List.mem_of_getElem? ho, rfl, fun td htd => .inl htd⟩
    · exact ⟨o, List.mem_of_getElem? ho, Reg.onObj_registered.2⟩
  refine ⟨?_, fun o' ho' => ?_, fun o' ho' td htd => ?_⟩
  · have hids : (r.exec h).objs.map (·.id) = h.objs.map (·.id) := by
      rw [Reg.exec]
      split
      · rfl
      · next i hpos =>
        refine List.ext_getElem? fun j => ?_
        rw [List.getElem?_map, List.getElem?_map, TO.get_update]
        split
        · rw [Option.map_map]
          exact Option.map_congr fun o _ => Reg.onObj_registered.1
        · rfl
    rw [hids]
    exact hreg.ids
  · obtain ⟨o, ho, hseq, -⟩ := hback o' ho'
    rw [hseq]
    exact hreg.sequenced o ho
  · obtain ⟨o, ho, -, hdeps⟩ := hback o' ho'
    exact (hdeps td htd).elim (hreg.deps o ho td) id

/-- A registration of a settled dependency that is not harmless makes the sequencer report a loop.
-/
theorem Reg.exec_loops {h : TO α} {r : Reg} (hreg : Registered h)
    (hs : ∀ i, r.pos h = some i → h.SettledAt i r.dep) (hharm : ¬ r.HarmlessIn h) :
    (r.exec h).sequencer = none := by
  obtain ⟨i, hi⟩ := not_forall.mp hharm
  obtain ⟨o, ho⟩ := not_forall.mp hi
  obtain ⟨hpos, ho⟩ := Classical.not_imp.mp ho
  obtain ⟨ho, hno⟩ := Classical.not_imp.mp ho
  have hexec : (r.exec h).objs[i]? = some (r.onObj o) := by
    rw [Reg.exec_of_pos hpos]
    exact TO.update_of_getElem? ho
  exact TO.sequencer_repeated (hreg.exec r) hexec (Reg.onObj_repeated (hs i hpos o ho) hno)

/-- A loop among the suites is a loop of the test. -/
theorem sequencer_none_of_suites {t : TO Suite} (hno : t.sequencer = none) :
    sequencer t = none := by
  rw [sequencer, hno]
  rfl

/-- So is one among the test cases of a suite. -/
theorem sequencer_none_of_cases {t : TO Suite} {ts : Obj Suite} (hts : ts ∈ t.objs)
    (hno : ts.body.sequencer = none) : sequencer t = none := by
  by_contra hsome
  obtain ⟨t', ht'⟩ := Option.ne_none_iff_exists'.mp hsome
  obtain ⟨h, objs, hseq, hobjs, -⟩ := sequencer_eq_some.mp ht'
  have hall : ∀ ts ∈ h.objs, ∃ cases, ts.body.sequencer = some cases := by
    intro ts hts
    obtain ⟨i, hi⟩ := List.getElem?_of_mem hts
    obtain ⟨ts', -, hcases, -⟩ := (mapM_sequencer hobjs).getElem? hi
    exact ⟨_, hcases⟩
  obtain ⟨cases, hcases⟩ := forall_body (P := fun body => ∃ cases, body.sequencer = some cases)
    (TO.sequencer_body hseq).symm hall ts hts
  rw [hno] at hcases
  cases hcases

/-- A test before it is sequenced. -/
structure Unsequenced (t : TO Suite) : Prop where
  suites : Registered t
  cases : ∀ ts ∈ t.objs, Registered ts.body

/-- **Then the sequencer reports a loop.** -/
theorem Call.exec_loops {t : TO Suite} {c : Call} (ht : Unsequenced t)
    (hs : ∀ k, c.target t = some k → t.SettledIn k) (hharm : ¬ c.Harmless t) :
    sequencer (c.exec t) = none := by
  cases c with
  | suite r =>
    exact sequencer_none_of_suites
      (Reg.exec_loops ht.suites (fun i hpos => Call.settledAt_suite hs hpos) hharm)
  | case k r =>
    obtain ⟨ts, hts⟩ := not_forall.mp hharm
    obtain ⟨hts, hno⟩ := Classical.not_imp.mp hts
    have hexec : (Call.exec t (.case k r)).objs[k]? = some { ts with body := r.exec ts.body } :=
      TO.update_of_getElem? hts
    refine sequencer_none_of_cases (List.mem_of_getElem? hexec) ?_
    exact Reg.exec_loops (ht.cases ts (List.mem_of_getElem? hts))
      (fun i hpos => Call.settledAt_case hts hs hpos) hno

/-! ## 5. Again -/

/-- A test, the same test with the first registration of each dependency only, and the dependencies
registered so far. -/
structure Session where
  t : TO Suite
  once : TO Suite
  seen : List Target

/-- The dependency was registered before. -/
def Session.Again (s : Session) (c : Call) : Prop := ∃ k ∈ s.seen, c.target s.t = some k

instance (s : Session) (c : Call) : Decidable (s.Again c) := by
  unfold Session.Again
  infer_instance

/-- One registration, and the same again without it where it was made before. -/
def Session.step (s : Session) (c : Call) : Option (Unit × Session) :=
  some ((), {
    t := c.exec s.t
    once := if s.Again c then s.once else c.exec s.once
    seen := (c.target s.t).toList ++ s.seen })

/-- The sequencer's verdict, and the ranks of the suites and of their test cases. -/
def outcome (t : TO Suite) : Option (List (Nat × List Nat)) :=
  (sequencer t).map fun h => h.objs.map fun ts => (ts.rank, ts.body.objs.map (·.rank))

/-- Registering again changes nothing, and all is as if it had not been done. -/
def Session.Idempotent (s : Session) (c : Call) (_ : Unit) (s' : Session) : Prop :=
  (s.Again c → s'.t = s.t) ∧ outcome s'.t = outcome s'.once

/-- In a run that goes right so far. -/
structure Session.Inv (s : Session) : Prop where
  same : s.t = s.once
  settled : ∀ k ∈ s.seen, s.t.SettledIn k

section Session

variable {s s' : Session} {c : Call}

theorem Session.Inv.settled_of_again (hInv : s.Inv) (hagain : s.Again c) :
    ∀ k, c.target s.t = some k → s.t.SettledIn k := by
  obtain ⟨k, hseen, htarget⟩ := hagain
  intro k' hk'
  obtain rfl : k = k' := Option.some.inj (htarget.symm.trans hk')
  exact hInv.settled k hseen

/-- Registering again is harmless exactly when it changes nothing. -/
theorem Session.Inv.again_iff (hInv : s.Inv) (hagain : s.Again c) : c.exec s.t = s.t ↔
    c.Harmless s.t := by
  exact Call.exec_eq_iff (hInv.settled_of_again hagain)

/-- When it is not, the test cannot be sequenced any more. -/
theorem Session.Inv.loops (hInv : s.Inv) (ht : Unsequenced s.t) (hagain : s.Again c)
    (hharm : ¬ c.Harmless s.t) : sequencer (c.exec s.t) = none :=
  Call.exec_loops ht (hInv.settled_of_again hagain) hharm

/-- When it is harmless, the two tests stay the same. -/
theorem Session.Inv.same_of (hInv : s.Inv) (hharm : s.Again c → c.Harmless s.t) :
    c.exec s.t = if s.Again c then s.once else c.exec s.once := by
  by_cases hagain : s.Again c
  · rw [if_pos hagain, ← hInv.same]
    exact (hInv.again_iff hagain).mpr (hharm hagain)
  · rw [if_neg hagain, hInv.same]

/-- **One step of a run**: registering again changes nothing, and the two tests have the same
outcome, if and only if a registration that was made before is harmless. -/
theorem Session.Inv.step_iff (hInv : s.Inv) :
    (∃ r s', s.step c = some (r, s') ∧ s.Idempotent c r s') ↔ (s.Again c → c.Harmless s.t) := by
  constructor
  · rintro ⟨r, s', hstep, hkeeps, -⟩ hagain
    obtain ⟨-, rfl⟩ := Prod.mk.inj (Option.some.inj hstep)
    exact (hInv.again_iff hagain).mp (hkeeps hagain)
  · intro hharm
    refine ⟨(), _, rfl, fun hagain => (hInv.again_iff hagain).mpr (hharm hagain), ?_⟩
    exact congrArg outcome (hInv.same_of hharm)

/-- A harmless step keeps the invariant. -/
theorem Session.Inv.step (hInv : s.Inv) {r : Unit} (hstep : s.step c = some (r, s'))
    (hharm : s.Again c → c.Harmless s.t) : s'.Inv := by
  obtain ⟨-, rfl⟩ := Prod.mk.inj (Option.some.inj hstep)
  refine ⟨hInv.same_of hharm, fun k hk => ?_⟩
  rcases List.mem_append.mp hk with hnew | hseen
  · exact Call.exec_settles (Option.mem_toList.mp hnew)
  · exact (hInv.settled k hseen).exec

end Session

/-- **Registering again.**  In a run of registrations it changes nothing, and the verdict and the
ranks are as if each dependency had been registered once, exactly when every registration that is
made again is harmless. -/
theorem idempotent_iff (t : TO Suite) (calls : List Call) :
    Always Session.step Session.Idempotent ⟨t, t, []⟩ calls ↔
      Guarded Session.step (fun s c => s.Again c → c.Harmless s.t) ⟨t, t, []⟩ calls := by
  refine always_iff_guarded (fun _ _ => True) Session.Inv
    (fun s c hInv _ => hInv.step_iff) ?_ ⟨rfl, ?_⟩
    (guarded_of_forall (fun _ _ => trivial) calls _)
  · intro s c r s' hInv _ hstep hP
    exact hInv.step hstep (hInv.step_iff.mp ⟨r, s', hstep, hP⟩)
  · intro k hk
    cases hk

/-- A suite of two test cases. -/
def twoCases : TO Suite :=
  ⟨0, 0, [⟨"s", false, 0, success, [],
    ⟨0, 0, [
      ⟨"a", false, 0, success, [], ⟨true, none⟩⟩,
      ⟨"b", false, 0, success, [], ⟨true, none⟩⟩]⟩⟩]⟩

/-- The second test case depends on the first, and then does so again. -/
theorem not_idempotent_twice : ¬ Always Session.step Session.Idempotent ⟨twoCases, twoCases, []⟩
    [.case 0 (.register 1 "a"), .case 0 (.register 1 "a")] := by
  rintro ⟨_, _, hfst, -, ⟨_, s', hsnd, ⟨-, hsame⟩, -⟩⟩
  obtain ⟨-, rfl⟩ := Prod.mk.inj (Option.some.inj hfst)
  obtain ⟨-, rfl⟩ := Prod.mk.inj (Option.some.inj hsnd)
  exact absurd hsame (by decide)

end Libu.Test
