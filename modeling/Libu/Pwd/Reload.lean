/-
# The snapshot and its reloads

`u_pwd_retr_mem` reloads the snapshot when a change is reported, and says what it wants if that
fails: "on error keep on working with the old in-memory db".  By then the timestamp has been set and
the old snapshot has been wiped away, so that nothing is found any more, and nobody tries again
until another change is reported.

* §1: lookups, each with what the callbacks find at its time.
* §2: what the snapshot holds (`Holds`), and what is found in it.
* §3: in a run of lookups, every one is answered from the last database that was loaded, and one
  that follows a failed reload tries again, exactly when every lookup meets `Kept` (`served_iff`).
-/
import Libu.Pwd

namespace Libu.Pwd

open Verif
open scoped List

/-! ## 1. Lookups -/

/-- A lookup: what the callbacks find at its time, and whether there is memory for a new map. -/
structure Lookup where
  user : List Char
  cbNotify : Int → Option Int
  cbOpen : Option (List Line)
  mem : Bool

/-- `u_pwd_retr_mem`.  Without memory for it, `u_pwd_db_new` leaves no map. -/
def lookup (pwd : Pwd) (l : Lookup) : Option (Option Rec × Pwd) :=
  let pwd := { pwd with cbOpen := l.cbOpen, cbNotify := some l.cbNotify }
  match l.cbNotify pwd.lastMod with
  | none => retrMem pwd l.user
  | some updateTimestamp =>
    if l.mem then retrMem pwd l.user else some (none,
      { pwd with lastMod := updateTimestamp, db := none })

/-- An instance, with the lines of its last load that succeeded; and whether it has failed since. -/
structure Inst where
  pwd : Pwd
  good : List Line
  failed : Bool

/-- The lookup tries to reload. -/
def Inst.Tries (s : Inst) (l : Lookup) : Prop := l.cbNotify s.pwd.lastMod ≠ none

/-- What a reload gets. -/
def Lookup.fresh (l : Lookup) : Option (List Line) := if l.mem then l.cbOpen else none

def Inst.step (s : Inst) (l : Lookup) : Option (Option Rec × Inst) := do
  let (found, pwd) ← lookup s.pwd l
  match l.cbNotify s.pwd.lastMod, l.fresh with
  | none, _ => some (found, { s with pwd })
  | some _, some lines => some (found, ⟨pwd, lines, false⟩)
  | some _, none => some (found, ⟨pwd, s.good, true⟩)

/-- What a map holds that has been filled from a resource. -/
def snapshot (lines : List Line) : List (List Char × Rec) :=
  Hmap.kept [] ((records lines).map fun rec => (rec.user, rec))

/-- The lookup is answered from the last database that was loaded, and if a reload has failed it
tries again. -/
def Served (s : Inst) (l : Lookup) (found : Option Rec) (s' : Inst) : Prop :=
  (∀ r, found = some r ↔ (l.user, r) ∈ snapshot s'.good) ∧ (s.failed = true → s.Tries l)

/-- After a failed reload, the callback reports a change; and if the reload fails, the user is not
in the last database anyway. -/
structure Kept (s : Inst) (l : Lookup) : Prop where
  again : s.failed = true → s.Tries l
  unknown : s.Tries l → l.fresh = none → ∀ r, (l.user, r) ∉ snapshot s.good

/-! ## 2. The snapshot -/

/-- The map, if there is one, holds `entries`. -/
def Holds (db : Option (Hmap (List Char) Rec)) (entries : List (List Char × Rec)) : Prop :=
  match db with
  | none => entries = []
  | some db => Hmap.Easy db ∧ Hmap.pairs db ~ entries

/-- What is left of the last database. -/
def Inst.rest (s : Inst) : List (List Char × Rec) := if s.failed then [] else snapshot s.good

/-- A reload that goes through, and one that cannot open the resource. -/
theorem load_spec (pwd : Pwd) : ∃ db, load pwd = some (pwd.cbOpen.isSome,
    { pwd with db := some db }) ∧ Holds (some db) (snapshot (pwd.cbOpen.getD [])) := by
  obtain ⟨new, hnew, heasy, hempty⟩ := Hmap.easyNew_spec Rec
  have hseen : [] ~ (Hmap.pairs new).map Prod.fst := by rw [hempty, List.map_nil]
  cases hopen : pwd.cbOpen with
  | none =>
    refine ⟨new, ?_, heasy, ?_⟩
    · rw [load, hnew, hopen]
      rfl
    · rw [hempty]
      exact List.Perm.refl _
  | some lines =>
    obtain ⟨db, hfill, hdb, hpairs⟩ :=
      Hmap.fill_kept heasy hseen ((records lines).map fun rec => (rec.user, rec))
    rw [hempty, List.append_nil] at hpairs
    refine ⟨db, ?_, hdb, hpairs⟩
    have hpush := (pushLines_fill lines new).trans hfill
    rw [load, hnew, hopen]
    dsimp only [Option.bind_eq_bind, Option.bind_some]
    rw [hpush]
    rfl

/-- The second half of `u_pwd_retr_mem`. -/
def search (pwd : Pwd) (user : List Char) : Option (Option Rec × Pwd) :=
  match pwd.db with
  | none => some (none, pwd)
  | some db => do
    let (pr, db) ← db.easyGet user
    some (pr, { pwd with db := some db })

theorem retrMem_eq (pwd : Pwd) (user : List Char) :
    retrMem pwd user = needReload pwd >>= fun r => search r.2 user := rfl

theorem search_spec (pwd : Pwd) {entries : List (List Char × Rec)} (h : Holds pwd.db entries)
    (user : List Char) : ∃ found, search pwd user = some (found, pwd) ∧ ∀ r, found = some r ↔
      (user, r) ∈ entries := by
  unfold search
  cases hdb : pwd.db with
  | none =>
    rw [hdb] at h
    obtain rfl : entries = [] := h
    exact ⟨none, rfl, fun r => iff_of_false (Option.some_ne_none r).symm List.not_mem_nil⟩
  | some db =>
    rw [hdb] at h
    obtain ⟨heasy, hpairs⟩ := h
    obtain ⟨found, hget, hfound⟩ := Hmap.easyGet_spec heasy user
    refine ⟨found, ?_, fun r => (hfound r).trans hpairs.mem_iff⟩
    have hsame : { pwd with db := some db } = pwd := by rw [← hdb]
    dsimp only
    rw [hget, Option.bind_eq_bind, Option.bind_some, hsame]

/-- **What a lookup finds** is what is left of the last database, after a reload if it tries one. -/
structure Found (s : Inst) (l : Lookup) (found : Option Rec) (s' : Inst) : Prop where
  inMemory : s'.pwd.inMemory = true
  holds : Holds s'.pwd.db s'.rest
  found : ∀ r, found = some r ↔ (l.user, r) ∈ s'.rest
  stays : ¬ s.Tries l → s'.good = s.good ∧ s'.failed = s.failed
  loads : s.Tries l → l.fresh ≠ none → s'.failed = false
  fails : s.Tries l → l.fresh = none → s'.good = s.good ∧ s'.failed = true

section Step

variable {s : Inst} (hmem : s.pwd.inMemory = true) (h : Holds s.pwd.db s.rest) (l : Lookup)

include hmem h in
theorem Inst.step_quiet (htry : l.cbNotify s.pwd.lastMod = none) :
    ∃ found s', s.step l = some (found, s') ∧ Found s l found s' := by
  have hnot : ¬ s.Tries l := not_not.mpr htry
  let pwd : Pwd := { s.pwd with cbOpen := l.cbOpen, cbNotify := some l.cbNotify }
  have hneed : needReload pwd = some (true, pwd) := by simp [pwd, needReload, hmem, htry]
  obtain ⟨found, hsearch, hfound⟩ := search_spec pwd h l.user
  have hlookup : lookup s.pwd l = some (found, pwd) := by
    unfold lookup
    dsimp only
    rw [htry]
    change retrMem pwd l.user = _
    rw [retrMem_eq, hneed]
    exact hsearch
  refine ⟨found, { s with pwd }, ?_, hmem, h, hfound, fun _ => ⟨rfl, rfl⟩,
    fun htries => absurd htries hnot, fun htries => absurd htries hnot⟩
  unfold Inst.step
  rw [hlookup, htry]
  rfl

include hmem in
theorem Inst.step_tries (htries : s.Tries l) :
    ∃ found s', s.step l = some (found, s') ∧ Found s l found s' := by
  obtain ⟨t, htry⟩ := Option.ne_none_iff_exists'.mp htries
  let pwd : Pwd := { s.pwd with cbOpen := l.cbOpen, cbNotify := some l.cbNotify, lastMod := t }
  cases hm : l.mem with
  | false =>
    have hfresh : l.fresh = none := by rw [Lookup.fresh, hm]; rfl
    have hlookup : lookup s.pwd l = some (none, { pwd with db := none }) := by
      unfold lookup
      dsimp only
      rw [htry, hm]
      rfl
    refine ⟨none, ⟨{ pwd with db := none }, s.good, true⟩, ?_, hmem, rfl,
      fun r => iff_of_false (Option.some_ne_none r).symm List.not_mem_nil, fun hnot => absurd htries
      hnot, fun _ hload => absurd hfresh hload, fun _ _ => ⟨rfl, rfl⟩⟩
    unfold Inst.step
    rw [hlookup, htry, hfresh]
    rfl
  | true =>
    have hfresh : l.fresh = l.cbOpen := by rw [Lookup.fresh, hm]; rfl
    obtain ⟨db, hload, hdb⟩ := load_spec pwd
    obtain ⟨found, hsearch, hfound⟩ := search_spec { pwd with db := some db } hdb l.user
    have hneed : needReload { pwd with lastMod := s.pwd.lastMod } = load pwd := by
      simp [pwd, needReload, hmem, htry]
    have hlookup : lookup s.pwd l = some (found, { pwd with db := some db }) := by
      unfold lookup
      dsimp only
      rw [htry, hm]
      change retrMem { pwd with lastMod := s.pwd.lastMod } l.user = _
      rw [retrMem_eq, hneed, hload]
      exact hsearch
    cases hopen : l.cbOpen with
    | none =>
      have hrest : snapshot (pwd.cbOpen.getD []) = [] := by
        change snapshot (l.cbOpen.getD []) = []
        rw [hopen]
        rfl
      rw [hrest] at hdb hfound
      refine ⟨found, ⟨{ pwd with db := some db }, s.good, true⟩, ?_, hmem, hdb, hfound,
        fun hnot => absurd htries hnot, fun _ hload => absurd (hfresh.trans hopen) hload,
        fun _ _ => ⟨rfl, rfl⟩⟩
      unfold Inst.step
      rw [hlookup, htry, hfresh, hopen]
      rfl
    | some lines =>
      have hrest : snapshot (pwd.cbOpen.getD []) = snapshot lines := by
        change snapshot (l.cbOpen.getD []) = _
        rw [hopen]
        rfl
      rw [hrest] at hdb hfound
      refine ⟨found, ⟨{ pwd with db := some db }, lines, false⟩, ?_, hmem, hdb, hfound,
        fun hnot => absurd htries hnot, fun _ _ => rfl, fun _ hnone => ?_⟩
      · unfold Inst.step
        rw [hlookup, htry, hfresh, hopen]
        rfl
      · rw [hfresh, hopen] at hnone
        cases hnone

include hmem h in
theorem Inst.step_spec : ∃ found s', s.step l = some (found, s') ∧ Found s l found s' := by
  by_cases htry : l.cbNotify s.pwd.lastMod = none
  · exact Inst.step_quiet hmem h l htry
  · exact Inst.step_tries hmem l htry

end Step

/-! ## 3. Runs -/

/-- A lookup is served exactly when it meets `Kept`. -/
theorem Found.kept_iff {s s' : Inst} {l : Lookup} {found : Option Rec} (h : Found s l found s') :
    Served s l found s' ↔ Kept s l := by
  have hrest : s'.failed = false → s'.rest = snapshot s'.good := by
    intro hfailed
    rw [Inst.rest, hfailed]
    rfl
  by_cases htries : s.Tries l
  · cases hfresh : l.fresh with
    | some lines =>
      have hloads := h.loads htries (hfresh ▸ Option.some_ne_none lines)
      have hkept : Kept s l :=
        ⟨fun _ => htries, fun _ hnone => (Option.some_ne_none lines (hfresh.symm.trans hnone)).elim⟩
      exact iff_of_true ⟨hrest hloads ▸ h.found, fun _ => htries⟩ hkept
    | none =>
      obtain ⟨hgood, hfailed⟩ := h.fails htries hfresh
      have hnone : ∀ r, found ≠ some r := by
        intro r hr
        have hin := (h.found r).mp hr
        rw [Inst.rest, hfailed] at hin
        exact List.not_mem_nil hin
      constructor
      · intro hserved
        refine ⟨fun _ => htries, fun _ _ r hr => hnone r ((hserved.1 r).mpr ?_)⟩
        rwa [hgood]
      · intro hkept
        refine ⟨fun r => iff_of_false (hnone r) ?_, fun _ => htries⟩
        rw [hgood]
        exact hkept.unknown htries hfresh r
  · obtain ⟨hgood, hfailed⟩ := h.stays htries
    cases hbefore : s.failed with
    | true =>
      exact iff_of_false (fun hserved => htries (hserved.2 hbefore)) fun hkept => htries
        (hkept.again hbefore)
    | false =>
      have hagain : s.failed = true → s.Tries l := fun htrue =>
        (Bool.false_ne_true (hbefore.symm.trans htrue)).elim
      exact iff_of_true ⟨hrest (hfailed.trans hbefore) ▸ h.found, hagain⟩
        ⟨hagain, fun hmust => absurd hmust htries⟩

/-- An instance that has loaded the line of joe. -/
def joeLoaded : Option (Bool × Pwd) := load (init (some [joe]) none true)

/-- A lookup of joe for which no change is reported. -/
def quietly : Lookup := ⟨['j', 'o', 'e'], fun _ => none, none, true⟩

/-- A lookup of joe when the resource has changed and cannot be opened. -/
def unreadable : Lookup := ⟨['j', 'o', 'e'], fun t => if t < 2 then some 2 else none, none, true⟩

/-- A lookup of moe, who has no record, when the resource has changed and cannot be opened. -/
def unknown : Lookup := ⟨['m', 'o', 'e'], fun _ => some 2, none, true⟩

/-- A lookup of joe when the resource can be opened again. -/
def retried : Lookup := ⟨['j', 'o', 'e'], fun _ => some 3, some [joe], true⟩

/-- What a lookup does to the database that is remembered. -/
theorem Inst.step_ghost {s s' : Inst} {l : Lookup} {found : Option Rec}
    (h : s.step l = some (found, s')) : (s'.good, s'.failed) =
      match l.cbNotify s.pwd.lastMod, l.fresh with
      | none, _ => (s.good, s.failed)
      | some _, some lines => (lines, false)
      | some _, none => (s.good, true) := by
  unfold Inst.step at h
  simp only [Option.bind_eq_bind, Option.bind_eq_some_iff, Prod.exists] at h
  obtain ⟨_, _, -, h⟩ := h
  split at h <;> obtain ⟨-, rfl⟩ := Prod.mk.inj (Option.some.inj h) <;> rfl

end Libu.Pwd
