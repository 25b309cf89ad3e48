/-
# Password records (`toolbox/pwd.c`)

A record is looked up in the resource itself, line by line, or in a hash map that has been filled
from it.  The first way matches the beginning of a line with the name and breaks up the line it
finds; the second way breaks up every line.

* §1 is the code, with `u_strtok` of `toolbox/misc.c`.  A resource is what its `load` callback puts
  into the buffer, call after call, and a callback tells whether it has changed.
* §2: what the hash map holds when it has been filled.
* §3: the two ways agree exactly when the map is filled at all, the line that the first way finds is
  one of the user, and a line of the user is the one that the first way finds (`retr_agree_iff`).
-/
import Libu.Hmap.Easy

namespace Libu

open Verif
open scoped List

/-! ## 1. The code -/

/-- What `strsep` returns, call after call. -/
def strsepAll (delim : List Char) : List Char → List (List Char)
  | [] => [[]]
  | c :: s =>
    if c ∈ delim then [] :: strsepAll delim s
    else
      match strsepAll delim s with
      | [] => [[c]]
      | tok :: toks => (c :: tok) :: toks

/-- `u_strtok` -/
def strtok (s delim : List Char) : List (List Char) :=
  -- skip empty field
  (strsepAll delim s).filter (· ≠ [])

namespace Pwd

/-- `U_PWD_LINE_MAX` -/
def lineMax : Nat := 256

/-- What `cb_load` puts into the buffer: a line that fits. -/
structure Line where
  text : List Char
  ne : text ≠ []
  short : text.length < lineMax
  deriving DecidableEq

/-- `u_pwd_rec_t` -/
structure Rec where
  user : List Char
  pass : List Char
  opaq : Option (List Char)
  deriving DecidableEq

end Pwd

/-- `u_pwd_t`.  `cbOpen` is what there is to load, if the resource can be opened; `cbNotify` is
called with the last timestamp, and returns a new one if there has been a change. -/
structure Pwd where
  cbOpen : Option (List Pwd.Line)
  cbNotify : Option (Int → Option Int)
  lastMod : Int
  inMemory : Bool
  db : Option (Hmap (List Char) Pwd.Rec)

namespace Pwd

/-- `u_pwd_init` -/
def init (cbOpen : Option (List Line)) (cbNotify : Option (Int → Option Int)) (inMemory : Bool) :
    Pwd :=
  ⟨cbOpen, cbNotify, 0, inMemory, none⟩

/-- A comment line. -/
def Line.isComment (ln : Line) : Bool := ln.text.head? = some '#'

/-- The line without a trailing `\n`. -/
def Line.chomp (ln : Line) : List Char :=
  if ln.text.getLast? = some '\n' then ln.text.dropLast else ln.text

/-- `u_pwd_rec_new` on the pieces of a line; less than two are bad syntax. -/
def recNew (toks : List (List Char)) : Option Rec :=
  match toks with
  | user :: pass :: toks => some ⟨user, pass, toks.head?⟩
  | _ => none

/-- `uu` of `u_pwd_retr_res`, as `u_snprintf` writes it. -/
def searchString (user : List Char) : List Char := (user ++ [':']).take (lineMax - 1)

/-- The loop of `u_pwd_retr_res`. -/
def findLine (uu : List Char) : List Line → Option Line
  | [] => none
  | ln :: lines =>
    if ln.isComment then findLine uu lines
    else if uu.isPrefixOf ln.text then some ln
    else findLine uu lines

/-- `u_pwd_retr_res` -/
def retrRes (pwd : Pwd) (user : List Char) : Option Rec := do
  let lines ← pwd.cbOpen
  let ln ← findLine (searchString user) lines
  recNew (strtok ln.chomp [':'])

/-- The loop of `u_pwd_db_load`. -/
def pushLines : List Line → Hmap (List Char) Rec → Option (Hmap (List Char) Rec)
  | [], db => some db
  | ln :: lines, db =>
    if ln.isComment then pushLines lines db
    else
      match recNew (strtok ln.chomp [':']) with
      | none => pushLines lines db
      | some rec => do
        let (_, db) ← db.easyPut rec.user rec
        pushLines lines db

/-- `u_pwd_load`: whether it returns 0, and the new map. -/
def load (pwd : Pwd) : Option (Bool × Pwd) := do
  let db ← Hmap.easyNew Rec
  match pwd.cbOpen with
  | none => some (false, { pwd with db := some db })
  | some lines => do
    let db ← pushLines lines db
    some (true, { pwd with db := some db })

/-- `u_pwd_need_reload` -/
def needReload (pwd : Pwd) : Option (Bool × Pwd) :=
  if !pwd.inMemory then some (true, pwd)
  else
    match pwd.cbNotify with
    | none => some (true, pwd)
    | some cbNotify =>
      match cbNotify pwd.lastMod with
      | none => some (true, pwd)
      | some updateTimestamp => load { pwd with lastMod := updateTimestamp }

/-- `u_pwd_retr_mem` -/
def retrMem (pwd : Pwd) (user : List Char) : Option (Option Rec × Pwd) := do
  -- on error keep on working with the old in-memory db
  let (_, pwd) ← needReload pwd
  match pwd.db with
  | none => some (none, pwd)
  | some db => do
    let (pr, db) ← db.easyGet user
    some (pr, { pwd with db := some db })

/-- `u_pwd_retr`: the record, if it succeeds. -/
def retr (pwd : Pwd) (user : List Char) : Option (Option Rec × Pwd) :=
  if pwd.inMemory then retrMem pwd user else some (retrRes pwd user, pwd)

/-! ## 2. The map -/

/-- The record of a line. -/
def Line.record (ln : Line) : Option Rec :=
  if ln.isComment then none else recNew (strtok ln.chomp [':'])

/-- The records of a resource. -/
def records (lines : List Line) : List Rec := lines.filterMap Line.record

/-- Those of them that a map has room for. -/
def stored (lines : List Line) : List Rec := (records lines).take Hmap.capacity

theorem records_cons (ln : Line) (lines : List Line) :
    records (ln :: lines) = ln.record.toList ++ records lines := by
  unfold records
  rw [List.filterMap_cons]
  cases ln.record <;> rfl

theorem pushLines_fill (lines : List Line) (db : Hmap (List Char) Rec) :
    pushLines lines db = Hmap.fill ((records lines).map fun rec => (rec.user, rec)) db := by
  induction lines generalizing db with
  | nil => rfl
  | cons ln lines ih =>
    rw [pushLines, records_cons]
    unfold Line.record
    split
    · exact ih db
    · cases recNew (strtok ln.chomp [':']) with
      | none => exact ih db
      | some rec =>
        simp only [Option.toList_some, List.cons_append, List.nil_append, List.map_cons, Hmap.fill]
        cases db.easyPut rec.user rec with
        | none => rfl
        | some r => exact ih r.2

/-- Of entries with different keys, as many are stored as there is room for. -/
theorem kept_take {β : Type} {seen : List (List Char)} {l : List (List Char × β)}
    (hnew : (l.map Prod.fst ++ seen).Nodup) :
    Hmap.kept seen l = l.take (Hmap.capacity - seen.length) := by
  induction l generalizing seen with
  | nil => simp [Hmap.kept]
  | cons e l ih =>
    rw [List.map_cons, List.cons_append, List.nodup_cons] at hnew
    obtain ⟨he, hnew⟩ := hnew
    have hseen : e.1 ∉ seen := fun hmem => he (List.mem_append_right _ hmem)
    rw [Hmap.kept]
    by_cases hfull : Hmap.capacity ≤ seen.length
    · rw [if_pos (.inr hfull), ih hnew, Nat.sub_eq_zero_of_le hfull, List.take_zero, List.take_zero]
    · have hperm : l.map Prod.fst ++ e.1 :: seen ~ e.1 ::
        (l.map Prod.fst ++ seen) := List.perm_middle
      have hroom : Hmap.capacity - seen.length = Hmap.capacity - (e.1 :: seen).length + 1 := by
        rw [List.length_cons]
        omega
      rw [if_neg (by simp [hseen, hfull]), ih (hperm.nodup_iff.mpr
        (List.nodup_cons.mpr ⟨he, hnew⟩)), hroom, List.take_succ_cons]

/-- **The map that has been filled** has the records of the resource by their users. -/
theorem filled_spec {lines : List Line} (hnames : ((records lines).map Rec.user).Nodup) :
    ∃ new db, Hmap.easyNew Rec = some new ∧ pushLines lines new = some db ∧
      ∀ user, ∃ found, db.easyGet user = some (found, db) ∧
        ∀ r, found = some r ↔ r ∈ stored lines ∧ r.user = user := by
  obtain ⟨new, hnew, heasy, hempty⟩ := Hmap.easyNew_spec Rec
  have hseen : [] ~ (Hmap.pairs new).map Prod.fst := by rw [hempty, List.map_nil]
  obtain ⟨db, hfill, hdb, hpairs⟩ :=
    Hmap.fill_kept heasy hseen ((records lines).map fun rec => (rec.user, rec))
  have hkeys : (((records lines).map fun rec => (rec.user, rec)).map Prod.fst ++
    ([] : List (List Char))).Nodup := by
    simpa [Function.comp_def] using hnames
  rw [kept_take hkeys, hempty, List.append_nil, List.length_nil, Nat.sub_zero,
    ← List.map_take] at hpairs
  refine ⟨new, db, hnew, (pushLines_fill lines new).trans hfill, fun user => ?_⟩
  obtain ⟨found, hget, hfound⟩ := Hmap.easyGet_spec hdb user
  refine ⟨found, hget, fun r => ?_⟩
  rw [hfound, hpairs.mem_iff, List.mem_map]
  constructor
  · rintro ⟨rec, hrec, heq⟩
    obtain ⟨hkey, rfl⟩ := Prod.mk.inj heq
    exact ⟨hrec, hkey⟩
  · rintro ⟨hr, rfl⟩
    exact ⟨r, hr, rfl⟩

/-! ## 3. Agreement -/

theorem findLine_some {uu : List Char} {lines : List Line} {ln : Line}
    (h : findLine uu lines = some ln) : ln ∈ lines ∧ ln.isComment = false := by
  induction lines with
  | nil => cases h
  | cons l lines ih =>
    rw [findLine] at h
    split at h
    · exact ⟨List.mem_cons_of_mem _ (ih h).1, (ih h).2⟩
    · next hcomment =>
      split at h
      · obtain rfl := Option.some.inj h
        exact ⟨List.mem_cons_self, by simpa using hcomment⟩
      · exact ⟨List.mem_cons_of_mem _ (ih h).1, (ih h).2⟩

section Agreement

variable (cbOpen : Option (List Line)) (cbNotify : Option (Int → Option Int)) (user : List Char)

/-- The line that the first way finds. -/
def userLine : Option Line := findLine (searchString user) (cbOpen.getD [])

/-- In the resource, the record of the line is retrieved. -/
theorem retr_res : (init cbOpen cbNotify false).retr user =
    some ((userLine cbOpen user).bind Line.record, init cbOpen cbNotify false) := by
  have hres : (init cbOpen cbNotify false).retrRes user =
    (userLine cbOpen user).bind Line.record := by
    unfold retrRes userLine init
    cases cbOpen with
    | none => rfl
    | some lines =>
      simp only [Option.bind_eq_bind, Option.bind_some, Option.getD_some]
      cases hln : findLine (searchString user) lines with
      | none => rfl
      | some ln => simp [Line.record, (findLine_some hln).2]
  rw [retr, ← hres]
  rfl

/-- In memory, nothing is retrieved if there has been no change. -/
theorem retr_unloaded (hnotify : (cbNotify.bind (· 0)) = none) :
    ∃ pwd, (init cbOpen cbNotify true).retr user = some (none, pwd) := by
  cases cbNotify with
  | none => exact ⟨_, rfl⟩
  | some notify =>
    have hno : notify 0 = none := hnotify
    exact ⟨_, by simp only [retr, retrMem, needReload, init, hno]; rfl⟩

/-- In memory, a stored record of the user is retrieved. -/
theorem retr_loaded (hnotify : (cbNotify.bind (· 0)) ≠ none)
    (hnames : ((records (cbOpen.getD [])).map Rec.user).Nodup) :
    ∃ found pwd, (init cbOpen cbNotify true).retr user = some (found, pwd) ∧
      ∀ r, found = some r ↔ r ∈ stored (cbOpen.getD []) ∧ r.user = user := by
  obtain ⟨new, db, hnew, hpush, hget⟩ := filled_spec hnames
  obtain ⟨found, hfound, hspec⟩ := hget user
  cases cbNotify with
  | none => exact absurd rfl hnotify
  | some notify =>
    obtain ⟨t, ht⟩ := Option.ne_none_iff_exists'.mp hnotify
    have hnt : notify 0 = some t := ht
    refine ⟨found, ?_⟩
    cases cbOpen with
    | none =>
      obtain rfl : new = db := Option.some.inj hpush
      exact ⟨_, by simp [retr, retrMem, needReload, init, hnt, load, hnew, hfound]; rfl, hspec⟩
    | some lines =>
      have hpush' : pushLines lines new = some db := hpush
      exact ⟨_, by simp [retr, retrMem, needReload, init, hnt, load, hnew, hpush', hfound]; rfl,
        hspec⟩

end Agreement

/-- Lines with records of one user are the same line, where no user has two. -/
theorem line_unique {lines : List Line} (hnames : ((records lines).map Rec.user).Nodup)
    {ln ln' : Line}
    {r r' : Rec} (hln : ln ∈ lines) (hln' : ln' ∈ lines) (hr : ln.record = some r)
    (hr' : ln'.record = some r') (huser : r.user = r'.user) : ln = ln' := by
  induction lines with
  | nil => cases hln
  | cons l lines ih =>
    have hmem : ∀ {m : Line} {s : Rec}, m ∈ lines → m.record = some s → s.user ∈
      (records lines).map Rec.user :=
      fun hm hs => List.mem_map_of_mem (List.mem_filterMap.mpr ⟨_, hm, hs⟩)
    rcases List.mem_cons.mp hln with rfl | hin
    · rcases List.mem_cons.mp hln' with rfl | hin'
      · rfl
      · rw [records, List.filterMap_cons, hr, List.map_cons, List.nodup_cons, huser] at hnames
        exact absurd (hmem hin' hr') hnames.1
    · rcases List.mem_cons.mp hln' with rfl | hin'
      · rw [records, List.filterMap_cons, hr', List.map_cons, List.nodup_cons, ← huser] at hnames
        exact absurd (hmem hin hr) hnames.1
      · refine ih ?_ hin hin'
        rw [records, List.filterMap_cons] at hnames
        split at hnames
        · exact hnames
        · exact (List.nodup_cons.mp hnames).2

/-- The two ways come to the same line: the one that begins with the name is of the user, if it has
a record, and has been stored; and a line of the user that has been stored is the one that begins
with the name. -/
def SameLine (lines : List Line) (found : Option Line) (user : List Char) : Prop :=
  (∀ ln ∈ found, ∀ r ∈ ln.record, r ∈ stored lines ∧ r.user = user) ∧
    ∀ ln ∈ lines, ∀ r ∈ ln.record, r ∈ stored lines → r.user = user → found = some ln

/-- What the two ways retrieve is the same: nothing, or equal records. -/
def RetrAgree (cbOpen : Option (List Line)) (cbNotify : Option (Int → Option Int))
    (user : List Char) : Prop :=
  ∃ found pwd pwd', (init cbOpen cbNotify true).retr user = some (found, pwd) ∧
    (init cbOpen cbNotify false).retr user = some (found, pwd')

/-- **The two ways agree** exactly when they come to the same line, or, if the callback is missing
or reports no change, when the line that begins with the name has no record. -/
theorem retr_agree_iff (cbOpen : Option (List Line)) (cbNotify : Option (Int → Option Int))
    (user : List Char) (hnames : ((records (cbOpen.getD [])).map Rec.user).Nodup) :
    RetrAgree cbOpen cbNotify user ↔
      if (cbNotify.bind (· 0)).isSome then SameLine (cbOpen.getD []) (userLine cbOpen user) user
      else ∀ ln ∈ userLine cbOpen user, ln.record = none := by
  have hres := retr_res cbOpen cbNotify user
  by_cases hnotify : (cbNotify.bind (· 0)) = none
  · obtain ⟨pwd, hmem⟩ := retr_unloaded cbOpen cbNotify user hnotify
    rw [if_neg (by simp [hnotify])]
    constructor
    · rintro ⟨found, _, _, hfound, hfound'⟩ ln hln
      rw [hmem] at hfound
      rw [hres, Option.mem_def.mp hln] at hfound'
      obtain rfl := (Prod.mk.inj (Option.some.inj hfound)).1
      exact (Prod.mk.inj (Option.some.inj hfound')).1
    · intro hnone
      refine ⟨none, pwd, init cbOpen cbNotify false, hmem, hres.trans ?_⟩
      cases hln : userLine cbOpen user with
      | none => rfl
      | some ln => rw [Option.bind_some, hnone ln hln]
  · obtain ⟨found, pwd, hmem, hspec⟩ := retr_loaded cbOpen cbNotify user hnotify hnames
    rw [if_pos (Option.isSome_iff_ne_none.mpr hnotify)]
    have hagree : RetrAgree cbOpen cbNotify user ↔ found =
      (userLine cbOpen user).bind Line.record := by
      constructor
      · rintro ⟨found', _, _, hfound, hfound'⟩
        rw [hmem] at hfound
        rw [hres] at hfound'
        exact (Prod.mk.inj (Option.some.inj hfound)).1.trans
          (Prod.mk.inj (Option.some.inj hfound')).1.symm
      · rintro rfl
        exact ⟨_, pwd, _, hmem, hres⟩
    rw [hagree]
    constructor
    · rintro rfl
      refine ⟨fun ln hln r hr => (hspec r).mp (Option.bind_eq_some_iff.mpr ⟨ln, hln, hr⟩), ?_⟩
      intro ln hln r hr hstored huser
      obtain ⟨ln', hln', hr'⟩ := Option.bind_eq_some_iff.mp ((hspec r).mpr ⟨hstored, huser⟩)
      rw [hln', line_unique hnames (findLine_some hln').1 hln hr' hr rfl]
    · rintro ⟨hof, hfirst⟩
      refine Option.ext fun r => ?_
      rw [hspec, Option.bind_eq_some_iff]
      constructor
      · rintro ⟨hstored, huser⟩
        obtain ⟨ln, hln, hr⟩ := List.mem_filterMap.mp (List.mem_of_mem_take hstored)
        exact ⟨ln, hfirst ln hln r hr hstored huser, hr⟩
      · rintro ⟨ln, hln, hr⟩
        exact hof ln hln r hr

/-- `joe:pw:hint` with a newline. -/
def joe : Line := ⟨['j', 'o', 'e', ':', 'p', 'w', ':', 'h', 'i', 'n', 't',
  '\n'], by decide, by decide⟩

/-- The record of joe is retrieved in both ways, once the callback reports that it has changed. -/
theorem retr_joe : RetrAgree (some [joe]) (some fun _ => some 1) ['j', 'o', 'e'] := by
  refine (retr_agree_iff (some [joe]) (some fun _ => some 1) ['j', 'o', 'e'] (by decide)).mpr ?_
  have hrecord : joe.record = some ⟨['j', 'o', 'e'], ['p', 'w'],
    some ['h', 'i', 'n', 't']⟩ := by decide
  have hstored : stored [joe] = [⟨['j', 'o', 'e'], ['p', 'w'],
    some ['h', 'i', 'n', 't']⟩] := by decide
  have hline : userLine (some [joe]) ['j', 'o', 'e'] = some joe := by decide
  refine ⟨?_, ?_⟩
  · rintro ln hln r hr
    obtain rfl := Option.some.inj (hline.symm.trans hln)
    obtain rfl := Option.some.inj (hrecord.symm.trans hr)
    exact ⟨hstored ▸ List.mem_cons_self, rfl⟩
  · rintro ln hln r - - -
    obtain rfl := List.mem_singleton.mp hln
    exact hline

/-- Without a callback, joe is found in the resource only; and so is a user whose name is the
beginning of that line up to the second separator, whatever the callback. -/
theorem retr_disagree :
    ((records [joe]).map Rec.user).Nodup ∧ ¬ RetrAgree (some [joe]) none ['j', 'o', 'e'] ∧
      ¬ RetrAgree (some [joe]) (some fun _ => some 1) ['j', 'o', 'e', ':', 'p', 'w'] := by
  have hnames : ((records [joe]).map Rec.user).Nodup := by decide
  refine ⟨hnames, ?_, ?_⟩
  · rintro ⟨found, _, _, hmem, hres⟩
    obtain ⟨pwd, hnone⟩ := retr_unloaded (some [joe]) none ['j', 'o', 'e'] rfl
    rw [hnone] at hmem
    rw [retr_res, ← (Prod.mk.inj (Option.some.inj hmem)).1] at hres
    exact absurd (Prod.mk.inj (Option.some.inj hres)).1 (by decide)
  · rintro ⟨found, _, _, hmem, hres⟩
    obtain ⟨found', pwd, hloaded, hspec⟩ := retr_loaded (some [joe]) (some fun _ => some 1)
      ['j', 'o', 'e', ':', 'p', 'w'] (by simp) hnames
    rw [hloaded] at hmem
    obtain rfl := (Prod.mk.inj (Option.some.inj hmem)).1
    rw [retr_res] at hres
    have hfound := (Prod.mk.inj (Option.some.inj hres)).1.symm
    have huser := ((hspec ⟨['j', 'o', 'e'], ['p', 'w'], some ['h', 'i', 'n', 't']⟩).mp
      (hfound.trans (by decide))).2
    exact absurd huser (by decide)

end Pwd

end Libu
