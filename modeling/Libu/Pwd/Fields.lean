/-
# The fields of a line

A line is `name:password[:opaque]`, and its fields go into the record by their position among the
pieces that `u_strtok` finds.  There is no piece for an empty field, so that what follows moves up:
of `joe::hint` the password is the hint.

* §1 is the code that `Libu.Pwd` leaves out: how a line of the file gets into the buffer, and
  `u_pwd_auth_user`.
* §2: the records that lines have, and the line of an entry.
* §3: what is retrieved in the two ways, in a resource with more lines than that of the entry.
* §4: the record is that of the entry exactly when the entry is `Plain` (`fields_exact_iff`).
-/
import Mathlib.Algebra.GroupWithZero.Nat
import Mathlib.Algebra.Order.BigOperators.Group.List
import Mathlib.Algebra.Order.Group.Nat
import Libu.Pwd.Reload
import Libu.Strtok

namespace Libu.Pwd

open Verif Strtok
open scoped List

/-! ## 1. The code -/

theorem take_ne_nil {text : List Char} (hne : text ≠ []) : text.take (lineMax - 1) ≠ [] := by
  simp [lineMax, hne]

theorem take_short (text : List Char) : (text.take (lineMax - 1)).length < lineMax :=
  Nat.lt_of_le_of_lt (List.length_take_le _ _) (by decide)

/-- `__file_load` on a line of the file, call after call. -/
def fgets : Nat → List Char → List Line
  | 0, _ => []
  | n + 1, text =>
    if hne : text = [] then []
    else ⟨text.take (lineMax - 1), take_ne_nil hne, take_short text⟩ :: fgets n
      (text.drop (lineMax - 1))

/-- All that is loaded of a line of the file. -/
def loadText (text : List Char) : List Line := fgets text.length text

/-- What `u_pwd_auth_user` compares with the record: `cb_hash` of the password, or as much of it as
`u_strlcpy` copies. -/
def presented (cbHash : Option (List Char → List Char)) (password : List Char) : List Char :=
  match cbHash with
  | some cbHash => cbHash password
  | none => password.take (lineMax - 1)

/-- `u_pwd_auth_user`: whether it returns 0. -/
def authUser (pwd : Pwd) (cbHash : Option (List Char → List Char)) (user password : List Char) :
    Option (Bool × Pwd) := do
  let (rec, pwd) ← pwd.retr user
  match rec with
  | none => some (false, pwd)
  | some rec => some (presented cbHash password = rec.pass, pwd)

/-- The line of a record, without its newline. -/
def Rec.text (rec : Rec) : List Char :=
  rec.user ++ ':' :: (rec.pass ++ (rec.opaq.map (':' :: ·)).getD [])

/-- What a line of the documented form says. -/
structure Entry extends Rec where
  user_ne : user ≠ []
  user_sep : ':' ∉ user
  user_line : '\n' ∉ user
  pass_sep : ':' ∉ pass
  pass_line : '\n' ∉ pass
  opaq_sep : ∀ o ∈ opaq, ':' ∉ o
  opaq_line : ∀ o ∈ opaq, '\n' ∉ o

/-- The line of an entry; the last line of a file may have no newline. -/
def Entry.line (e : Entry) (newline : Bool) : List Char := e.text ++ if newline then ['\n'] else []

/-- No field of the entry is there and empty, its line is no comment, and it fits into the
buffer. -/
structure Entry.Plain (e : Entry) : Prop where
  pass_ne : e.pass ≠ []
  opaq_ne : e.opaq ≠ some []
  no_comment : e.user.head? ≠ some '#'
  fits : e.text.length < lineMax

/-! ## 2. Lines and records -/

theorem strsepAll_length (delim s : List Char) :
    ((strsepAll delim s).map fun tok => tok.length + 1).sum = s.length + 1 := by
  induction s with
  | nil => rfl
  | cons c s ih =>
    rw [strsepAll]
    split
    · rw [List.map_cons, List.sum_cons, ih, List.length_nil, List.length_cons]
      omega
    · cases hall : strsepAll delim s with
      | nil =>
        rw [hall] at ih
        exact absurd ih (Nat.succ_ne_zero _).symm
      | cons tok toks =>
        rw [hall] at ih
        simp only [List.map_cons, List.sum_cons, List.length_cons] at ih ⊢
        omega

theorem Rec.text_length (rec : Rec) :
    rec.text.length = rec.user.length + 1 + rec.pass.length +
    ((rec.opaq.map fun o => o.length + 1).getD 0) := by
  unfold Rec.text
  cases rec.opaq <;> simp <;> omega

/-- **What a line can have as its record**: the password and the opaque field are not empty, and
with its separators it is no longer than a line. -/
theorem Line.record_bounds {ln : Line} {rec : Rec} (h : ln.record = some rec) :
    rec.pass ≠ [] ∧ rec.opaq ≠ some [] ∧ rec.text.length < lineMax := by
  unfold Line.record at h
  split at h
  · cases h
  · have hne : ∀ tok ∈ strtok ln.chomp [':'], tok ≠ [] := fun tok htok => by
      simpa using (List.mem_filter.mp htok).2
    have hsum : ((strtok ln.chomp [':']).map fun tok => tok.length + 1).sum ≤
      ln.chomp.length + 1 := by
      rw [← strsepAll_length [':'] ln.chomp]
      exact (List.filter_sublist.map _).sum_le_sum fun _ _ => Nat.zero_le _
    have hchomp : ln.chomp.length < lineMax := by
      have hshort := ln.short
      unfold Line.chomp
      split
      · rw [List.length_dropLast]
        omega
      · exact hshort
    rw [Rec.text_length]
    rcases htoks : strtok ln.chomp [':'] with - | ⟨user, - | ⟨pass, toks⟩⟩
    · rw [htoks] at h
      cases h
    · rw [htoks] at h
      cases h
    · rw [htoks] at h hne hsum
      obtain rfl := Option.some.inj h
      refine ⟨hne pass (by simp), ?_, ?_⟩
      · intro hopaq
        exact hne [] (by simp [List.mem_of_mem_head? hopaq]) rfl
      · cases toks with
        | nil => simp at hsum ⊢; omega
        | cons opaq toks => simp at hsum ⊢; omega

theorem fgets_nil (n : Nat) : fgets n [] = [] := by
  cases n <;> rfl

theorem fgets_take {text : List Char} (ln : Line) (hln : ln.text = text.take (lineMax - 1))
    (n : Nat) : fgets (n + 1) text = ln :: fgets n (text.drop (lineMax - 1)) := by
  have hne : text ≠ [] := by
    rintro rfl
    exact ln.ne (hln.trans List.take_nil)
  rw [fgets, dif_neg hne]
  cases ln
  cases hln
  rfl

theorem fgets_short (ln : Line) (n : Nat) : fgets (n + 1) ln.text = [ln] := by
  have hlen : ln.text.length ≤ lineMax - 1 := Nat.le_pred_of_lt ln.short
  rw [fgets_take ln (List.take_of_length_le hlen).symm, List.drop_of_length_le hlen, fgets_nil]

/-- A line that fits is loaded at once, or its newline after it. -/
theorem loadText_line (ln : Line) (newline : Bool) :
    ∃ ln' rest, loadText (ln.text ++ if newline then ['\n'] else []) = ln' :: rest ∧
      (ln'.text = ln.text ∨ ln'.text = ln.text ++ ['\n']) ∧ records rest = [] := by
  obtain ⟨n, hn⟩ := Nat.exists_eq_add_of_lt (List.length_pos_iff.mpr ln.ne)
  cases newline with
  | false =>
    refine ⟨ln, [], ?_, .inl rfl, rfl⟩
    rw [if_neg Bool.false_ne_true, List.append_nil, loadText, hn]
    exact fgets_short ln _
  | true =>
    have hlen : (ln.text ++ ['\n']).length = ln.text.length + 1 := List.length_append
    rw [if_pos rfl, loadText, hlen]
    by_cases hfits : (ln.text ++ ['\n']).length < lineMax
    · let whole : Line := ⟨ln.text ++ ['\n'], by simp, hfits⟩
      exact ⟨whole, [], fgets_short whole _, .inr rfl, rfl⟩
    · have hshort := ln.short
      have hfull : lineMax - 1 = ln.text.length := by omega
      refine ⟨ln, [⟨['\n'], by decide, by decide⟩], ?_, .inl rfl, by decide⟩
      rw [fgets_take ln (by rw [hfull, List.take_left]), hfull, List.drop_left, hn]
      exact congrArg _ (fgets_short ⟨['\n'], by decide, by decide⟩ _)

section Entry

variable (e : Entry)

theorem Entry.strtok_text : strtok e.text [':'] =
    (e.user :: e.pass :: e.opaq.toList).filter (· ≠ []) := by
  have hplain : ∀ {f : List Char}, ':' ∉ f → ∀ c ∈ f, c ∉ [':'] := by
    rintro f hf c hc hcolon
    exact hf (List.mem_singleton.mp hcolon ▸ hc)
  have hsep : ':' ∈ [':'] := List.mem_singleton.mpr rfl
  unfold strtok Rec.text
  rw [strsepAll_field _ (hplain e.user_sep) hsep]
  cases hopaq : e.opaq with
  | none =>
    rw [Option.map_none, Option.getD_none, List.append_nil, strsepAll_plain (hplain e.pass_sep)]
    rfl
  | some o =>
    rw [Option.map_some, Option.getD_some, strsepAll_field _ (hplain e.pass_sep) hsep,
      strsepAll_plain (hplain (e.opaq_sep o hopaq))]
    rfl

theorem Entry.text_ne : e.text ≠ [] := by simp [Rec.text]

theorem Entry.newline_not_mem : '\n' ∉ e.text := by
  unfold Rec.text
  cases hopaq : e.opaq with
  | none => simp [e.user_line, e.pass_line]
  | some o => simp [e.user_line, e.pass_line, e.opaq_line o hopaq]

theorem Entry.head_text : e.text.head? = e.user.head? := by
  unfold Rec.text
  rw [List.head?_append_of_ne_nil _ e.user_ne]

/-- The record of the line that begins with the fields of an entry. -/
theorem Entry.record_line {ln : Line} (h : ln.text = e.text ∨ ln.text = e.text ++ ['\n']) :
    ln.isComment = decide (e.user.head? = some '#') ∧ ln.chomp = e.text := by
  unfold Line.isComment Line.chomp
  rcases h with h | h
  · have hlast : ¬ e.text.getLast? = some '\n' := fun hlast => e.newline_not_mem
      (List.mem_of_getLast? hlast)
    rw [h, e.head_text, if_neg hlast]
    exact ⟨rfl, rfl⟩
  · have hhead : (e.text ++ ['\n']).head? = e.user.head? := by
      rw [List.head?_append_of_ne_nil _ e.text_ne, e.head_text]
    rw [h, hhead, List.getLast?_append, List.getLast?_singleton, Option.some_or, if_pos rfl,
      List.dropLast_concat]
    exact ⟨rfl, rfl⟩

end Entry

/-! ## 3. What is retrieved -/

/-- A lookup in the resource itself, or in the map that has been filled from it, comes to the
record. -/
def Reads (lines : List Line) (inMemory : Bool) (user : List Char) (rec : Rec) : Prop :=
  if inMemory then (user, rec) ∈ snapshot lines
  else (findLine (searchString user) lines).bind Line.record = some rec

section Reads

variable {lines : List Line} {cbNotify : Option (Int → Option Int)} {inMemory : Bool}

variable (lines) in
theorem retr_spec (hnotify : inMemory = true → cbNotify.bind (· 0) ≠ none) (user : List Char) :
    ∃ found pwd', (init (some lines) cbNotify inMemory).retr user = some (found, pwd') ∧
      ∀ rec, found = some rec ↔ Reads lines inMemory user rec := by
  cases inMemory with
  | false => exact ⟨_, _, retr_res (some lines) cbNotify user, fun rec => Iff.rfl⟩
  | true =>
    obtain ⟨t, ht⟩ := Option.ne_none_iff_exists'.mp (hnotify rfl)
    obtain ⟨notify, rfl, hchange⟩ := Option.bind_eq_some_iff.mp ht
    let pwd : Pwd := { init (some lines) (some notify) true with lastMod := t }
    obtain ⟨db, hload, hdb⟩ := load_spec pwd
    obtain ⟨found, hsearch, hfound⟩ := search_spec { pwd with db := some db } hdb user
    have hneed : needReload (init (some lines) (some notify) true) = load pwd := by
      simp [pwd, needReload, init, hchange]
    refine ⟨found, { pwd with db := some db }, ?_, hfound⟩
    change retrMem _ user = _
    rw [retrMem_eq, hneed, hload]
    exact hsearch

theorem mem_snapshot {user : List Char} {rec : Rec} (h : (user, rec) ∈ snapshot lines) :
    rec ∈ records lines ∧ rec.user = user := by
  obtain ⟨rec', hrec', heq⟩ := List.mem_map.mp ((Hmap.kept_sublist [] _).subset h)
  obtain ⟨huser, rfl⟩ := Prod.mk.inj heq
  exact ⟨hrec', huser⟩

/-- Whatever is retrieved is the record of some line. -/
theorem Reads.mem_records {user : List Char} {rec : Rec} (h : Reads lines inMemory user rec) :
    rec ∈ records lines := by
  cases inMemory with
  | false =>
    obtain ⟨ln, hln, hrec⟩ := Option.bind_eq_some_iff.mp h
    exact List.mem_filterMap.mpr ⟨ln, (findLine_some hln).1, hrec⟩
  | true => exact (mem_snapshot h).1

end Reads

theorem authUser_retrieved {pwd pwd' : Pwd} {rec : Rec} {user : List Char}
    (h : pwd.retr user = some (some rec, pwd')) (cbHash : Option (List Char → List Char))
    (password : List Char) : pwd.authUser cbHash user password =
      some (decide (presented cbHash password = rec.pass), pwd') := by
  rw [authUser, h]
  rfl

/-! ## 4. Entries -/

/-- The record of the entry is retrieved, and a password is compared with its password field. -/
structure Exact (pwd : Pwd) (e : Entry) : Prop where
  retrieved : ∃ pwd', pwd.retr e.user = some (some e.toRec, pwd')
  compared : ∀ cbHash password, ∃ pwd',
    pwd.authUser cbHash e.user password = some (decide (presented cbHash password = e.pass), pwd')

/-- Nothing else in the resource is about the user, and there is room in the map for what comes
before. -/
structure Alone (before after : List Line) (user : List Char) : Prop where
  first : findLine (searchString user) before = none
  only : ∀ rec ∈ records (before ++ after), rec.user ≠ user
  room : (records before).length < Hmap.capacity

section Entries

variable {e : Entry} {before after : List Line} {cbNotify : Option (Int → Option Int)}
    {inMemory : Bool}

theorem findLine_append {uu : List Char} (h : findLine uu before = none) (lines : List Line) :
    findLine uu (before ++ lines) = findLine uu lines := by
  induction before with
  | nil => rfl
  | cons ln before ih =>
    rw [findLine] at h
    rw [List.cons_append, findLine]
    split at h
    · next hcomment => rw [if_pos hcomment, ih h]
    · next hcomment =>
      rw [if_neg hcomment]
      split at h
      · cases h
      · next hpre => rw [if_neg hpre, ih h]

theorem records_append (before after : List Line) : records (before ++ after) =
    records before ++ records after :=
  List.filterMap_append

/-- The first entry with a key is stored if there is room. -/
theorem kept_first {β : Type} {key : List Char} {val : β} {seen : List (List Char)}
    {l : List (List Char × β)}
    (hseen : key ∉ seen) (hl : ∀ x ∈ l, x.1 ≠ key) (hroom : seen.length + l.length < Hmap.capacity)
    (rest : List (List Char × β)) : (key, val) ∈ Hmap.kept seen (l ++ (key, val) :: rest) := by
  induction l generalizing seen with
  | nil =>
    have hno : ¬ (key ∈ seen ∨ Hmap.capacity ≤ seen.length) := by
      rintro (hin | hfull)
      · exact hseen hin
      · exact absurd hroom (Nat.not_lt.mpr hfull)
    rw [List.nil_append, Hmap.kept, if_neg hno]
    exact List.mem_cons_self
  | cons x l ih =>
    have htail : ∀ y ∈ l, y.1 ≠ key := fun y hy => hl y (List.mem_cons_of_mem x hy)
    rw [List.length_cons] at hroom
    rw [List.cons_append, Hmap.kept]
    split
    · exact ih hseen htail (by omega)
    · refine List.mem_cons_of_mem x (ih ?_ htail (by rw [List.length_cons]; omega))
      rw [List.mem_cons]
      rintro (rfl | hin)
      · exact hl x List.mem_cons_self rfl
      · exact hseen hin

/-- A name that begins as a comment does is not found in the resource. -/
theorem findLine_comment {uu : List Char} (h : uu.head? = some '#') (lines : List Line) :
    findLine uu lines = none := by
  induction lines with
  | nil => rfl
  | cons ln lines ih =>
    rw [findLine]
    split
    · exact ih
    · next hcomment =>
      rw [if_neg, ih]
      intro hpre
      obtain ⟨tail, htail⟩ := List.isPrefixOf_iff_prefix.mp hpre
      refine hcomment (decide_eq_true ?_)
      rw [← htail, List.head?_append, h, Option.some_or]

/-- The search string is a beginning of the line. -/
theorem Entry.searchString_prefix : searchString e.user <+: e.text := by
  have hsep : e.user ++ [':'] <+: e.text :=
    ⟨e.pass ++ (e.opaq.map (':' :: ·)).getD [], by simp [Rec.text]⟩
  exact (List.take_prefix _ _).trans hsep

theorem Entry.recNew_plain (he : e.Plain) : recNew (strtok e.text [':']) = some e.toRec := by
  have hne : ∀ tok ∈ e.user :: e.pass :: e.opaq.toList, decide (tok ≠ []) = true := by
    intro tok htok
    refine decide_eq_true ?_
    rintro rfl
    rcases List.mem_cons.mp htok with huser | htok
    · exact e.user_ne huser.symm
    · rcases List.mem_cons.mp htok with hpass | hopaq
      · exact he.pass_ne hpass.symm
      · exact he.opaq_ne (Option.mem_toList.mp hopaq)
  rw [e.strtok_text, List.filter_eq_self.mpr hne]
  simp [recNew]

theorem Entry.reads_of_plain (halone : Alone before after e.user) (newline : Bool) (he : e.Plain) :
    Reads (before ++ loadText (e.line newline) ++ after) inMemory e.user e.toRec := by
  obtain ⟨ln, rest, hload, hln, -⟩ := loadText_line ⟨e.text, e.text_ne, he.fits⟩ newline
  obtain ⟨hcomment, hchomp⟩ := e.record_line hln
  have hplain : ¬ ln.isComment = true := by
    rw [hcomment]
    exact fun hhash => he.no_comment (of_decide_eq_true hhash)
  have hrec : ln.record = some e.toRec := by
    rw [Line.record, if_neg hplain, hchomp, e.recNew_plain he]
  have hresource : before ++ loadText (e.line newline) ++ after = before ++ ln ::
    (rest ++ after) := by
    rw [Entry.line, hload, List.append_assoc, List.cons_append]
  rw [hresource]
  cases inMemory with
  | false =>
    have hpre : (searchString e.user).isPrefixOf ln.text = true := by
      refine List.isPrefixOf_iff_prefix.mpr (e.searchString_prefix.trans ?_)
      rcases hln with h | h
      · exact h ▸ List.prefix_rfl
      · exact h ▸ List.prefix_append _ _
    change (findLine _ _).bind _ = _
    rw [findLine_append halone.first, findLine, if_neg hplain, if_pos hpre, Option.bind_some, hrec]
  | true =>
    have hbefore : ∀ x ∈ (records before).map fun rec => (rec.user, rec), x.1 ≠ e.user := by
      intro x hx
      obtain ⟨rec, hrec, rfl⟩ := List.mem_map.mp hx
      exact halone.only rec (records_append before after ▸ List.mem_append_left _ hrec)
    change (e.user, e.toRec) ∈ snapshot _
    rw [snapshot, records_append, records_cons, hrec, List.map_append]
    refine kept_first List.not_mem_nil hbefore ?_ _
    rw [List.length_nil, Nat.zero_add, List.length_map]
    exact halone.room

theorem Entry.plain_of_reads (halone : Alone before after e.user) (newline : Bool)
    (h : Reads (before ++ loadText (e.line newline) ++ after) inMemory e.user e.toRec) :
    e.Plain := by
  obtain ⟨ln, -, hrec⟩ := List.mem_filterMap.mp h.mem_records
  obtain ⟨hpass, hopaq, hfits⟩ := ln.record_bounds hrec
  refine ⟨hpass, hopaq, ?_, hfits⟩
  intro hhash
  cases inMemory with
  | false =>
    have huu : (searchString e.user).head? = some '#' := by
      rw [searchString, List.head?_take, if_neg (by decide), List.head?_append,
        hhash, Option.some_or]
    obtain ⟨ln', hln', -⟩ := Option.bind_eq_some_iff.mp h
    rw [findLine_comment huu] at hln'
    cases hln'
  | true =>
    -- the line of the entry is a comment, and all that is left of it after it is its newline
    obtain ⟨first, rest, hload, hfirst, hrest⟩ := loadText_line ⟨e.text, e.text_ne, hfits⟩ newline
    have hcomment : first.record = none := by
      rw [Line.record, (e.record_line hfirst).1, if_pos (decide_eq_true hhash)]
    have hall : records (before ++ loadText (e.line newline) ++ after) = records
      (before ++ after) := by
      rw [Entry.line, hload, records_append, records_append, records_append,
        records_cons, hcomment, hrest]
      simp
    obtain ⟨hin, huser⟩ := mem_snapshot h
    exact halone.only _ (hall ▸ hin) huser

end Entries

/-- `joe:pw:hint` -/
def joeEntry : Entry where
  user := ['j', 'o', 'e']
  pass := ['p', 'w']
  opaq := some ['h', 'i', 'n', 't']
  user_ne := by decide
  user_sep := by decide
  user_line := by decide
  pass_sep := by decide
  pass_line := by decide
  opaq_sep := by decide
  opaq_line := by decide

/-- `joe::hint` -/
def joeNoPass : Entry := { joeEntry with pass := [], pass_sep := by decide, pass_line := by decide }

/-- A resource with that line. -/
def noPass : Pwd := init (some (loadText (joeNoPass.line true))) none false

end Libu.Pwd
