/-
# The parser follows the reading of its text

Whatever the text, the matches that the watched parser logs are those of the reading, it fails where
the reading fails, and its buffers are what the matches leave in them (`Follows`).

The reading (`Libu.Uri.Reading`) speaks of the text alone: from each place it says which component
comes next, which characters are its match, and what is left.  The parser speaks of a lexer, of two
marks in its text and of ten buffers.  `Follows` ties the two: a parser at the cursor of a lexer
follows what the reading makes of the lookahead if it logs the same matches, leaves what they leave
in the buffers, writes out of a buffer exactly where one of them is a stray one, and then either
fails with the reading or goes on with a lexer whose lookahead is the rest of the reading.

The proof goes up the call graph.  Most routines store nothing, and for them it is enough that they
are calm: all they log is work on the lexer, with the cursor inside the text.  A calm routine may
stand in front of every parser (`Follows.after`), two parsers that follow two readings follow the
one after the other (`Follows.bind`), and each component ends in the same way, with its match logged
and stored (`follows_store`, `follows_last`).  What is left for a component is to say where its
match ends, which `Libu.Uri.Match` has already done.

* §1: what is asked of a log.
* §2: the routines that match and store nothing are calm: they only work on the lexer, and never set
  the cursor behind the end of the text.
* §3: what a match leaves in a buffer (`Match.kept`), and when it is stored out of its bounds
  (`Match.Stray`).
* §4: the parsers, one after the other (`follows_uri`).
-/
import Libu.Uri.Reading

namespace Libu.Uri

open Verif Logged Lexer

namespace Watch

/-! ## 1. Logs -/

/-- The matches, in their order. -/
def founds (es : List Event) : List (Part × List Char) :=
  es.filterMap fun e => match e with
    | .found part v => some (part, v)
    | _ => none

@[simp] theorem founds_nil : founds [] = [] := rfl

@[simp] theorem founds_append (es es' : List Event) :
    founds (es ++ es') = founds es ++ founds es' :=
  List.filterMap_append

/-- The cursor of no lexer is set behind the end of its text. -/
def Within (es : List Event) : Prop := ∀ n p, .lexer n (.move p) ∈ es → p ≤ n

/-- Some byte out of a buffer is written. -/
def Strays (es : List Event) : Prop :=
  ∃ part i j, .write part i j ∈ es ∧ ¬ (0 ≤ i ∧ j < (tokenSz : Int))

/-- The cursor stays inside in two logs in a row if and only if it does in each of them. -/
theorem within_append {es es' : List Event} : Within (es ++ es') ↔ Within es ∧ Within es' := by
  constructor
  · exact fun h => ⟨fun n p hp => h n p (List.mem_append_left _ hp),
      fun n p hp => h n p (List.mem_append_right _ hp)⟩
  · rintro ⟨h, h'⟩ n p hp
    rcases List.mem_append.mp hp with hp | hp
    · exact h n p hp
    · exact h' n p hp

/-- A byte out of a buffer is written in two logs in a row if and only if it is in one of them. -/
theorem strays_append {es es' : List Event} : Strays (es ++ es') ↔ Strays es ∨ Strays es' := by
  constructor
  · rintro ⟨part, i, j, hmem, hout⟩
    rcases List.mem_append.mp hmem with hmem | hmem
    · exact .inl ⟨part, i, j, hmem, hout⟩
    · exact .inr ⟨part, i, j, hmem, hout⟩
  · rintro (⟨part, i, j, hmem, hout⟩ | ⟨part, i, j, hmem, hout⟩)
    · exact ⟨part, i, j, List.mem_append_left _ hmem, hout⟩
    · exact ⟨part, i, j, List.mem_append_right _ hmem, hout⟩

/-- Something is done to a lexer, within its text. -/
def Steady (e : Event) : Prop := ∃ n e', e = .lexer n e' ∧ ∀ p, e' = .move p → p ≤ n

/-- Work on a lexer matches no component. -/
theorem founds_of_steady {es : List Event} (h : ∀ e ∈ es, Steady e) : founds es = [] := by
  refine List.filterMap_eq_nil_iff.mpr fun e he => ?_
  obtain ⟨n, e', rfl, -⟩ := h e he
  rfl

/-- Steady work keeps the cursor inside its text; that is what steady says. -/
theorem within_of_steady {es : List Event} (h : ∀ e ∈ es, Steady e) : Within es := by
  intro n p hp
  obtain ⟨n', e', heq, hle⟩ := h _ hp
  obtain ⟨rfl, rfl⟩ := Event.lexer.inj heq
  exact hle p rfl

/-- Work on a lexer writes to no buffer, and so to no byte out of one. -/
theorem not_strays_of_steady {es : List Event} (h : ∀ e ∈ es, Steady e) : ¬ Strays es := by
  rintro ⟨part, i, j, hmem, -⟩
  obtain ⟨n, e', heq, -⟩ := h _ hmem
  cases heq

/-! ## 2. Routines that store nothing -/

/-- From `l`, the routine only works on the lexer, within the text. -/
abbrev Calm {α : Type} (l : Lexer) (w : Parser α) : Prop :=
  Keeps Watched.Inside (fun e => ∀ l', e = Fail.err l' → Watched.Inside l') Steady l w

section

variable {α : Type} {l l' : Lexer} {w : Parser α}

open Watched (Inside meter)

/-- A routine of the lexer is calm where it does not fail: the watched lexer already says that it
sets the cursor to no place behind the end. -/
theorem calm_onLexer {w : Watched Fail α} (h : Metered (meter (· = .fuel)) l 0 w) {p : Lexer × α}
    (hok : (w l).2 = .ok p) : Calm l (onLexer w) := by
  obtain ⟨hinside, -, hforward⟩ := h.ok p.1 p.2 hok
  refine ⟨fun x hx => ?_, fun l' a hw => ?_, fun e he => ?_⟩
  · obtain ⟨e, he, rfl⟩ := List.mem_map.mp hx
    refine ⟨l.slen, e, rfl, fun q hq => ?_⟩
    subst hq
    have hmoves : q ∈ Watched.moves (w l).1 := List.mem_filterMap.mpr ⟨.move q, he, rfl⟩
    have hle := (hforward.within q hmoves).2.trans hinside.1
    rwa [slen, hforward.text] at hle
  · obtain rfl := Except.ok.inj (hok.symm.trans hw)
    exact hinside
  · cases hok.symm.trans he

theorem calm_peek (hl : Inside l) : Calm l peek := calm_onLexer (Watched.metered_peek hl) rfl

theorem calm_eot (hl : Inside l) : Calm l eot := calm_onLexer (Watched.metered_eot hl) rfl

theorem calm_recordLmatch (hl : Inside l) : Calm l recordLmatch :=
  calm_onLexer (Watched.metered_recordLmatch hl) rfl

theorem calm_recordRmatch (hl : Inside l) : Calm l recordRmatch :=
  calm_onLexer (Watched.metered_recordRmatch hl) rfl

theorem calm_lookahead (hl : Inside l) : Calm l lookahead :=
  calm_onLexer (Watched.metered_lookahead hl) rfl

theorem calm_next (hl : Inside l) : Calm l next :=
  calm_onLexer (Watched.metered_nextEx hl false) Watched.next_snd

/-- A parser that fails does so without a trace. -/
theorem calm_err (hl : Inside l) : Calm l (err : Parser α) := by
  refine Keeps.get_bind (keeps_fail fun l' h => ?_)
  obtain rfl := Fail.err.inj h
  exact hl

theorem calm_nextOrErr (hl : Inside l) : Calm l nextOrErr := by
  refine (calm_next hl).bind fun l' c _ hl' => ?_
  cases c with
  | none => exact calm_err hl'
  | some c => exact keeps_pure hl' c

/-- The same of a loop that has run out of its fuel. -/
theorem calm_fuel : Calm l (fail Fail.fuel : Parser α) := keeps_fail fun _ h => by cases h

/-- A loop over a class of characters is calm, by induction on its fuel: each turn is a calm step,
and leaves the cursor inside. -/
theorem calm_whileClass {p : Char → Bool} : ∀ {n : Nat} {l : Lexer} {c : Char}, Inside l →
    Calm l (whileClass p n c)
  | 0, _, _, _ => calm_fuel
  | n + 1, l, c, hl => by
    rw [whileClass]
    split
    · exact (calm_nextOrErr hl).bind fun _ _ _ hl' => calm_whileClass hl'
    · exact keeps_pure hl ()

theorem calm_nextWhile {p : Char → Bool} {c : Char} (hl : Inside l) : Calm l (nextWhile p c) :=
  Keeps.get_bind (calm_whileClass hl)

/-- The digits of an escape, by induction on their number. -/
theorem calm_hexLoop : ∀ {n : Nat} {l : Lexer}, Inside l → Calm l (hexLoop n)
  | 0, _, hl => keeps_pure hl true
  | n + 1, l, hl => by
    refine (calm_next hl).bind fun l' c _ hl' => ?_
    cases c with
    | none => exact keeps_pure hl' false
    | some c =>
      dsimp only
      split
      · exact keeps_pure hl' false
      · exact calm_hexLoop hl'

theorem calm_matchUps (hl : Inside l) : Calm l matchUps := by
  refine (calm_peek hl).bind fun l' c _ hl' => ?_
  split
  · refine (calm_peek hl').bind fun l' c _ hl' => ?_
    split
    · exact keeps_pure hl' false
    · exact calm_hexLoop hl'
  · exact keeps_pure hl' _

theorem calm_matchPcharMinusAtSign (hl : Inside l) : Calm l matchPcharMinusAtSign := by
  refine (calm_peek hl).bind fun l' c _ hl' => ?_
  split
  · exact keeps_pure hl' true
  · exact calm_matchUps hl'

theorem calm_matchPchar (hl : Inside l) : Calm l matchPchar := by
  refine (calm_peek hl).bind fun l' c _ hl' => ?_
  split
  · exact keeps_pure hl' true
  · exact calm_matchPcharMinusAtSign hl'

theorem calm_matchQueryChar (hl : Inside l) : Calm l matchQueryChar := by
  refine (calm_peek hl).bind fun l' c _ hl' => ?_
  split
  · exact keeps_pure hl' true
  · exact calm_matchPchar hl'

theorem calm_matchLiteralChar (hl : Inside l) : Calm l matchLiteralChar :=
  (calm_peek hl).bind fun _ _ _ hl' => (calm_matchPchar hl').bind fun _ _ _ hl' => keeps_pure hl' _

/-- A loop is calm if its matcher is. -/
theorem calm_whileMatch {m : Parser Bool} (hm : ∀ {l}, Inside l → Calm l m) :
    ∀ {n : Nat} {l : Lexer}, Inside l → Calm l (whileMatch m n)
  | 0, _, _ => calm_fuel
  | n + 1, l, hl => by
    refine (hm hl).bind fun l' b _ hl' => ?_
    split
    · exact (calm_nextOrErr hl').bind fun _ _ _ hl' => calm_whileMatch hm hl'
    · exact keeps_pure hl' ()

theorem calm_matchWhile {m : Parser Bool} (hm : ∀ {l}, Inside l → Calm l m) (hl : Inside l) :
    Calm l (matchWhile m) :=
  Keeps.get_bind (calm_whileMatch hm hl)

theorem calm_doWhile {m : Parser Bool} (hm : ∀ {l}, Inside l → Calm l m) (hl : Inside l) :
    Calm l (doWhile m) :=
  (calm_nextOrErr hl).bind fun _ _ _ hl' => calm_matchWhile hm hl'

theorem calm_expectChar {c : Char} (hl : Inside l) : Calm l (expectChar c) := by
  refine (calm_peek hl).bind fun l' c _ hl' => ?_
  split
  · exact (calm_nextOrErr hl').bind fun _ _ _ hl' => keeps_pure hl' ()
  · exact calm_err hl'

/-- Where the failure of a routine is ignored, the lexer is as the routine has left it. -/
theorem calm_ignoring {w : Parser Unit} (h : Calm l w) : Calm l (ignoring w) := by
  cases hw : (w l).2 with
  | ok r =>
    have heq := ignoring_ok hw
    refine ⟨?_, ?_, ?_⟩
    · rw [heq]
      exact h.logs
    · rw [heq, ← hw]
      exact h.ok
    · rw [heq, ← hw]
      exact h.error
  | error e =>
    cases e with
    | err l' =>
      have heq := ignoring_err hw
      refine ⟨?_, fun l₁ a hok => ?_, fun e he => ?_⟩
      · rw [heq]
        exact h.logs
      · rw [heq] at hok
        obtain ⟨rfl, -⟩ := Prod.mk.inj (Except.ok.inj hok)
        exact h.error _ hw _ rfl
      · rw [heq] at he
        cases he
    | fuel =>
      have heq := ignoring_fuel hw
      refine ⟨?_, ?_, ?_⟩
      · rw [heq]
        exact h.logs
      · rw [heq, ← hw]
        exact h.ok
      · rw [heq, ← hw]
        exact h.error

/-- The loop over the segments of a path, which goes on behind a segment that fails. -/
theorem calm_segmentLoop : ∀ {n : Nat} {l : Lexer}, Inside l → Calm l (segmentLoop n)
  | 0, _, _ => calm_fuel
  | n + 1, l, hl => by
    refine (calm_ignoring (calm_doWhile calm_matchPchar hl)).bind fun _ _ _ hl' => ?_
    refine (calm_peek hl').bind fun l' c _ hl' => ?_
    split
    · exact calm_segmentLoop hl'
    · exact keeps_pure hl' ()

theorem calm_expectPathAbempty (hl : Inside l) : Calm l expectPathAbempty := by
  refine (calm_peek hl).bind fun l' c _ hl' => ?_
  split
  · exact keeps_pure hl' ()
  · exact Keeps.get_bind (calm_segmentLoop hl')

theorem calm_expectSegmentNz (hl : Inside l) : Calm l expectSegmentNz := by
  refine (calm_matchPchar hl).bind fun l' b _ hl' => ?_
  split
  · exact calm_doWhile calm_matchPchar hl'
  · exact calm_err hl'

theorem calm_skipSlash (hl : Inside l) : Calm l skipSlash := by
  refine (calm_peek hl).bind fun l' c _ hl' => ?_
  split
  · exact (calm_nextOrErr hl').bind fun _ _ _ hl' => keeps_pure hl' ()
  · exact keeps_pure hl' ()

theorem calm_pathFirst (hl : Inside l) : Calm l pathFirst := by
  refine (calm_peek hl).bind fun l' c _ hl' => ?_
  split
  · exact keeps_pure hl' true
  · exact calm_matchPchar hl'

/-- A query or a fragment up to where its characters end: a calm character in front of a calm loop.
-/
theorem calm_parseQueryText {c : Char} (hl : Inside l) : Calm l (parseQueryText c) := by
  refine (calm_peek hl).bind fun l' c _ hl' => ?_
  split
  · exact calm_err hl'
  · exact (calm_nextOrErr hl').bind fun _ _ _ hl' => (calm_recordLmatch hl').bind fun _ _ _ hl' =>
      (calm_matchWhile calm_matchQueryChar hl').bind fun _ _ _ hl' => calm_recordRmatch hl'

theorem calm_untilClass {p : Char → Bool} : ∀ {n : Nat} {l : Lexer}, Inside l →
    Calm l (untilClass p n)
  | 0, _, _ => calm_fuel
  | n + 1, l, hl => by
    refine (calm_next hl).bind fun l' c _ hl' => (calm_eot hl').bind fun l' e _ hl' => ?_
    split
    · exact keeps_pure hl' ()
    · exact calm_untilClass hl'

theorem calm_nextUntil {p : Char → Bool} (hl : Inside l) : Calm l (nextUntil p) :=
  Keeps.get_bind (calm_untilClass hl)

end

/-- The matches in a log, that it stays within the texts, and when a buffer is left. -/
structure Logs (es : List Event) (ms : List (Part × List Char)) (P : Prop) : Prop where
  founds : founds es = ms
  within : Within es
  strays : Strays es ↔ P

/-- Steady work logs no match and no stray byte. -/
theorem logs_of_steady {es : List Event} (h : ∀ e ∈ es, Steady e) : Logs es [] False :=
  ⟨founds_of_steady h, within_of_steady h, iff_of_false (not_strays_of_steady h) id⟩

/-- Of two logs in a row, the matches come one after the other, and a stray byte is in either. -/
theorem Logs.append {es es' : List Event} {ms ms' : List (Part × List Char)} {P P' : Prop}
    (h : Logs es ms P) (h' : Logs es' ms' P') : Logs (es ++ es') (ms ++ ms') (P ∨ P') :=
  ⟨by rw [founds_append, h.founds, h'.founds], within_append.mpr ⟨h.within, h'.within⟩,
    strays_append.trans (or_congr h.strays h'.strays)⟩

theorem Logs.congr {es : List Event} {ms : List (Part × List Char)} {P P' : Prop} (h : Logs es ms P)
    (hP : P ↔ P') : Logs es ms P' := ⟨h.founds, h.within, h.strays.trans hP⟩

/-- A calm routine in front. -/
theorem Logs.calm {es es' : List Event} {ms : List (Part × List Char)} {P : Prop}
    (h : ∀ e ∈ es, Steady e) (h' : Logs es' ms P) : Logs (es ++ es') ms P :=
  ((logs_of_steady h).append h').congr (iff_of_eq (false_or P))

/-- A match that is logged, and nothing written. -/
theorem logs_found (part : Part) (v : List Char) : Logs [.found part v] [(part, v)] False := by
  refine ⟨rfl, fun n p h => ?_, iff_of_false ?_ id⟩
  · cases List.mem_singleton.mp h
  · rintro ⟨part, i, j, h, -⟩
    cases List.mem_singleton.mp h

/-- One write, which strays where it is out of the buffer. -/
theorem logs_write (part : Part) (i j : Int) :
    Logs [.write part i j] [] (¬ (0 ≤ i ∧ j < (tokenSz : Int))) := by
  refine ⟨rfl, fun n p h => ?_, ?_, fun h => ⟨part, i, j, List.mem_singleton_self _, h⟩⟩
  · cases List.mem_singleton.mp h
  · rintro ⟨part', i', j', h, hout⟩
    obtain ⟨-, rfl, rfl⟩ := Event.write.inj (List.mem_singleton.mp h)
    exact hout

end Watch

/-! ## 3. Buffers -/

/-- The buffer of a component. -/
def buffer (u : Uri) : Part → Token
  | .scheme => u.scheme
  | .userinfo => u.userinfo
  | .user => u.user
  | .pwd => u.pwd
  | .host => u.host
  | .port => u.port
  | .path => u.path
  | .query => u.query
  | .fragment => u.fragment

/-- What `u_lexer_get_match` leaves of a match, with the character behind it. -/
def Match.copied (m : Match) (old : Token) : Token :=
  if m.Fits then some (m.raw ++ m.behind.take 1) else old

/-- The last character is cut off: of a scheme always, of a fragment never, and of the others before
the end of the text. -/
def Match.cut (m : Match) : Bool := m.part = .scheme || (m.part ≠ .fragment && m.behind ≠ [])

/-- A bracket at the end is trimmed. -/
def Match.adjusted (m : Match) : Bool := m.part ≠ .scheme && m.part ≠ .fragment

/-- What the match leaves in a buffer that had `old`. -/
def Match.kept (m : Match) (old : Token) : Token :=
  let c := if m.cut then chop (m.copied old) else m.copied old
  if m.adjusted then c.map trimBracket else c

/-- A byte in front of the buffer is written. -/
def Match.Stray (m : Match) (old : Token) : Prop := m.cut = true ∧ m.copied old = some []

/-- What one match does to the ten buffers: it goes to the buffer of its own component, and leaves
the others alone. -/
def keepOne (B : Part → Token) (m : Match) : Part → Token :=
  Function.update B m.part (m.kept (B m.part))

/-- What the matches leave in the buffers, one after the other. -/
def keepAll (ms : List Match) (B : Part → Token) : Part → Token := ms.foldl keepOne B

/-- Some match of the list is a stray one, each over the buffers that the matches before it left. -/
def StrayAll : List Match → (Part → Token) → Prop
  | [], _ => False
  | m :: ms, B => m.Stray (B m.part) ∨ StrayAll ms (keepOne B m)

/-- The strings in the buffers have room for their NUL. -/
def Sized (B : Part → Token) : Prop := ∀ k, ∀ v ∈ B k, v.length < tokenSz

section

variable {B : Part → Token} {m : Match} {ms ms' : List Match} {old : Token} {l : Lexer}

/-- What two lists of matches leave is what the second leaves behind the first. -/
theorem keepAll_append : keepAll (ms ++ ms') B = keepAll ms' (keepAll ms B) := List.foldl_append

/-- A stray match of two lists in a row is in the first, or in the second over what the first left.
-/
theorem strayAll_append : StrayAll (ms ++ ms') B ↔ StrayAll ms B ∨ StrayAll ms' (keepAll ms B) := by
  induction ms generalizing B with
  | nil => exact (iff_of_eq (false_or _)).symm
  | cons m ms ih => exact (or_congr_right ih).trans or_assoc.symm

theorem strayAll_singleton : StrayAll [m] B ↔ m.Stray (B m.part) :=
  iff_of_eq (or_false _)

/-- A copy takes at most one byte less than the buffer has, and so its NUL fits as well. -/
theorem length_copied (hold : ∀ v ∈ old, v.length < tokenSz) : ∀ v ∈ m.copied old,
    v.length < tokenSz := by
  intro v hv
  rw [Match.copied] at hv
  split at hv
  · next hfits =>
    obtain rfl := Option.some.inj hv
    have htake := List.length_take_le 1 m.behind
    rw [Match.Fits] at hfits
    rw [List.length_append]
    omega
  · exact hold v hv

/-- What is kept of a match is no longer than its copy. -/
theorem length_kept (hold : ∀ v ∈ old, v.length < tokenSz) : ∀ v ∈ m.kept old,
    v.length < tokenSz := by
  have hpos : 0 < tokenSz := by decide
  have hcut : ∀ v ∈ (if m.cut then chop (m.copied old) else m.copied old), v.length < tokenSz := by
    split
    · intro v hv
      have hle := chop_length (n := tokenSz - 1)
        (fun w hw => Nat.le_sub_one_of_lt (length_copied hold w hw)) v hv
      omega
    · exact length_copied hold
  intro v hv
  rw [Match.kept] at hv
  split at hv
  · obtain ⟨w, hw, rfl⟩ := Option.map_eq_some_iff.mp hv
    exact (trimBracket_length_le w).trans_lt (hcut w hw)
  · exact hcut v hv

/-- The buffers stay terminated, whatever is matched; by induction on the matches. -/
theorem sized_keepAll (h : Sized B) : Sized (keepAll ms B) := by
  induction ms generalizing B with
  | nil => exact h
  | cons m ms ih =>
    refine ih fun k => ?_
    rw [keepOne]
    by_cases hk : k = m.part
    · subst hk
      rw [Function.update_self]
      exact length_kept (h _)
    · rw [Function.update_of_ne hk]
      exact h k

/-- Buffers that are left as they are, or have no string. -/
theorem Sized.of_kept {B' : Part → Token} (h : Sized B) (hkept : ∀ k, B' k = none ∨ B' k = B k) :
    Sized B' := by
  intro k v hv
  rcases hkept k with hk | hk
  · rw [hk] at hv
    cases hv
  · rw [hk] at hv
    exact h k v hv

/-- The match of a component is before the cursor. -/
structure At (m : Match) (l : Lexer) : Prop where
  text : l.s.drop l.lmatch = m.raw ++ m.behind
  pos : l.pos = l.lmatch + m.raw.length

/-- What the cursor of a match has before it is the text behind the match. -/
theorem At.lookahead (h : At m l) : l.lookahead = m.behind := lookahead_cursor h.text h.pos

/-- `u_lexer_get_match` of the object's buffer is what the reading copies. -/
theorem getMatch_of_at (h : At m l) (old : Token) :
    Uri.getMatchInto l.recordRmatch old = m.copied old := by
  rw [getMatchInto, getMatch_cursor h.text h.pos, Match.copied]
  by_cases hfits : m.Fits
  · rw [if_neg (Nat.not_le.mpr hfits), if_pos hfits]
    rfl
  · rw [if_pos (Nat.not_lt.mp hfits), if_neg hfits]
    rfl

/-- Before the end of the text, and only there, the last character is cut off. -/
theorem cut_of_at (h : At m l) (hm : m.adjusted = true) : m.cut = !l.recordRmatch.eot := by
  have heot : l.recordRmatch.eot = true ↔ m.behind = [] := by
    rw [eot_iff, lookahead_recordRmatch, h.lookahead]
  have hparts : m.part ≠ .scheme ∧ m.part ≠ .fragment := by simpa [Match.adjusted] using hm
  by_cases hnil : m.behind = []
  · rw [heot.mpr hnil]
    simp [Match.cut, hparts, hnil]
  · rw [Bool.eq_false_iff.mpr fun h => hnil (heot.mp h)]
    simp [Match.cut, hparts, hnil]

/-- The same with the closing bracket trimmed, for the components that trim it. -/
theorem adjust_of_at (h : At m l) (hm : m.adjusted = true) (old : Token) :
    Uri.adjustGreedyMatch l.recordRmatch old = m.kept old := by
  rw [adjustGreedyMatch, getMatch_of_at h, Match.kept, hm, cut_of_at h hm]
  cases l.recordRmatch.eot <;> rfl

namespace Watch

open Watched (Inside)

variable {before : Part → Char}

theorem getMatchInto_at (h : At m l) (old : Token) :
    (getMatchInto m.part old l.recordRmatch).2 = .ok (l.recordRmatch, m.copied old) :=
  getMatchInto_snd.trans (by rw [getMatch_of_at h])

variable (before) in
theorem adjustGreedyMatch_at (h : At m l) (hm : m.adjusted = true) (old : Token) :
    (adjustGreedyMatch before m.part old l.recordRmatch).2 = .ok (l.recordRmatch, m.kept old) :=
  adjustGreedyMatch_snd.trans (by rw [adjust_of_at h hm])

/-- The copy of a match is within its buffer. -/
theorem logs_getMatch (hl : Inside l) (part : Part) (old : Token) :
    Logs (getMatchInto part old l).1 [] False := by
  have hok : (onLexer Watched.getMatch l).2 = .ok (l, l.getMatch) := Watched.getMatch_snd
  have hcalm := (calm_onLexer (Watched.metered_getMatch hl) Watched.getMatch_snd).logs
  rw [getMatchInto, get_bind, bind_of_ok hok]
  refine Logs.calm hcalm ?_
  cases hmatch : l.getMatch with
  | none => exact logs_of_steady fun _ h => absurd h List.not_mem_nil
  | some v =>
    have hlen : l.rmatch - l.lmatch + 1 < tokenSz := by
      rw [getMatch] at hmatch
      split at hmatch
      · cases hmatch
      · dsimp only at hmatch
        split at hmatch
        · cases hmatch
        · next h => exact Nat.not_le.mp h
    refine (logs_write part 0 (l.rmatch - l.lmatch + 1 : Nat)).congr (iff_of_false ?_ id)
    exact not_not.mpr ⟨Int.le_refl 0, Int.ofNat_lt.mpr hlen⟩

/-- The NUL in the place of the last character goes in front of the buffer exactly where the string
in it is empty. -/
theorem logs_chop (part : Part) (hold : ∀ v ∈ old, v.length < tokenSz) :
    Logs (chop part old l).1 [] (old = some []) := by
  cases old with
  | none =>
    exact (logs_of_steady fun _ h => absurd h List.not_mem_nil).congr
      (iff_of_false id fun h => by cases h)
  | some v =>
    refine (logs_write part ((v.length : Int) - 1) ((v.length : Int) - 1)).congr ?_
    have hlen := hold v rfl
    rw [Option.some_inj, ← List.length_eq_zero_iff]
    omega

variable (before) in
/-- A match that is stored with its bracket trimmed strays exactly where it ends in a bracket and
its copy is empty. -/
theorem logs_adjust (h : At m l) (hl : Inside l.recordRmatch) (hm : m.adjusted = true)
    (hold : ∀ v ∈ old, v.length < tokenSz) :
    Logs (adjustGreedyMatch before m.part old l.recordRmatch).1 [] (m.Stray old) := by
  have hget := getMatchInto_at h old
  rw [adjustGreedyMatch, bind_of_ok hget, bind_of_ok eot_snd]
  refine ((logs_getMatch hl m.part old).append
    (Logs.calm (calm_eot hl).logs (P := m.Stray old) ?_)).congr (iff_of_eq (false_or _))
  rw [Match.Stray, cut_of_at h hm]
  have hlen := length_copied (m := m) hold
  cases hcopied : m.copied old with
  | none =>
    exact (logs_of_steady fun _ h => absurd h List.not_mem_nil).congr
      (iff_of_false id fun h => by cases h.2)
  | some v =>
    dsimp only
    split
    · next hwrap =>
      have hv : v = [] := by simpa using (Bool.and_eq_true_iff.mp hwrap).2
      refine (logs_write _ _ _).congr (iff_of_true ?_
        ⟨(Bool.and_eq_true_iff.mp hwrap).1, by rw [hv]⟩)
      split <;> decide
    · next hwrap =>
      refine (logs_write _ _ _).congr (iff_of_false (not_not.mpr ⟨Int.natCast_nonneg _, ?_⟩) ?_)
      · have hle : (trimBracket (if l.recordRmatch.eot = true then v
          else v.dropLast)).length ≤ v.length := by
          refine (trimBracket_length_le _).trans ?_
          split
          · exact Nat.le_refl _
          · rw [List.length_dropLast]
            exact Nat.sub_le _ _
        exact Int.ofNat_lt.mpr (hle.trans_lt (hlen v hcopied))
      · rintro ⟨hcut, hnil⟩
        exact hwrap (by rw [hcut, Option.some.inj hnil]; rfl)

/-! ## 4. The parsers -/

/-- What is matched, by component and text. -/
def told (ms : List Match) : List (Part × List Char) := ms.map fun m => (m.part, m.text)

/-- From `l` and `u`, the parser matches what the reading matches, goes on where the reading does,
and leaves in the buffers what the matches leave there, unless it writes out of them. -/
structure Follows (l : Lexer) (u : Uri) (w : Parser Uri)
    (R : List Match × Except Unit (List Char × Unit)) : Prop where
  logs : Logs (w l).1 (told R.1) (StrayAll R.1 u.buffer)
  ok : ∀ x, R.2 = .ok (x, ()) → ∃ l' u', (w l).2 = .ok (l', u') ∧ Inside l' ∧ l'.lookahead = x ∧
    Sized u'.buffer ∧ u'.dontParseUserinfo = u.dontParseUserinfo ∧
    (StrayAll R.1 u.buffer ∨ u'.buffer = keepAll R.1 u.buffer)
  error : R.2 = .error () → ∃ l', (w l).2 = .error (.err l')

variable {u u' : Uri} {w : Parser Uri} {f : Uri → Parser Uri} {r r' : Reading} {x : List Char}
  {R : List Match × Except Unit (List Char × Unit)} {α : Type}

/-- A parser that does nothing follows the reading of nothing. -/
theorem follows_pure (hl : Inside l) (hu : Sized u.buffer) :
    Follows l u (pure u) ([], .ok (l.lookahead, ())) := by
  refine ⟨logs_of_steady fun _ h => absurd h List.not_mem_nil, fun x hx => ?_, fun h => by cases h⟩
  obtain ⟨rfl, -⟩ := Prod.mk.inj (Except.ok.inj hx)
  exact ⟨l, u, rfl, hl, rfl, hu, rfl, .inr rfl⟩

/-- A parser that fails follows a reading that fails, from wherever it is. -/
theorem follows_err (hl : Inside l) : Follows l u err ([], .error ()) :=
  ⟨logs_of_steady (calm_err (α := Uri) hl).logs, fun x hx => (by cases hx), fun _ => ⟨l, rfl⟩⟩

/-- A calm routine in front. -/
theorem Follows.after {w : Parser α} {f : α → Parser Uri} {l' : Lexer} {a : α} (hw : Calm l w)
    (hok : (w l).2 = .ok (l', a)) (h : Inside l' → Follows l' u (f a) R) :
    Follows l u (w >>= f) R := by
  have heq := bind_of_ok (f := f) hok
  replace h := h (hw.ok l' a hok)
  refine ⟨?_, fun x hx => ?_, fun herr => ?_⟩
  · rw [heq]
    exact Logs.calm hw.logs h.logs
  · rw [heq]
    exact h.ok x hx
  · rw [heq]
    exact h.error herr

/-- A calm routine that fails. -/
theorem Follows.stop {w : Parser α} {f : α → Parser Uri} {l' : Lexer} (hw : Calm l w)
    (herr : (w l).2 = .error (.err l')) : Follows l u (w >>= f) ([], .error ()) := by
  have heq := bind_of_error (f := f) herr
  refine ⟨?_, fun x hx => (by cases hx), fun _ => ⟨l', by rw [heq]⟩⟩
  rw [heq]
  exact logs_of_steady hw.logs

/-- **Two parsers follow two readings in a row.** -/
theorem Follows.bind (h : Follows l u w (r x))
    (hf : ∀ l' u', (r x).2 = .ok (l'.lookahead, ()) → (w l).2 = .ok (l', u') → Inside l' →
      Sized u'.buffer → Follows l' u' (f u') (r' l'.lookahead)) :
    Follows l u (w >>= f) ((r >>= fun _ => r') x) := by
  cases hr : (r x).2 with
  | error e =>
    obtain ⟨l', hl'⟩ := h.error hr
    rw [bind_of_error (f := fun _ => r') hr]
    refine ⟨?_, fun y hy => (by cases hy), fun _ => ⟨l', by rw [bind_of_error hl']⟩⟩
    rw [bind_of_error hl']
    exact h.logs
  | ok p =>
    obtain ⟨y, e⟩ := p
    obtain ⟨l', u', hok, hl', rfl, hsized, hopt, hbuffer⟩ := h.ok y hr
    have h' := hf l' u' hr hok hl' hsized
    rw [bind_of_ok (f := fun _ => r') hr]
    refine ⟨?_, fun z hz => ?_, fun herr => ?_⟩
    · rw [bind_of_ok hok, told, List.map_append]
      refine (h.logs.append h'.logs).congr ?_
      rw [strayAll_append]
      rcases hbuffer with hstray | hbuffer
      · exact iff_of_true (.inl hstray) (.inl hstray)
      · rw [hbuffer]
    · obtain ⟨l₂, u₂, hok₂, hl₂, hlook₂, hsized₂, hopt₂, hbuffer₂⟩ := h'.ok z hz
      refine ⟨l₂, u₂, by rw [bind_of_ok hok, hok₂], hl₂, hlook₂, hsized₂, hopt₂.trans hopt, ?_⟩
      rw [strayAll_append, keepAll_append]
      rcases hbuffer with hstray | hbuffer
      · exact .inl (.inl hstray)
      · rw [hbuffer] at hbuffer₂
        exact hbuffer₂.imp_left .inr
    · obtain ⟨l₂, hl₂⟩ := h'.error herr
      exact ⟨l₂, by rw [bind_of_ok hok, hl₂]⟩

/-- The text between the mark and the cursor is the text of the match. -/
theorem taken_of_at (h : At m l) : taken l = m.raw := by
  rw [taken, h.pos, Nat.add_sub_cancel_left, h.text, List.take_left]

/-- Logging a match is the one event of it. -/
theorem found_fst {part : Part} {v : List Char} (h : taken l = v) :
    (found part l).1 = [.found part v] := by
  rw [← h]
  rfl

/-- The cursor behind `v`. -/
theorem at_adv {v : List Char} (part : Part) (h : l.lookahead = v ++ x) :
    At ⟨part, v, false, x⟩ (l.recordLmatch.adv v.length) := ⟨h, rfl⟩

/-- The cursor behind a front of the lookahead is at the end of the match of this front. -/
theorem at_front {v : List Char} (part : Part) (h : v <+: l.lookahead) :
    At ⟨part, v, false, l.lookahead.drop v.length⟩ (l.recordLmatch.adv v.length) :=
  at_adv part (append_drop h).symm

/-- The match is logged and stored, and the parser goes on. -/
theorem follows_store {f : Token → Parser Uri} (h : At m l) (hl : Inside l.recordRmatch)
    (hm : m.adjusted = true) (hraw : m.raw = m.text) (hu : Sized u.buffer)
    (hu' : u'.buffer = keepOne u.buffer m) (hopt : u'.dontParseUserinfo = u.dontParseUserinfo)
    (hf : Follows l.recordRmatch u' (f (m.kept (u.buffer m.part))) R) :
    Follows l.recordRmatch u
      (found m.part >>= fun _ => adjustGreedyMatch before m.part (u.buffer m.part) >>= f)
      (m :: R.1, R.2) := by
  have hfound : (found m.part l.recordRmatch).1 = [.found m.part m.text] :=
    found_fst ((taken_of_at h).trans hraw)
  have hadjust := adjustGreedyMatch_at before h hm (u.buffer m.part)
  have heq : (found m.part >>= fun _ => adjustGreedyMatch before m.part (u.buffer m.part) >>= f)
      l.recordRmatch = ([.found m.part m.text] ++
        ((adjustGreedyMatch before m.part (u.buffer m.part) l.recordRmatch).1 ++
          (f (m.kept (u.buffer m.part)) l.recordRmatch).1),
        (f (m.kept (u.buffer m.part)) l.recordRmatch).2) := by
    rw [bind_of_ok found_snd, bind_of_ok hadjust, hfound]
  refine ⟨?_, fun y hy => ?_, fun herr => ?_⟩
  · rw [heq]
    refine ((logs_found m.part m.text).append
      ((logs_adjust before h hl hm (hu m.part)).append hf.logs)).congr ?_
    rw [hu']
    exact iff_of_eq (false_or _)
  · rw [heq]
    obtain ⟨l₂, u₂, hok₂, hl₂, hlook₂, hsized₂, hopt₂, hbuffer₂⟩ := hf.ok y hy
    refine ⟨l₂, u₂, hok₂, hl₂, hlook₂, hsized₂, hopt₂.trans hopt, ?_⟩
    rw [hu'] at hbuffer₂
    exact hbuffer₂.imp_left .inr
  · rw [heq]
    exact hf.error herr

/-- Storing one match keeps the buffers terminated. -/
theorem sized_of_keepOne (hu : Sized u.buffer) (hu' : u'.buffer = keepOne u.buffer m) :
    Sized u'.buffer := by
  rw [hu']
  have hkeep : Sized (keepAll [m] u.buffer) := sized_keepAll hu
  exact hkeep

variable (before) in
/-- The match is logged and stored, and that is all. -/
theorem follows_last {f : Token → Uri} (h : At m l) (hl : Inside l.recordRmatch)
    (hm : m.adjusted = true) (hraw : m.raw = m.text) (hu : Sized u.buffer)
    (hf : ∀ t, (f t).buffer = Function.update u.buffer m.part t)
    (hopt : ∀ t, (f t).dontParseUserinfo = u.dontParseUserinfo) :
    Follows l.recordRmatch u
      (found m.part >>= fun _ => adjustGreedyMatch before m.part (u.buffer m.part) >>=
        fun t => pure (f t))
      ([m], .ok (m.behind, ())) := by
  have hu' : (f (m.kept (u.buffer m.part))).buffer = keepOne u.buffer m := hf _
  have hlast := follows_pure hl (sized_of_keepOne hu hu')
  rw [lookahead_recordRmatch, h.lookahead] at hlast
  exact follows_store (f := fun t => pure (f t)) h hl hm hraw hu hu' (hopt _) hlast

/-- The match is logged and copied, and the copy is cut or left as it is. -/
theorem follows_copied {f : Token → Uri} {g : Token → Parser Token} (h : At m l)
    (hl : Inside l.recordRmatch) (hraw : m.raw = m.text) (hu : Sized u.buffer)
    (hg : (g (m.copied (u.buffer m.part)) l.recordRmatch).2 =
      .ok (l.recordRmatch, m.kept (u.buffer m.part)))
    (hlogs : Logs (g (m.copied (u.buffer m.part)) l.recordRmatch).1 [] (m.Stray (u.buffer m.part)))
    (hf : ∀ t, (f t).buffer = Function.update u.buffer m.part t)
    (hopt : ∀ t, (f t).dontParseUserinfo = u.dontParseUserinfo) :
    Follows l.recordRmatch u
      (found m.part >>= fun _ => getMatchInto m.part (u.buffer m.part) >>= fun t =>
        g t >>= fun t => pure (f t))
      ([m], .ok (m.behind, ())) := by
  have hget := getMatchInto_at h (u.buffer m.part)
  have hfound : (found m.part l.recordRmatch).1 = [.found m.part m.text] :=
    found_fst ((taken_of_at h).trans hraw)
  have heq : (found m.part >>= fun _ => getMatchInto m.part (u.buffer m.part) >>= fun t =>
      g t >>= fun t => (pure (f t) : Parser Uri)) l.recordRmatch =
      ([.found m.part m.text] ++ ((getMatchInto m.part (u.buffer m.part) l.recordRmatch).1 ++
        ((g (m.copied (u.buffer m.part)) l.recordRmatch).1 ++ [])),
        .ok (l.recordRmatch, f (m.kept (u.buffer m.part)))) := by
    rw [bind_of_ok found_snd, bind_of_ok hget, bind_of_ok hg, hfound]
    rfl
  have hbuffer : (f (m.kept (u.buffer m.part))).buffer = keepOne u.buffer m := hf _
  refine ⟨?_, fun y hy => ?_, fun h => ?_⟩
  · rw [heq]
    refine ((logs_found m.part m.text).append ((logs_getMatch hl m.part (u.buffer m.part)).append
      (hlogs.append (logs_of_steady fun _ h => absurd h List.not_mem_nil)))).congr ?_
    rw [strayAll_singleton]
    simp
  · obtain ⟨rfl, -⟩ := Prod.mk.inj (Except.ok.inj hy)
    exact ⟨_, _, congrArg Prod.snd heq, hl, h.lookahead, sized_of_keepOne hu hbuffer,
      hopt _, .inr hbuffer⟩
  · cases h

/-- The port, where there is a `:` for it: the digits behind it, and the rest of the authority is
left to the path. -/
theorem follows_parsePort (hl : Inside l) (hu : Sized u.buffer) :
    Follows l u (parsePortOpt before u) (Reading.portOpt l.lookahead) := by
  refine Follows.after (calm_peek hl) peek_snd fun hl => ?_
  rw [Reading.portOpt, get_bind]
  by_cases hpeek : l.peek = ':'
  · have hhead := (peek_iff (by decide)).mp hpeek
    have hnext := nextOrErr_snd.trans (nextOrErr_cons (exists_of_head hhead))
    have hdrop : (l.adv 1).lookahead = l.lookahead.tail := lookahead_cons_adv (exists_of_head hhead)
    have hwhile : (l.adv 1).recordLmatch.nextWhile portChar =
        (l.adv 1).recordLmatch.adv (l.lookahead.tail.takeWhile portChar).length := by
      rw [nextWhile_eq, lookahead_recordLmatch, hdrop]
    rw [if_pos hpeek, if_pos hhead, parsePort]
    refine Follows.after (calm_peek hl) peek_snd fun hl => ?_
    rw [if_neg (not_not.mpr hpeek)]
    refine Follows.after (calm_nextOrErr hl) hnext fun hl => ?_
    refine Follows.after (calm_recordLmatch hl) recordLmatch_snd fun hl => ?_
    refine Follows.after (calm_nextWhile hl) (nextWhile_snd rfl) fun hl => ?_
    refine Follows.after (calm_recordRmatch hl) recordRmatch_snd fun hl => ?_
    rw [hwhile] at hl ⊢
    have hat := at_front (l := l.adv 1) .port
      (hdrop ▸ List.takeWhile_prefix portChar : l.lookahead.tail.takeWhile portChar <+:
        (l.adv 1).lookahead)
    have hlast := follows_last before (f := fun t => { u with port := t }) hat hl rfl rfl hu
      (fun t => funext fun k => by cases k <;> rfl) fun _ => rfl
    rw [hdrop] at hlast
    rw [Reading.skip_take, List.drop_one]
    exact hlast
  · rw [if_neg hpeek, if_neg fun h => hpeek ((peek_iff (by decide)).mpr h)]
    exact follows_pure hl hu

/-- A query or a fragment, where its first character is there for it.  The two differ in what is
done with the match, which is asked for as `h`. -/
theorem follows_parseSuffix {first : Char} {part : Part} {w : Parser Uri} (hnul : first ≠ '\x00')
    (hl : Inside l) (hu : Sized u.buffer) (h : ∀ l' : Lexer, Inside l'.recordRmatch →
      ∀ m : Match, At m l' → m.part = part → m.literal = false →
        Follows l'.recordRmatch u w ([m], .ok (m.behind, ()))) :
    Follows l u (peek >>= fun c => if c = first then parseQueryText first >>= fun _ => w
      else pure u) (Reading.suffix first part l.lookahead) := by
  refine Follows.after (calm_peek hl) peek_snd fun hl => ?_
  rw [Reading.suffix, get_bind]
  by_cases hpeek : l.peek = first
  · have hhead := (peek_iff hnul).mp hpeek
    have hdrop : (l.adv 1).lookahead = l.lookahead.tail := lookahead_cons_adv (exists_of_head hhead)
    have htext : Uri.parseQueryText first l = .ok ((l.adv 1).recordLmatch.adv
        (front isQueryChar l.lookahead.tail).length).recordRmatch := by
      rw [Uri.parseQueryText, if_neg (not_not.mpr hpeek),
        nextOrErr_cons (exists_of_head hhead), ok_bind]
      dsimp only
      rw [matchWhile_front reads_query, lookahead_recordLmatch, hdrop]
      rfl
    have hok := parseQueryText_snd.trans (congrArg moved htext)
    rw [if_pos hpeek, if_pos hhead]
    refine Follows.after (calm_parseQueryText hl) hok fun hl => ?_
    have hat := at_front (l := l.adv 1) part
      (hdrop ▸ front_isPrefix _ _ : front isQueryChar l.lookahead.tail <+: (l.adv 1).lookahead)
    have hlast := h _ hl _ hat rfl rfl
    rw [hdrop] at hlast
    rw [Reading.skip_take, List.drop_one]
    exact hlast
  · rw [if_neg hpeek, if_neg fun h => hpeek ((peek_iff hnul).mpr h)]
    exact follows_pure hl hu

/-- The query, trimmed like the components before it. -/
theorem follows_parseQueryOpt (hl : Inside l) (hu : Sized u.buffer) :
    Follows l u (parseQueryOpt before u) (Reading.suffix '?' .query l.lookahead) := by
  refine follows_parseSuffix (by decide) hl hu fun l' hl' m hat hpart hliteral => ?_
  obtain ⟨part, v, literal, x⟩ := m
  obtain rfl : part = .query := hpart
  obtain rfl : literal = false := hliteral
  exact follows_last before (f := fun t => { u with query := t }) hat hl' rfl rfl hu
    (fun t => funext fun k => by cases k <;> rfl) fun _ => rfl

/-- The fragment, which is not trimmed. -/
theorem follows_parseFragmentOpt (hl : Inside l) (hu : Sized u.buffer) :
    Follows l u (parseFragmentOpt u) (Reading.suffix '#' .fragment l.lookahead) := by
  refine follows_parseSuffix (by decide) hl hu fun l' hl' m hat hpart hliteral => ?_
  obtain ⟨part, v, literal, x⟩ := m
  obtain rfl : part = .fragment := hpart
  obtain rfl : literal = false := hliteral
  refine follows_copied (f := fun t => { u with fragment := t }) (g := pure) hat hl' rfl hu rfl ?_
    (fun t => funext fun k => by cases k <;> rfl) fun _ => rfl
  exact (logs_of_steady fun _ h => absurd h List.not_mem_nil).congr
    (iff_of_false id fun h => absurd h.1 Bool.false_ne_true)

/-- The path behind an authority: segments, each with its slash, or nothing at all. -/
theorem follows_parseAbempty (hl : Inside l) (hu : Sized u.buffer) :
    Follows l u (parseAbempty before u) (Reading.abempty l.lookahead) := by
  have hpath := expectPathAbempty_snd.trans (congrArg moved (expectPathAbempty_front
    (l := l.recordLmatch)))
  refine Follows.after (calm_recordLmatch hl) recordLmatch_snd fun hl => ?_
  refine Follows.after (calm_expectPathAbempty hl) hpath fun hl => ?_
  refine Follows.after (calm_recordRmatch hl) recordRmatch_snd fun hl => ?_
  exact follows_last before (f := fun t => { u with path := t })
    (at_front .path (segments_isPrefix l.lookahead)) hl rfl rfl hu
    (fun t => funext fun k => by cases k <;> rfl) fun _ => rfl

/-- A path without an authority, with its leading slash or without one. -/
theorem follows_parsePath {slash : List Char} (hl : Inside l) (hu : Sized u.buffer)
    (hslash : slash = ['/'] ∧ l.lookahead.head? = some '/' ∨ slash = [] ∧
      l.lookahead.head? ≠ some '/') :
    Follows l u (parsePath before u) (Reading.rootless slash l.lookahead) := by
  have hskip : Uri.skipSlash l.recordLmatch = .ok (l.recordLmatch.adv slash.length) := by
    rw [Uri.skipSlash]
    rcases hslash with ⟨rfl, hhead⟩ | ⟨rfl, hhead⟩
    · rw [if_pos ((peek_iff (l := l.recordLmatch) (by decide)).mpr hhead),
        nextOrErr_cons (l := l.recordLmatch) (exists_of_head hhead)]
      rfl
    · rw [if_neg fun h => hhead ((peek_iff (l := l.recordLmatch) (by decide)).mp h)]
      rfl
  have hprefix : slash <+: l.lookahead := by
    rcases hslash with ⟨rfl, hhead⟩ | ⟨rfl, -⟩
    · rw [exists_of_head hhead]
      exact List.cons_prefix_cons.mpr ⟨rfl, List.nil_prefix⟩
    · exact List.nil_prefix
  have hy : (l.recordLmatch.adv slash.length).lookahead = l.lookahead.drop slash.length :=
    lookahead_adv (l := l.recordLmatch) _
  refine Follows.after (calm_recordLmatch hl) recordLmatch_snd fun hl => ?_
  refine Follows.after (calm_skipSlash hl) (skipSlash_snd.trans (congrArg moved hskip)) fun hl => ?_
  rw [Reading.rootless, get_bind]
  have hmatch := reads_pchar (l.recordLmatch.adv slash.length)
  rw [hy] at hmatch
  by_cases hs : starts isPchar (l.lookahead.drop slash.length) = true
  · have hnz : Uri.expectSegmentNz (l.recordLmatch.adv slash.length) =
      .ok ((l.recordLmatch.adv slash.length).adv
        (front isPchar (l.lookahead.drop slash.length)).length) := by
      have hloop := doWhile_starts reads_pchar (l := l.recordLmatch.adv slash.length) (hy ▸ hs)
      rw [hy] at hloop
      rw [Uri.expectSegmentNz, hmatch, hs]
      exact hloop
    rw [if_pos hs]
    refine Follows.after (calm_expectSegmentNz hl) (expectSegmentNz_snd.trans (congrArg moved hnz))
      fun hl => ?_
    refine Follows.after (calm_expectPathAbempty hl)
      (expectPathAbempty_snd.trans (congrArg moved expectPathAbempty_front)) fun hl => ?_
    refine Follows.after (calm_recordRmatch hl) recordRmatch_snd fun hl => ?_
    have hend : ((l.recordLmatch.adv slash.length).adv
        (front isPchar (l.lookahead.drop slash.length)).length).adv (segments ((l.recordLmatch.adv
          slash.length).adv (front isPchar
          (l.lookahead.drop slash.length)).length).lookahead).length =
        l.recordLmatch.adv (slash ++ (front isPchar (l.lookahead.drop slash.length) ++ segments
          ((l.lookahead.drop slash.length).drop
            (front isPchar (l.lookahead.drop slash.length)).length))).length := by
      rw [lookahead_adv, hy, adv_adv, adv_adv, List.length_append, List.length_append]
    have hsegs := (List.prefix_append_right_inj (front isPchar (l.lookahead.drop slash.length))).mpr
      (segments_isPrefix ((l.lookahead.drop slash.length).drop
        (front isPchar (l.lookahead.drop slash.length)).length))
    rw [append_drop (front_isPrefix _ _)] at hsegs
    have hall := (List.prefix_append_right_inj slash).mpr hsegs
    rw [append_drop hprefix] at hall
    rw [hend] at hl ⊢
    exact follows_last before (f := fun t => { u with path := t }) (at_front .path hall) hl
      rfl rfl hu (fun t => funext fun k => by cases k <;> rfl) fun _ => rfl
  · have hnz : Uri.expectSegmentNz (l.recordLmatch.adv slash.length) = .error (.err
        ((l.recordLmatch.adv slash.length).adv (ahead (l.lookahead.drop slash.length)))) := by
      rw [Uri.expectSegmentNz, hmatch, Bool.eq_false_iff.mpr hs]
    rw [if_neg hs]
    exact Follows.stop (calm_expectSegmentNz hl) (expectSegmentNz_snd.trans (congrArg moved hnz))

/-- A character that has to be there is passed over, and the parser fails where the reading does. -/
theorem follows_expectChar {c : Char} (hnul : c ≠ '\x00') (hl : Inside l)
    (h : ∀ l' : Lexer, Inside l' → l'.lookahead = l.lookahead.drop 1 → Follows l' u w
      (r' l'.lookahead)) :
    Follows l u (expectChar c >>= fun _ => w) ((Reading.char c >>= fun _ => r') l.lookahead) := by
  by_cases hhead : l.lookahead.head? = some c
  · have hcons := exists_of_head hhead
    have hread : Reading.char c l.lookahead = ([], .ok (l.lookahead.drop 1, ())) := by
      rw [Reading.char, get_bind, if_pos hhead, Reading.skip_apply]
    have hok := expectChar_snd.trans (congrArg moved (expectChar_eq hcons))
    have heq := bind_of_ok (f := fun _ => r') (congrArg Prod.snd hread)
    rw [heq, hread]
    refine Follows.after (calm_expectChar hl) hok fun hl => ?_
    have hlook : (l.adv 1).lookahead = l.lookahead.drop 1 := lookahead_adv 1
    have hnext := h (l.adv 1) hl hlook
    rw [hlook] at hnext
    exact hnext
  · have hread : Reading.char c l.lookahead = ([], .error ()) := by
      rw [Reading.char, get_bind, if_neg hhead]
      rfl
    have herr : Uri.expectChar l c = .error (.err l) := by
      rw [Uri.expectChar, if_neg fun hpeek => hhead ((peek_iff hnul).mp hpeek)]
    rw [bind_of_error (f := fun _ => r') (congrArg Prod.snd hread), hread]
    exact Follows.stop (calm_expectChar hl) (expectChar_snd.trans (congrArg moved herr))

/-- The scheme: a letter, and then letters, digits, `+`, `-` and `.`, up to the `:` that has to
follow. -/
theorem follows_parseScheme (hl : Inside l) (hu : Sized u.buffer) :
    Follows l u (parseScheme u) (Reading.scheme l.lookahead) := by
  refine Follows.after (calm_peek hl) peek_snd fun hl => ?_
  refine Follows.after (calm_recordLmatch hl) recordLmatch_snd fun hl => ?_
  rw [Reading.scheme, get_bind]
  have halpha : l.lookahead.head?.any Char.isAlpha = l.peek.isAlpha := by
    cases hx : l.lookahead with
    | nil =>
      rw [peek_of_nil hx]
      rfl
    | cons c x =>
      rw [peek_of_cons hx]
      rfl
  rw [halpha]
  by_cases ha : l.peek.isAlpha = true
  · obtain ⟨x, hx⟩ := exists_cons (l := l) rfl fun hnul => by
      rw [hnul] at ha
      exact absurd ha (by decide)
    have hcons : l.recordLmatch.lookahead = l.peek :: x := hx
    have hwhile : (l.recordLmatch.adv 1).nextWhile schemeChar =
        l.recordLmatch.adv (l.lookahead.takeWhile schemeChar).length := by
      rw [nextWhile_eq, lookahead_cons_adv hcons, adv_adv, hx,
        List.takeWhile_cons_of_pos (schemeChar_of_isAlpha ha), List.length_cons, Nat.add_comm]
    rw [if_neg (by simp [ha]), if_pos ha]
    refine Follows.after (calm_nextOrErr hl) (nextOrErr_snd.trans (nextOrErr_cons hcons))
      fun hl => ?_
    refine Follows.after (calm_nextWhile hl) (nextWhile_snd rfl) fun hl => ?_
    refine Follows.after (calm_recordRmatch hl) recordRmatch_snd fun hl => ?_
    rw [hwhile] at hl ⊢
    have hat := at_front .scheme (List.takeWhile_prefix schemeChar (l := l.lookahead))
    refine follows_copied (f := fun t => { u with scheme := t }) hat hl rfl hu chop_snd ?_
      (fun t => funext fun k => by cases k <;> rfl) fun _ => rfl
    exact (logs_chop .scheme (length_copied (hu .scheme))).congr
      ⟨fun h => ⟨rfl, h⟩, fun h => h.2⟩
  · rw [if_pos (by simpa using ha), if_neg ha]
    exact follows_err hl

/-- What the three cases of a host match, and where they leave the cursor. -/
structure HostFound (l : Lexer) (w : Parser α) (m : Match) : Prop where
  logs : Logs (w l).1 [(.host, m.text)] False
  ok : ∃ l' a, (w l).2 = .ok (l', a) ∧ At m l' ∧ Inside l'

/-- A calm routine in front. -/
theorem HostFound.after {β : Type} {w : Parser α} {f : α → Parser β} {l' : Lexer}
    {a : α} (hw : Calm l w)
    (hok : (w l).2 = .ok (l', a)) (h : Inside l' → HostFound l' (f a) m) :
    HostFound l (w >>= f) m := by
  have heq := bind_of_ok (f := f) hok
  replace h := h (hw.ok l' a hok)
  refine ⟨?_, ?_⟩
  · rw [heq]
    exact Logs.calm hw.logs h.logs
  · rw [heq]
    exact h.ok

/-- What the host is does not depend on the flags that are returned with it. -/
theorem HostFound.pure {β : Type} {w : Parser α} (h : HostFound l w m) (b : β) :
    HostFound l (w >>= fun _ => Pure.pure b) m := by
  obtain ⟨l', a, hok, hat, hl'⟩ := h.ok
  have heq := bind_of_ok (f := fun _ => (Pure.pure b : Parser β)) hok
  refine ⟨?_, l', b, ?_, hat, hl'⟩
  · rw [heq, pure_apply, List.append_nil]
    exact h.logs
  · rw [heq]
    rfl

/-- The host is what was passed over. -/
theorem hostFound_last (h : At m l) (hl : Inside l) (hraw : m.raw = m.text) :
    HostFound l (found .host) m := by
  refine ⟨?_, l, (), rfl, h, hl⟩
  rw [found_fst ((taken_of_at h).trans hraw)]
  exact logs_found .host m.text

/-- The loop inside the brackets passes over the characters of a literal, and stops at the closing
bracket. -/
theorem literal_loop (hhead : l.lookahead.head? = some '[') :
    Uri.whileMatch Uri.matchLiteralChar ((l.adv 1).recordLmatch.slen + 1) (l.adv 1).recordLmatch =
      .ok ((l.adv 1).recordLmatch.adv (front isPchar l.lookahead.tail).length) := by
  have hdrop := lookahead_cons_adv (exists_of_head hhead)
  rw [matchWhile_front reads_literal, lookahead_recordLmatch, hdrop]

/-- The parser of an IP-literal, at its opening bracket. -/
theorem hostFound_literal (hl : Inside l) (hhead : l.lookahead.head? = some '[')
    (hclose : (l.lookahead.tail.drop (front isPchar l.lookahead.tail).length).head? = some ']') :
    HostFound l parseIpliteral ⟨.host, front isPchar l.lookahead.tail, true,
      l.lookahead.tail.drop ((front isPchar l.lookahead.tail).length + 1)⟩ := by
  have hpeek : l.peek = '[' := (peek_iff (by decide)).mpr hhead
  have hdrop : (l.adv 1).recordLmatch.lookahead = l.lookahead.tail := lookahead_cons_adv
    (exists_of_head hhead)
  have hloop := (matchWhile_snd fun _ => matchLiteralChar_snd).trans
    (congrArg moved (literal_loop hhead))
  have hend : ((l.adv 1).recordLmatch.adv (front isPchar l.lookahead.tail).length).lookahead =
      l.lookahead.tail.drop (front isPchar l.lookahead.tail).length := by
    rw [lookahead_adv, hdrop]
  have hclosing : l.lookahead.tail.drop (front isPchar l.lookahead.tail).length =
      ']' :: l.lookahead.tail.drop ((front isPchar l.lookahead.tail).length + 1) := by
    rw [exists_of_head hclose, List.tail_drop]
  have hsplit : l.lookahead.tail = (front isPchar l.lookahead.tail ++ [']']) ++
      l.lookahead.tail.drop ((front isPchar l.lookahead.tail).length + 1) := by
    have happ := append_drop (front_isPrefix isPchar l.lookahead.tail)
    rw [hclosing] at happ
    rw [List.append_assoc]
    exact happ.symm
  have htaken : taken ((l.adv 1).recordLmatch.adv (front isPchar l.lookahead.tail).length) =
      front isPchar l.lookahead.tail :=
    taken_of_at (at_adv (l := l.adv 1) .host (hdrop.trans (append_drop (front_isPrefix _ _)).symm))
  have hat : At ⟨.host, front isPchar l.lookahead.tail, true,
      l.lookahead.tail.drop ((front isPchar l.lookahead.tail).length + 1)⟩
      (((l.adv 1).recordLmatch.adv (front isPchar l.lookahead.tail).length).adv 1) := by
    refine ⟨hdrop.trans hsplit, ?_⟩
    rw [adv_adv, adv_pos, Match.raw, if_pos rfl, List.length_append]
    rfl
  refine HostFound.after (calm_peek hl) peek_snd fun hl => ?_
  rw [if_neg (not_not.mpr hpeek)]
  refine HostFound.after (calm_nextOrErr hl)
    (nextOrErr_snd.trans (nextOrErr_cons (exists_of_head hhead))) fun hl => ?_
  refine HostFound.after (calm_recordLmatch hl) recordLmatch_snd fun hl => ?_
  refine HostFound.after (calm_matchWhile calm_matchLiteralChar hl) hloop fun hl => ?_
  refine HostFound.after (calm_peek hl) peek_snd fun hl => ?_
  rw [if_neg (not_not.mpr ((peek_iff (by decide)).mpr (hend ▸ hclose)))]
  have hnext := nextOrErr_snd.trans (nextOrErr_cons (hend.trans hclosing))
  have hcalm := calm_nextOrErr hl
  have heq : (found .host >>= fun _ => nextOrErr >>= fun _ => (pure () : Parser Unit))
      ((l.adv 1).recordLmatch.adv (front isPchar l.lookahead.tail).length) =
      ([.found .host (front isPchar l.lookahead.tail)] ++ ((nextOrErr ((l.adv 1).recordLmatch.adv
        (front isPchar l.lookahead.tail).length)).1 ++ []),
        .ok (((l.adv 1).recordLmatch.adv (front isPchar l.lookahead.tail).length).adv 1, ())) := by
    rw [bind_of_ok found_snd, bind_of_ok hnext, found_fst htaken]
    rfl
  refine ⟨?_, _, (), congrArg Prod.snd heq, hat, hcalm.ok _ _ hnext⟩
  rw [heq, List.append_nil]
  exact ((logs_found .host _).append (logs_of_steady hcalm.logs)).congr (iff_of_eq (or_false _))

/-- A literal whose bracket does not close makes the parser fail. -/
theorem parseIpliteral_err (hhead : l.lookahead.head? = some '[')
    (hopen : (l.lookahead.tail.drop (front isPchar l.lookahead.tail).length).head? ≠ some ']') :
    ∃ l', Uri.parseIpliteral l = .error (.err l') := by
  have hpeek : l.peek = '[' := (peek_iff (by decide)).mpr hhead
  have hdrop : (l.adv 1).recordLmatch.lookahead = l.lookahead.tail := lookahead_cons_adv
    (exists_of_head hhead)
  have hend : ((l.adv 1).recordLmatch.adv (front isPchar l.lookahead.tail).length).lookahead =
      l.lookahead.tail.drop (front isPchar l.lookahead.tail).length := by
    rw [lookahead_adv, hdrop]
  rw [Uri.parseIpliteral, if_neg (not_not.mpr hpeek),
    nextOrErr_cons (exists_of_head hhead), ok_bind]
  dsimp only
  rw [literal_loop hhead, ok_bind, if_pos fun h => hopen (hend ▸ (peek_iff (by decide)).mp h)]
  exact ⟨_, rfl⟩

/-- On its way to the failure, the parser of an IP-literal is calm. -/
theorem calm_parseIpliteral (hl : Inside l) (hhead : l.lookahead.head? = some '[')
    (hopen : (l.lookahead.tail.drop (front isPchar l.lookahead.tail).length).head? ≠ some ']') :
    Calm l parseIpliteral := by
  have hpeek : l.peek = '[' := (peek_iff (by decide)).mpr hhead
  have hdrop : (l.adv 1).recordLmatch.lookahead = l.lookahead.tail := lookahead_cons_adv
    (exists_of_head hhead)
  have hend : ((l.adv 1).recordLmatch.adv (front isPchar l.lookahead.tail).length).lookahead =
      l.lookahead.tail.drop (front isPchar l.lookahead.tail).length := by
    rw [lookahead_adv, hdrop]
  refine (calm_peek hl).bind fun l₁ c h₁ hl => ?_
  obtain ⟨rfl, rfl⟩ := Prod.mk.inj (Except.ok.inj (peek_snd.symm.trans h₁))
  rw [if_neg (not_not.mpr hpeek)]
  refine (calm_nextOrErr hl).bind fun l₂ c h₂ hl => ?_
  rw [nextOrErr_snd, nextOrErr_cons (exists_of_head hhead)] at h₂
  obtain ⟨rfl, -⟩ := Prod.mk.inj (Except.ok.inj h₂)
  refine (calm_recordLmatch hl).bind fun l₃ c h₃ hl => ?_
  obtain ⟨rfl, -⟩ := Prod.mk.inj (Except.ok.inj (recordLmatch_snd.symm.trans h₃))
  refine (calm_matchWhile calm_matchLiteralChar hl).bind fun l₄ c h₄ hl => ?_
  rw [matchWhile_snd fun _ => matchLiteralChar_snd, literal_loop hhead] at h₄
  obtain ⟨rfl, -⟩ := Prod.mk.inj (Except.ok.inj h₄)
  refine (calm_peek hl).bind fun l₅ c h₅ hl => ?_
  obtain ⟨rfl, rfl⟩ := Prod.mk.inj (Except.ok.inj (peek_snd.symm.trans h₅))
  rw [if_pos fun h => hopen (hend ▸ (peek_iff (by decide)).mp h)]
  exact calm_err hl

/-- The digits and dots of an address store nothing, they are copied with the host. -/
theorem calm_parseIpv4address (hl : Inside l) : Calm l parseIpv4address :=
  (calm_nextOrErr hl).bind fun _ _ _ hl' => calm_nextWhile hl'

/-- The host that is found is stored. -/
theorem follows_host (h : HostFound l (parseHostCases u.flags) m) (hpart : m.part = .host)
    (hu : Sized u.buffer) :
    Follows l u (parseHostCases u.flags >>= fun flags => recordRmatch >>= fun _ =>
      adjustGreedyMatch before .host u.host >>= fun host => pure { u with flags, host })
      ([m], .ok (m.behind, ())) := by
  obtain ⟨part, v, literal, x⟩ := m
  obtain rfl : part = .host := hpart
  obtain ⟨l', flags, hok, hat, hl'⟩ := h.ok
  have hcalm := calm_recordRmatch hl'
  have hl'' := hcalm.ok _ _ recordRmatch_snd
  have hadjust := adjustGreedyMatch_at before hat rfl u.host
  have heq : (parseHostCases u.flags >>= fun flags => recordRmatch >>= fun _ =>
      adjustGreedyMatch before .host u.host >>= fun host =>
      (pure { u with flags, host } : Parser Uri)) l =
      ((parseHostCases u.flags l).1 ++ ((recordRmatch l').1 ++
        ((adjustGreedyMatch before .host u.host l'.recordRmatch).1 ++ [])),
        .ok (l'.recordRmatch,
          { u with flags, host := Match.kept ⟨.host, v, literal, x⟩ u.host })) := by
    rw [bind_of_ok hok, bind_of_ok recordRmatch_snd, bind_of_ok hadjust]
    rfl
  have hbuffer : ({ u with flags, host := Match.kept ⟨.host, v, literal, x⟩ u.host } : Uri).buffer =
      keepOne u.buffer ⟨.host, v, literal, x⟩ := funext fun k => by cases k <;> rfl
  refine ⟨?_, fun y hy => ?_, fun h => by cases h⟩
  · rw [heq, List.append_nil]
    have hlogs := logs_adjust before hat hl'' rfl (hu .host)
    refine (h.logs.append (Logs.calm hcalm.logs hlogs)).congr ?_
    rw [strayAll_singleton]
    exact iff_of_eq (false_or _)
  · obtain ⟨rfl, -⟩ := Prod.mk.inj (Except.ok.inj hy)
    exact ⟨_, _, congrArg Prod.snd heq, hl'', hat.lookahead, sized_of_keepOne hu hbuffer,
      rfl, .inr hbuffer⟩

/-! The cases of a host, by what the cursor is on where it starts. -/

section HostCases

variable {flags : UriFlags}

/-- The first character of a host is that of the lookahead. -/
theorem peek_recordLmatch_isDigit :
    l.lookahead.head?.any Char.isDigit = l.recordLmatch.peek.isDigit := by
  cases hx : l.lookahead with
  | nil =>
    rw [peek_of_nil (l := l.recordLmatch) hx]
    rfl
  | cons c x =>
    rw [peek_of_cons (l := l.recordLmatch) hx]
    rfl

/-- The matcher of names at the start of a host. -/
theorem matchUps_host : (matchUps l.recordLmatch).2 =
    answer (starts isNameChar l.lookahead, l.recordLmatch.adv (ahead l.lookahead)) := by
  have hups := reads_ups l.recordLmatch
  rw [lookahead_recordLmatch] at hups
  exact matchUps_snd.trans (congrArg answer hups)

/-- Behind that matcher is what it has not passed over. -/
theorem lookahead_host : (l.recordLmatch.adv (ahead l.lookahead)).lookahead =
    l.lookahead.drop (ahead l.lookahead) :=
  lookahead_adv (l := l.recordLmatch) _

/-- A host that starts with a digit: an address, or what is taken for one. -/
theorem hostFound_address (hl : Inside l.recordLmatch) (hd : l.recordLmatch.peek.isDigit = true) :
    HostFound l.recordLmatch (parseHostCases flags)
      ⟨.host, l.lookahead.take 1 ++ l.lookahead.tail.takeWhile ipv4Char, false,
        l.lookahead.drop (l.lookahead.take 1 ++ l.lookahead.tail.takeWhile ipv4Char).length⟩ := by
  obtain ⟨x, hx⟩ := exists_cons (l := l.recordLmatch) rfl fun hnul => by
    rw [hnul] at hd
    exact absurd hd (by decide)
  have hx' : l.lookahead = l.recordLmatch.peek :: x := hx
  have hprefix : l.lookahead.take 1 ++ l.lookahead.tail.takeWhile ipv4Char <+: l.lookahead := by
    rw [hx']
    exact List.cons_prefix_cons.mpr ⟨rfl, List.takeWhile_prefix _⟩
  have hipv4 : Uri.parseIpv4address l.recordLmatch = .ok (l.recordLmatch.adv
      (l.lookahead.take 1 ++ l.lookahead.tail.takeWhile ipv4Char).length) := by
    rw [Uri.parseIpv4address, nextOrErr_cons hx, ok_bind]
    dsimp only
    rw [nextWhile_eq, lookahead_cons_adv hx, adv_adv, hx', List.length_append, List.tail_cons]
    rfl
  refine HostFound.after (calm_peek hl) peek_snd fun hl => ?_
  rw [if_pos hd]
  refine HostFound.after (calm_parseIpv4address hl)
    (parseIpv4address_snd.trans (congrArg moved hipv4)) fun hl => ?_
  exact (hostFound_last (at_front .host hprefix) hl rfl).pure _

/-- A host that starts with a character of a name, or an escape. -/
theorem hostFound_name (hl : Inside l.recordLmatch) (hd : ¬ l.recordLmatch.peek.isDigit = true)
    (hs : starts isNameChar l.lookahead = true) :
    HostFound l.recordLmatch (parseHostCases flags)
      ⟨.host, front isNameChar l.lookahead, false,
        l.lookahead.drop (front isNameChar l.lookahead).length⟩ := by
  have hloop : Uri.parseRegname (l.recordLmatch.adv (ahead l.lookahead)) =
      .ok (l.recordLmatch.adv (front isNameChar l.lookahead).length) :=
    doWhile_starts reads_ups (l := l.recordLmatch) hs
  refine HostFound.after (calm_peek hl) peek_snd fun hl => ?_
  rw [if_neg hd]
  refine HostFound.after (calm_matchUps hl) matchUps_host fun hl => ?_
  rw [if_pos hs]
  refine HostFound.after (calm_doWhile calm_matchUps hl)
    ((doWhile_snd fun _ => matchUps_snd).trans (congrArg moved hloop)) fun hl => ?_
  exact (hostFound_last (at_front .host (front_isPrefix _ _)) hl rfl).pure _

/-- A literal whose bracket is closed. -/
theorem hostFound_brackets (hl : Inside l.recordLmatch) (hd : ¬ l.recordLmatch.peek.isDigit = true)
    (hs : ¬ starts isNameChar l.lookahead = true)
    (hhead : (l.lookahead.drop (ahead l.lookahead)).head? = some '[') {x : List Char}
    (hx : x = l.lookahead.drop (ahead l.lookahead + 1))
    (hclose : (x.drop (front isPchar x).length).head? = some ']') :
    HostFound l.recordLmatch (parseHostCases flags)
      ⟨.host, front isPchar x, true, x.drop ((front isPchar x).length + 1)⟩ := by
  have hpeek : (l.recordLmatch.adv (ahead l.lookahead)).peek = '[' :=
    (peek_iff (by decide)).mpr (lookahead_host ▸ hhead)
  have htail : (l.recordLmatch.adv (ahead l.lookahead)).lookahead.tail = x := by
    rw [lookahead_host, List.tail_drop, hx]
  refine HostFound.after (calm_peek hl) peek_snd fun hl => ?_
  rw [if_neg hd]
  refine HostFound.after (calm_matchUps hl) matchUps_host fun hl => ?_
  rw [if_neg hs]
  refine HostFound.after (calm_peek hl) peek_snd fun hl => ?_
  rw [if_pos hpeek]
  subst htail
  exact (hostFound_literal hl ((congrArg List.head? lookahead_host).trans hhead) hclose).pure _

/-- A literal whose bracket is open stops the parser, with nothing logged but work on the lexer. -/
theorem follows_open (hl : Inside l.recordLmatch) (hd : ¬ l.recordLmatch.peek.isDigit = true)
    (hs : ¬ starts isNameChar l.lookahead = true)
    (hhead : (l.lookahead.drop (ahead l.lookahead)).head? = some '[') {x : List Char}
    (hx : x = l.lookahead.drop (ahead l.lookahead + 1))
    (hopen : (x.drop (front isPchar x).length).head? ≠ some ']') (f : UriFlags → Parser Uri) :
    Follows l.recordLmatch u (parseHostCases flags >>= f) ([], .error ()) := by
  have hpeek : (l.recordLmatch.adv (ahead l.lookahead)).peek = '[' :=
    (peek_iff (by decide)).mpr (lookahead_host ▸ hhead)
  have htail : (l.recordLmatch.adv (ahead l.lookahead)).lookahead.tail = x := by
    rw [lookahead_host, List.tail_drop, hx]
  have hhead' := (congrArg List.head? lookahead_host).trans hhead
  subst htail
  have hups := reads_ups l.recordLmatch
  rw [lookahead_recordLmatch] at hups
  obtain ⟨l', herr⟩ := parseIpliteral_err hhead' hopen
  have hcases : Uri.parseHostCases l.recordLmatch flags = .error (.err l') := by
    rw [Uri.parseHostCases, if_neg hd, hups, Bool.eq_false_iff.mpr hs]
    dsimp only
    rw [if_pos hpeek, herr]
    rfl
  refine Follows.stop ?_ (parseHostCases_snd.trans hcases)
  refine (calm_peek hl).bind fun l₁ c h₁ hl => ?_
  obtain ⟨rfl, rfl⟩ := Prod.mk.inj (Except.ok.inj (peek_snd.symm.trans h₁))
  rw [if_neg hd]
  refine (calm_matchUps hl).bind fun l₂ b h₂ hl => ?_
  obtain ⟨rfl, rfl⟩ := Prod.mk.inj (Except.ok.inj (matchUps_host.symm.trans h₂))
  rw [if_neg hs]
  refine (calm_peek hl).bind fun l₃ c h₃ hl => ?_
  obtain ⟨rfl, rfl⟩ := Prod.mk.inj (Except.ok.inj (peek_snd.symm.trans h₃))
  rw [if_pos hpeek]
  exact (calm_parseIpliteral hl hhead' hopen).bind fun _ _ _ hl => keeps_pure hl _

/-- No host at all, or what a broken escape leaves of one. -/
theorem hostFound_none (hl : Inside l.recordLmatch) (hd : ¬ l.recordLmatch.peek.isDigit = true)
    (hs : ¬ starts isNameChar l.lookahead = true)
    (hhead : (l.lookahead.drop (ahead l.lookahead)).head? ≠ some '[') :
    HostFound l.recordLmatch (parseHostCases flags)
      ⟨.host, l.lookahead.take (ahead l.lookahead), false,
        l.lookahead.drop (l.lookahead.take (ahead l.lookahead)).length⟩ := by
  have hpeek : (l.recordLmatch.adv (ahead l.lookahead)).peek ≠ '[' := fun h =>
    hhead (lookahead_host ▸ (peek_iff (by decide)).mp h)
  have hlen : (l.lookahead.take (ahead l.lookahead)).length = ahead l.lookahead := by
    rw [List.length_take, Nat.min_eq_left (ahead_le _)]
  have hat := at_front (l := l) .host (List.take_prefix (ahead l.lookahead) l.lookahead)
  refine HostFound.after (calm_peek hl) peek_snd fun hl => ?_
  rw [if_neg hd]
  refine HostFound.after (calm_matchUps hl) matchUps_host fun hl => ?_
  rw [if_neg hs]
  refine HostFound.after (calm_peek hl) peek_snd fun hl => ?_
  rw [if_neg hpeek]
  have hadv : l.recordLmatch.adv (ahead l.lookahead) =
      l.recordLmatch.adv (l.lookahead.take (ahead l.lookahead)).length := by rw [hlen]
  rw [hadv] at hl ⊢
  exact (hostFound_last hat hl rfl).pure _

end HostCases

/-- The host.  The reading distinguishes its three forms by the first character as the parser does,
and a host of the third form that is empty is no failure. -/
theorem follows_parseHost (hl : Inside l) (hu : Sized u.buffer) :
    Follows l u (parseHost before u) (Reading.host l.lookahead) := by
  refine Follows.after (calm_recordLmatch hl) recordLmatch_snd fun hl => ?_
  rw [Reading.host, get_bind, peek_recordLmatch_isDigit]
  split
  · next hd => exact follows_host (hostFound_address hl hd) rfl hu
  next hd =>
  split
  · next hs => exact follows_host (hostFound_name hl hd hs) rfl hu
  next hs =>
  split
  · next hhead =>
    have hread : (Reading.skip (ahead l.lookahead + 1) >>= fun _ => Reading.literal) l.lookahead =
        Reading.literal (l.lookahead.drop (ahead l.lookahead + 1)) := rfl
    rw [hread, Reading.literal, get_bind]
    split
    · next hclose => exact follows_host (hostFound_brackets hl hd hs hhead rfl hclose) rfl hu
    · next hopen => exact follows_open hl hd hs hhead rfl hopen _
  · next hhead => exact follows_host (hostFound_none hl hd hs hhead) rfl hu

/-- User and password, on a lexer whose text is the userinfo: the reading cuts it at the first `:`.
-/
theorem follows_userPassword {c : Char} {y : List Char} (hx : l.lookahead = c :: y) (hl : Inside l)
    (hu : Sized u.buffer) :
    Follows l u (userPassword before u) (Reading.halves (c :: y), .ok ([], ())) := by
  have hsplit := List.takeWhile_append_dropWhile (p := fun d : Char => decide (d ≠ ':')) (l := y)
  have hcolon : (fun d : Char => !decide (d = ':')) = fun d => decide (d ≠ ':') :=
    funext fun d => (decide_not (p := d = ':')).symm
  have hend : (l.recordLmatch.next.2.nextWhile fun d => !decide (d = ':')) =
      l.recordLmatch.adv (c :: y.takeWhile (· ≠ ':')).length := by
    rw [next_cons (l := l.recordLmatch) hx, hcolon, nextWhile_eq,
      lookahead_cons_adv (l := l.recordLmatch) hx, adv_adv, List.length_cons, Nat.add_comm]
  have hat : At ⟨.user, c :: y.takeWhile (· ≠ ':'), false, y.dropWhile (· ≠ ':')⟩
      (l.recordLmatch.adv (c :: y.takeWhile (· ≠ ':')).length) := by
    refine at_adv .user (hx.trans ?_)
    rw [List.cons_append, hsplit]
  have hbuffer : ∀ t, ({ u with user := t } : Uri).buffer = Function.update u.buffer .user t :=
    fun t => funext fun k => by cases k <;> rfl
  refine Follows.after (calm_recordLmatch hl) recordLmatch_snd fun hl => ?_
  refine Follows.after (calm_nextUntil hl) nextUntil_snd fun hl => ?_
  refine Follows.after (calm_recordRmatch hl) recordRmatch_snd fun hl => ?_
  rw [hend] at hl ⊢
  generalize l.recordLmatch.adv (c :: y.takeWhile (· ≠ ':')).length = l₁ at hat hl ⊢
  have hlook : l₁.recordRmatch.lookahead = y.dropWhile (· ≠ ':') := hat.lookahead
  rw [Reading.halves]
  cases hdrop : y.dropWhile (· ≠ ':') with
  | nil =>
    rw [hdrop] at hat hsplit hlook
    rw [List.append_nil] at hsplit
    rw [hsplit] at hat
    have hlast := follows_pure hl (sized_of_keepOne
      (m := ⟨.user, c :: y, false, []⟩) hu (hbuffer _))
    rw [hlook] at hlast
    refine follows_store (R := ([], .ok ([], ()))) hat hl rfl rfl hu (hbuffer _) rfl ?_
    refine Follows.after (calm_eot hl) eot_snd fun hl => ?_
    rw [if_pos (eot_iff.mpr hlook)]
    exact hlast
  | cons d z =>
    rw [hdrop] at hat hlook
    have hnext : (next l₁.recordRmatch).2 =
        .ok (l₁.recordRmatch.adv 1, some (l₁.recordRmatch.adv 1).peek) := by
      rw [next_snd, next_cons hlook]
    have hz : (l₁.recordRmatch.adv 1).lookahead = z ++ [] := by
      rw [lookahead_cons_adv hlook, List.append_nil]
    have hwhile : ((l₁.recordRmatch.adv 1).recordLmatch.nextWhile fun _ => true) =
        (l₁.recordRmatch.adv 1).recordLmatch.adv z.length := by
      rw [nextWhile_eq, lookahead_recordLmatch, hz, List.append_nil,
        List.takeWhile_eq_self_iff.mpr fun _ _ => rfl]
    have hsized := sized_of_keepOne (m := ⟨.user, c :: y.takeWhile (· ≠ ':'), false, d :: z⟩) hu
      (hbuffer _)
    refine follows_store (R := ([⟨.pwd, z, false, []⟩], .ok ([], ()))) hat hl rfl rfl hu
      (hbuffer _) rfl ?_
    refine Follows.after (calm_eot hl) eot_snd fun hl => ?_
    rw [if_neg (by rw [eot_of_cons hlook]; exact Bool.false_ne_true)]
    refine Follows.after (calm_next hl) hnext fun hl => ?_
    refine Follows.after (calm_recordLmatch hl) recordLmatch_snd fun hl => ?_
    refine Follows.after (calm_nextUntil hl) nextUntil_false_snd fun hl => ?_
    refine Follows.after (calm_recordRmatch hl) recordRmatch_snd fun hl => ?_
    rw [hwhile] at hl ⊢
    exact follows_last before (m := ⟨.pwd, z, false, []⟩)
      (f := fun t => { u with user := _, pwd := t })
      (at_adv .pwd hz) hl rfl rfl hsized (fun t => funext fun k => by cases k <;> rfl) fun _ => rfl

/-- On a lexer of its own. -/
theorem Follows.withLexer {s : List Char} {ms : List Match} {y : List Char} (hl : Inside l)
    (h : Follows (Lexer.new s) u w (ms, .ok (y, ()))) :
    Follows l u (withLexer s w) (ms, .ok (l.lookahead, ())) := by
  obtain ⟨l', u', hok, -, -, hsized, hopt, hbuffer⟩ := h.ok y rfl
  have heq := withLexer_ok (l := l) hok
  refine ⟨?_, fun x hx => ?_, fun h => by cases h⟩
  · rw [heq]
    exact h.logs
  · obtain ⟨rfl, -⟩ := Prod.mk.inj (Except.ok.inj hx)
    exact ⟨l, u', by rw [heq], hl, rfl, hsized, hopt, hbuffer⟩

/-- The userinfo that was stored is taken apart on a lexer of its own, and the reading halves the
same text. -/
theorem follows_crumbleUserPassword {v : List Char} (hinfo : u.userinfo = some v)
    (hnul : '\x00' ∉ v) (hl : Inside l) (hu : Sized u.buffer) :
    Follows l u (crumbleUserPassword before u) (Reading.halves v, .ok (l.lookahead, ())) := by
  rw [crumbleUserPassword, hinfo]
  cases v with
  | nil => exact follows_pure hl hu
  | cons c y =>
    have hnew : (Lexer.new (c :: y)).lookahead = c :: y := by
      have hstring : cString (c :: y) = c :: y :=
        List.takeWhile_eq_self_iff.mpr fun d hd => decide_eq_true fun h => hnul (h ▸ hd)
      rw [Lexer.lookahead, Lexer.new, hstring]
      rfl
    exact Follows.withLexer hl (follows_userPassword hnew ⟨Nat.zero_le _, Nat.zero_le _⟩ hu)

/-- The character behind is skipped. -/
theorem Follows.skip {c : Char} {ms : List Match} (h : Follows l u w (ms, .ok (c :: x, ()))) :
    Follows l u (w >>= fun u => nextOrErr >>= fun _ => pure u) (ms, .ok (x, ())) := by
  have hread : ((fun _ => (ms, .ok (c :: x, ())) : Reading) >>= fun _ => Reading.skip 1) x =
      (ms, .ok (x, ())) := Prod.ext (List.append_nil ms) rfl
  rw [← hread]
  refine Follows.bind h fun l₁ u₁ hr _ hl₁ hu₁ => ?_
  have hlook : l₁.lookahead = c :: x := (Prod.mk.inj (Except.ok.inj hr)).1.symm
  have hlast := fun hl => follows_pure (l := l₁.adv 1) (u := u₁) hl hu₁
  rw [lookahead_cons_adv hlook] at hlast
  rw [hlook]
  exact Follows.after (calm_nextOrErr hl₁) (nextOrErr_snd.trans (nextOrErr_cons hlook)) hlast

variable (before) in
/-- A userinfo that fits: it is stored, and what is stored is taken apart. -/
theorem follows_userinfo_fits {v x : List Char} (hat : At ⟨.userinfo, v, false, '@' :: x⟩ l)
    (hl : Inside l.recordRmatch) (hu : Sized u.buffer) (hnul : '\x00' ∉ v)
    (hfits : v.length + 1 < tokenSz) :
    Follows l.recordRmatch u (found .userinfo >>= fun _ =>
      adjustGreedyMatch before .userinfo u.userinfo >>= fun userinfo =>
        (if u.dontParseUserinfo then pure { u with userinfo }
          else crumbleUserPassword before
          { u with userinfo }) >>= fun u => nextOrErr >>= fun _ => pure u)
      (⟨.userinfo, v, false, '@' :: x⟩ ::
        (if u.dontParseUserinfo then [] else Reading.halves (trimBracket v)), .ok (x, ())) := by
  have hkept : ∀ old, Match.kept ⟨.userinfo, v, false, '@' :: x⟩ old = some (trimBracket v) := by
    intro old
    have hcopied : Match.copied ⟨.userinfo, v, false, '@' :: x⟩ old =
      some (v ++ ['@']) := if_pos hfits
    rw [Match.kept, hcopied]
    exact congrArg (Option.map trimBracket) (chop_append v '@')
  have hbuffer : ({ u with userinfo := some (trimBracket v) } : Uri).buffer =
      keepOne u.buffer ⟨.userinfo, v, false, '@' :: x⟩ := by
    rw [keepOne, hkept]
    exact funext fun k => by cases k <;> rfl
  have hsized := sized_of_keepOne hu hbuffer
  have htrim : '\x00' ∉ trimBracket v := by
    rw [trimBracket]
    split
    · exact fun h => hnul (List.dropLast_subset v h)
    · exact hnul
  have hlook : l.recordRmatch.lookahead = '@' :: x := hat.lookahead
  refine follows_store (R := (if u.dontParseUserinfo then [] else Reading.halves (trimBracket v),
    .ok (x, ()))) hat hl rfl rfl hu hbuffer rfl ?_
  rw [hkept]
  have hfirst : Follows l.recordRmatch { u with userinfo := some (trimBracket v) }
      (if u.dontParseUserinfo then pure { u with userinfo := some (trimBracket v) }
        else crumbleUserPassword before { u with userinfo := some (trimBracket v) })
      (if u.dontParseUserinfo then [] else Reading.halves (trimBracket v),
        .ok (l.recordRmatch.lookahead, ())) := by
    split
    · exact follows_pure hl hsized
    · exact follows_crumbleUserPassword rfl htrim hl hsized
  rw [hlook] at hfirst
  exact hfirst.skip

variable (before) in
/-- A userinfo that does not fit: its last character is cut off in front of the buffer. -/
theorem follows_userinfo_long {v x : List Char} (hat : At ⟨.userinfo, v, false, '@' :: x⟩ l)
    (hl : Inside l.recordRmatch) (hu : Sized u.buffer) (hinfo : u.userinfo = some [])
    (hlong : tokenSz ≤ v.length + 1) :
    Follows l.recordRmatch u (found .userinfo >>= fun _ =>
      adjustGreedyMatch before .userinfo u.userinfo >>= fun userinfo =>
        (if u.dontParseUserinfo then pure { u with userinfo }
          else crumbleUserPassword before
          { u with userinfo }) >>= fun u => nextOrErr >>= fun _ => pure u)
      ([⟨.userinfo, v, false, '@' :: x⟩], .ok (x, ())) := by
  have hcopied : Match.copied ⟨.userinfo, v, false, '@' :: x⟩ u.userinfo = some [] :=
    (if_neg (Nat.not_lt.mpr hlong)).trans hinfo
  have hkept : Match.kept ⟨.userinfo, v, false, '@' :: x⟩ u.userinfo = none := by
    rw [Match.kept, hcopied]
    rfl
  have hstray : Match.Stray ⟨.userinfo, v, false, '@' :: x⟩ u.userinfo := ⟨rfl, hcopied⟩
  have hadjust := adjustGreedyMatch_at before hat rfl u.userinfo
  rw [hkept] at hadjust
  have hsized : Sized ({ u with userinfo := none } : Uri).buffer ∧
      Sized ({ u with userinfo := none, user := none, pwd := none } : Uri).buffer :=
    ⟨hu.of_kept fun k => by cases k <;> first | exact .inl rfl | exact .inr rfl,
      hu.of_kept fun k => by cases k <;> first | exact .inl rfl | exact .inr rfl⟩
  obtain ⟨u₂, hpwd, hsized₂, hopt₂⟩ : ∃ u₂ : Uri, (if u.dontParseUserinfo then
        (pure { u with userinfo := none } : Parser Uri)
      else crumbleUserPassword before { u with userinfo := none }) l.recordRmatch =
        ([], .ok (l.recordRmatch, u₂)) ∧ Sized u₂.buffer ∧
      u₂.dontParseUserinfo = u.dontParseUserinfo := by
    split
    · exact ⟨_, rfl, hsized.1, rfl⟩
    · exact ⟨_, rfl, hsized.2, rfl⟩
  have hlook : l.recordRmatch.lookahead = '@' :: x := hat.lookahead
  have hnext := nextOrErr_snd.trans (nextOrErr_cons hlook)
  have hcalm := calm_nextOrErr hl
  have hfound : (found .userinfo l.recordRmatch).1 = [.found .userinfo v] :=
    found_fst (taken_of_at hat)
  have heq : (found .userinfo >>= fun _ =>
      adjustGreedyMatch before .userinfo u.userinfo >>= fun userinfo =>
        (if u.dontParseUserinfo then pure { u with userinfo }
          else crumbleUserPassword before { u with userinfo }) >>= fun u =>
            nextOrErr >>= fun _ => (pure u : Parser Uri)) l.recordRmatch =
      ([.found .userinfo v] ++ ((adjustGreedyMatch before .userinfo u.userinfo l.recordRmatch).1 ++
        ([] ++ ((nextOrErr l.recordRmatch).1 ++ []))), .ok (l.recordRmatch.adv 1, u₂)) := by
    rw [bind_of_ok found_snd, bind_of_ok hadjust, bind_of_ok (congrArg Prod.snd hpwd),
      bind_of_ok hnext, hfound, hpwd]
    rfl
  refine ⟨?_, fun y hy => ?_, fun h => by cases h⟩
  · rw [heq, List.nil_append, List.append_nil]
    refine ((logs_found .userinfo v).append ((logs_adjust before hat hl rfl (hu .userinfo)).append
      (logs_of_steady hcalm.logs))).congr (iff_of_true (.inr (.inl hstray)) (.inl hstray))
  · obtain ⟨rfl, -⟩ := Prod.mk.inj (Except.ok.inj hy)
    exact ⟨_, u₂, congrArg Prod.snd heq, hcalm.ok _ _ hnext, lookahead_cons_adv hlook, hsized₂,
      hopt₂, .inl (.inl hstray)⟩

/-- A userinfo behind its match. -/
theorem store_userinfo (before : Part → Char) (u : Uri) : (do
      found .userinfo
      let userinfo ← adjustGreedyMatch before .userinfo u.userinfo
      let u := { u with userinfo }
      let u ← if u.dontParseUserinfo then pure u else crumbleUserPassword before u
      let _ ← nextOrErr
      pure u) = found .userinfo >>= fun _ =>
        adjustGreedyMatch before .userinfo u.userinfo >>= fun userinfo =>
          (if u.dontParseUserinfo then pure { u with userinfo }
            else crumbleUserPassword before
            { u with userinfo }) >>= fun u => nextOrErr >>= fun _ => pure u := by
  refine bind_congr fun _ => bind_congr fun userinfo => ?_
  dsimp only
  split
  · rfl
  · rfl

/-- The reading of a userinfo, behind the look at its end. -/
theorem take_userinfo {v x y : List Char} (hs : List Match) (h : y.drop v.length = '@' :: x) :
    (Reading.take .userinfo v >>= fun _ => log hs >>= fun _ => Reading.skip 1) y =
      (⟨.userinfo, v, false, '@' :: x⟩ :: hs, .ok (x, ())) := by
  have heq : (Reading.take .userinfo v >>= fun _ => log hs >>= fun _ => Reading.skip 1) y =
      (⟨.userinfo, v, false, y.drop v.length⟩ :: (hs ++ []), .ok ((y.drop v.length).drop 1, ())) :=
      rfl
  rw [heq, h, List.append_nil]
  rfl

/-- The userinfo up to its `@`, which is known to come, with its two halves unless they are not
asked for. -/
theorem follows_parseUserinfo (hl : Inside l) (hu : Sized u.buffer) (hinfo : u.userinfo = some [])
    (hnul : '\x00' ∉ l.lookahead) :
    Follows l u (parseUserinfo before u) (Reading.userinfo u.dontParseUserinfo l.lookahead) := by
  refine Follows.after (calm_recordLmatch hl) recordLmatch_snd fun hl => ?_
  rw [Reading.userinfo, get_bind]
  cases hx : l.lookahead with
  | nil =>
    have hnil : front isUserinfoChar [] = [] := front_of_not_starts rfl
    have herr : Uri.doWhile Uri.matchPcharMinusAtSign l.recordLmatch =
      .error (.err l.recordLmatch) := by
      rw [Uri.doWhile, Uri.nextOrErr, next_nil (l := l.recordLmatch) hx]
      rfl
    rw [List.take_nil, List.tail_nil, hnil]
    exact Follows.stop (calm_doWhile calm_matchPcharMinusAtSign hl)
      ((doWhile_snd fun _ => matchPcharMinusAtSign_snd).trans (congrArg moved herr))
  | cons c y =>
    have hloop := (doWhile_snd fun _ => matchPcharMinusAtSign_snd).trans
      (congrArg moved (doWhile_front (l := l.recordLmatch) reads_userinfo hx))
    have hv : (c :: y).take 1 ++ front isUserinfoChar (c :: y).tail =
      c :: front isUserinfoChar y := rfl
    have hprefix : c :: front isUserinfoChar y <+: l.lookahead := by
      rw [hx]
      exact List.cons_prefix_cons.mpr ⟨rfl, front_isPrefix _ _⟩
    have hat := at_front .userinfo hprefix
    have hlook : (l.recordLmatch.adv ((front isUserinfoChar y).length + 1)).lookahead =
        (c :: y).drop (c :: front isUserinfoChar y).length := hx ▸ hat.lookahead
    rw [hv]
    refine Follows.after (calm_doWhile calm_matchPcharMinusAtSign hl) hloop fun hl => ?_
    refine Follows.after (calm_peek hl) peek_snd fun hl => ?_
    by_cases hhead : ((c :: y).drop (c :: front isUserinfoChar y).length).head? = some '@'
    · rw [if_neg (not_not.mpr ((peek_iff (by decide)).mpr (hlook ▸ hhead))), if_pos hhead]
      refine Follows.after (calm_recordRmatch hl) recordRmatch_snd fun hl => ?_
      have hbehind := exists_of_head hhead
      rw [hx] at hat hnul
      rw [hbehind] at hat
      have hnulv : '\x00' ∉ c :: front isUserinfoChar y := fun h =>
        hnul ((hx ▸ hprefix : c :: front isUserinfoChar y <+: c :: y).subset h)
      by_cases hfits : (c :: front isUserinfoChar y).length + 1 < tokenSz
      · have hread := take_userinfo (if u.dontParseUserinfo = true ∨
          tokenSz ≤ (c :: front isUserinfoChar y).length + 1 then []
            else Reading.halves (trimBracket (c :: front isUserinfoChar y))) hbehind
        have hcond : (u.dontParseUserinfo = true ∨ tokenSz ≤
          (c :: front isUserinfoChar y).length + 1) ↔
            u.dontParseUserinfo = true := or_iff_left (Nat.not_le.mpr hfits)
        refine Eq.mpr (congrArg₂ (Follows _ u) (store_userinfo before u) (hread.trans ?_))
          (follows_userinfo_fits before hat hl hu hnulv hfits)
        rw [if_congr hcond rfl rfl]
      · have hlong := Nat.not_lt.mp hfits
        have hread := take_userinfo (if u.dontParseUserinfo = true ∨
          tokenSz ≤ (c :: front isUserinfoChar y).length + 1 then []
            else Reading.halves (trimBracket (c :: front isUserinfoChar y))) hbehind
        refine Eq.mpr (congrArg₂ (Follows _ u) (store_userinfo before u) (hread.trans ?_))
          (follows_userinfo_long before hat hl hu hinfo hlong)
        rw [if_pos (.inr hlong)]
    · rw [if_pos fun h => hhead (hlook ▸ (peek_iff (by decide)).mp h), if_neg hhead]
      exact follows_err hl

/-- A userinfo is looked for only where there is an `@` in all that is left of the text, be it in
the path or in the query: the reading asks the same. -/
theorem follows_parseUserinfoOpt (hl : Inside l) (hu : Sized u.buffer)
    (hinfo : u.userinfo = some []) (hnul : '\x00' ∉ l.lookahead) :
    Follows l u (parseUserinfoOpt before u) (Reading.userinfoOpt u.dontParseUserinfo
      l.lookahead) := by
  refine Follows.after (calm_lookahead hl) lookahead_snd fun hl => ?_
  rw [Reading.userinfoOpt, get_bind]
  split
  · exact follows_parseUserinfo hl hu hinfo hnul
  · exact follows_pure hl hu

/-- The authority behind its two slashes: userinfo, host, port, and then the path. -/
theorem follows_parseAuthority {y : List Char} (hl : Inside l) (hu : Sized u.buffer)
    (hinfo : u.userinfo = some []) (hx : l.lookahead = '/' :: '/' :: y) (hnul : '\x00' ∉ y) :
    Follows l u (parseAuthority before u) (Reading.authority u.dontParseUserinfo l.lookahead) := by
  have hx₁ := lookahead_cons_adv hx
  have hx₂ := lookahead_cons_adv hx₁
  have hread : Reading.authority u.dontParseUserinfo l.lookahead =
      (Reading.userinfoOpt u.dontParseUserinfo >>= fun _ => Reading.host >>= fun _ =>
        Reading.portOpt >>= fun _ => Reading.abempty) ((l.adv 1).adv 1).lookahead := by
    rw [hx, hx₂]
    rfl
  rw [hread]
  refine Follows.after (calm_expectChar hl) (expectChar_snd.trans
    (congrArg moved (expectChar_eq hx)))
    fun hl => ?_
  refine Follows.after (calm_expectChar hl) (expectChar_snd.trans
    (congrArg moved (expectChar_eq hx₁)))
    fun hl => ?_
  refine (follows_parseUserinfoOpt hl hu hinfo (hx₂ ▸ hnul)).bind fun l₁ u₁ _ _ hl hu => ?_
  refine (follows_parseHost hl hu).bind fun l₂ u₂ _ _ hl hu => ?_
  exact (follows_parsePort hl hu).bind fun l₃ u₃ _ _ hl hu => follows_parseAbempty hl hu

/-- Where a path starts with a character of a segment, no slash follows it at once. -/
theorem head_of_starts (hs : starts isPchar x = true) (hhead : x.head? ≠ some '/') :
    (x.drop (ahead x)).head? ≠ some '/' := by
  cases x with
  | nil => cases hs
  | cons c x =>
    rw [starts] at hs
    rw [ahead]
    split
    · next hc =>
      rw [if_pos hc, decide_eq_true_eq] at hs
      rw [hs]
      cases x with
      | nil => cases hs
      | cons a x =>
        cases x with
        | nil =>
          have hlen := hexDigits_length_le [a]
          rw [hs] at hlen
          exact absurd hlen (Nat.not_succ_le_self 1)
        | cons b x =>
          rintro hb
          obtain rfl : b = '/' := Option.some.inj hb
          have hdigits : hexDigits (a :: '/' :: x) = [a, '/'].takeWhile isXDigit := rfl
          rw [hdigits] at hs
          have hall := List.takeWhile_eq_self_iff.mp
            ((List.takeWhile_prefix isXDigit).eq_of_length hs)
          exact absurd (hall '/' (by simp)) (by decide)
    · exact hhead

/-- The path is empty where none starts. -/
theorem follows_noPath (hl : Inside l) (hu : Sized u.buffer) :
    Follows l u (log [.found .path [], .write .path 0 0] >>= fun _ =>
      pure { u with path := some [] }) (Reading.take .path [] l.lookahead) := by
  have hkept : ∀ x old, Match.kept ⟨.path, [], false, x⟩ old = some [] := by
    intro x old
    cases x <;> rfl
  have hbuffer : ({ u with path := some [] } : Uri).buffer =
      keepOne u.buffer ⟨.path, [], false, l.lookahead⟩ := by
    rw [keepOne, hkept]
    exact funext fun k => by cases k <;> rfl
  have hcalm : ¬ Match.Stray ⟨.path, [], false, l.lookahead⟩ u.path := by
    rintro ⟨hcut, hcopied⟩
    cases hx : l.lookahead with
    | nil =>
      rw [hx] at hcut
      cases hcut
    | cons c x =>
      rw [hx] at hcopied
      cases hcopied
  refine ⟨?_, fun y hy => ?_, fun h => by cases h⟩
  · refine ((logs_found .path []).append (logs_write .path 0 0)).congr (iff_of_false ?_ ?_)
    · rintro (h | h)
      · exact h
      · exact h (by decide)
    · rintro (h | h)
      · exact hcalm h
      · exact h
  · obtain ⟨rfl, -⟩ := Prod.mk.inj (Except.ok.inj hy)
    exact ⟨l, _, rfl, hl, rfl, sized_of_keepOne hu hbuffer, rfl, .inr hbuffer⟩

variable (before) in
/-- What stands between the scheme and the query, in the three cases of the source: an authority, a
path, or nothing. -/
theorem follows_parseHierPart (hl : Inside l) (hu : Sized u.buffer) (hinfo : u.userinfo = some [])
    (hnul : '\x00' ∉ l.lookahead) :
    Follows l u (parseHierPart before u) (Reading.hierPart u.dontParseUserinfo l.lookahead) := by
  refine Follows.after (calm_lookahead hl) lookahead_snd fun hl => ?_
  rw [Reading.hierPart, get_bind]
  split
  · next htwo =>
    have hx := (List.take_append_drop 2 l.lookahead).symm
    rw [htwo] at hx
    refine follows_parseAuthority hl hu hinfo hx fun h => hnul ?_
    rw [hx]
    exact List.mem_append_right _ h
  refine Follows.after (calm_pathFirst hl) pathFirst_snd fun hl => ?_
  by_cases hhead : l.lookahead.head? = some '/'
  · have hfirst : Uri.pathFirst l = (true, l) := by
      rw [Uri.pathFirst, if_pos ((peek_iff (by decide)).mpr hhead)]
    rw [hfirst] at hl ⊢
    rw [if_pos hhead]
    exact follows_parsePath hl hu (.inl ⟨rfl, hhead⟩)
  · have hfirst : Uri.pathFirst l = (starts isPchar l.lookahead, l.adv (ahead l.lookahead)) := by
      rw [Uri.pathFirst, if_neg fun h => hhead ((peek_iff (by decide)).mp h), reads_pchar]
    have hdrop : (l.adv (ahead l.lookahead)).lookahead = l.lookahead.drop (ahead l.lookahead) :=
      lookahead_adv _
    have hskip : ∀ r : Reading, (Reading.skip (ahead l.lookahead) >>= fun _ => r) l.lookahead =
        r (l.adv (ahead l.lookahead)).lookahead := by
      intro r
      rw [hdrop]
      rfl
    rw [hfirst] at hl ⊢
    rw [if_neg hhead, hskip]
    by_cases hs : starts isPchar l.lookahead = true
    · have hnext := head_of_starts hs hhead
      rw [if_pos hs, if_pos hs]
      exact follows_parsePath hl hu (.inr ⟨rfl, hdrop ▸ hnext⟩)
    · rw [if_neg hs, if_neg hs]
      exact follows_noPath hl hu

/-- The default path is written first. -/
theorem follows_default (h : Follows l u w R) :
    Follows l u (log [.write .path 0 1] >>= fun _ => w) R := by
  have heq : (log [.write .path 0 1] >>= fun _ => w) l = ([.write .path 0 1] ++ (w l).1, (w l).2) :=
    rfl
  refine ⟨?_, fun x hx => ?_, fun herr => ?_⟩
  · rw [heq]
    refine ((logs_write .path 0 1).append h.logs).congr (or_iff_right ?_)
    decide
  · rw [heq]
    exact h.ok x hx
  · rw [heq]
    exact h.error herr

/-- The scheme is stored in its own buffer, and leaves the userinfo and the options as they were. -/
theorem parseScheme_frame {l' : Lexer} (h : Uri.parseScheme l u = .ok (l', u')) :
    u'.userinfo = u.userinfo ∧ u'.dontParseUserinfo = u.dontParseUserinfo := by
  rw [Uri.parseScheme] at h
  split at h
  · cases h
  · obtain ⟨p, -, h⟩ := bind_eq_ok.mp h
    obtain ⟨-, rfl⟩ := Prod.mk.inj (Except.ok.inj h)
    exact ⟨rfl, rfl⟩

/-- The buffers of a new object are terminated: all of them are empty. -/
theorem sized_new (opt : Bool) : Sized (new opt).buffer := by
  intro k v hv
  cases k <;> cases hv <;> decide

/-- What is left behind a scheme is a part of the text, and so has no NUL either. -/
theorem scheme_behind_subset {y : List Char} (h : (Reading.scheme x).2 = .ok (y, ())) : y ⊆ x := by
  rw [Reading.scheme, get_bind] at h
  split at h
  · obtain ⟨rfl, -⟩ := Prod.mk.inj (Except.ok.inj h)
    exact List.drop_subset _ _
  · cases h

/-- **The parser follows the reading of its text.** -/
theorem follows_uri (before : Part → Char) (s : List Char) (opt : Bool) :
    Follows (Lexer.new s) (new opt) (parser before opt) (Reading.uri opt (cString s)) := by
  have hl : Inside (Lexer.new s) := ⟨Nat.zero_le _, Nat.zero_le _⟩
  have hx : (Lexer.new s).lookahead = cString s := rfl
  have hnul : '\x00' ∉ cString s := by
    intro h
    have hall := List.mem_takeWhile_imp h
    exact absurd hall (by decide)
  rw [← hx] at hnul ⊢
  refine follows_default ?_
  refine (follows_parseScheme hl (sized_new opt)).bind fun l₁ u₁ hread hok hl hu => ?_
  rw [parseScheme_snd] at hok
  obtain ⟨hinfo, hopt⟩ := parseScheme_frame hok
  refine follows_expectChar (by decide) hl fun l₂ hl hlook => ?_
  have hnul₂ : '\x00' ∉ l₂.lookahead := by
    rw [hlook]
    exact fun h => hnul (scheme_behind_subset hread (List.mem_of_mem_drop h))
  have hhier := follows_parseHierPart before hl hu hinfo hnul₂
  rw [hopt] at hhier
  refine hhier.bind fun l₃ u₃ _ _ hl hu => ?_
  exact (follows_parseQueryOpt hl hu).bind fun l₄ u₄ _ _ hl hu => follows_parseFragmentOpt hl hu

end Watch

end

end Libu.Uri
