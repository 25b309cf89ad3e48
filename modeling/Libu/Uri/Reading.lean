/-
# How the parser reads a text

What is matched for which component, on the text alone: without a lexer and without the buffers, so
that nothing is too long here.  A reading is a computation on the text that is left, and its log is
the matches.

The readers have the structure of the parsers, since a description that parses in another way could
not be compared with them, but each loop of the source is one function on a list (`front`), and a
match is named with the text behind it.  That is enough to say what the parser does wrong, without a
word on cursors: a claim on a stray byte or on a component that is cut off is a claim on the matches
of the reading.

* §1: what a loop over a class passes over.  A broken escape ends the loop, and is passed over up to
  the character that breaks it.
* §2: the readers, one for each parser.
* §3: what is known of the matches without reading a text: a component is matched once at most, what
  is left behind it, and that nothing fails behind the host.
-/
import Libu.Uri.Watch

namespace Libu.Uri

open Verif Logged Lexer

/-! ## 1. Loops -/

section Loops

/-- The hexadecimal digits behind a percent sign, two at most. -/
def hexDigits (x : List Char) : List Char := (x.take 2).takeWhile isXDigit

/-- The text starts with a character of the class or with an escape. -/
def starts (p : Char → Bool) : List Char → Bool
  | [] => false
  | c :: x => if c = '%' then (hexDigits x).length = 2 else p c

/-- What a matcher passes over when it looks at the text: an escape up to its last digit, and a
broken one up to the character that breaks it. -/
def ahead : List Char → Nat
  | [] => 0
  | c :: x => if c = '%' then min ((hexDigits x).length + 1) 2 else 0

/-- What a loop over the class passes over. -/
def front (p : Char → Bool) (x : List Char) : List Char :=
  if _h : starts p x = true then x.take (ahead x + 1) ++ front p (x.drop (ahead x + 1))
  else x.take (ahead x)
termination_by x.length
decreasing_by
  have h : starts p x = true := ‹_›
  cases x with
  | nil => cases h
  | cons c x =>
    rw [List.length_drop, List.length_cons]
    omega

/-- `*( "/" segment )`, with a first segment that may be broken off. -/
def segments (x : List Char) : List Char :=
  if _h : x.head? = some '/' then
    '/' :: (front isPchar x.tail ++ segments (x.tail.drop (front isPchar x.tail).length))
  else []
termination_by x.length
decreasing_by
  have h : x.head? = some '/' := ‹_›
  cases x with
  | nil => cases h
  | cons c x =>
    rw [List.length_drop, List.tail_cons, List.length_cons]
    omega

variable {p : Char → Bool} {x y : List Char} {l : Lexer} {m : Lexer → Bool × Lexer}

/-- One turn of a loop: the character, or the whole escape, and then the rest. -/
theorem front_of_starts (h : starts p x = true) :
    front p x = x.take (ahead x + 1) ++ front p (x.drop (ahead x + 1)) := by
  rw [front, dif_pos h]

/-- At the end of a loop only the part of a broken escape that was looked at is passed over. -/
theorem front_of_not_starts (h : starts p x = false) : front p x = x.take (ahead x) := by
  rw [front, dif_neg (by simp [h])]

/-- A path behind an authority goes on where there is a slash. -/
theorem segments_slash : segments ('/' :: x) =
    '/' :: (front isPchar x ++ segments (x.drop (front isPchar x).length)) := by
  rw [segments]
  rfl

/-- Where there is none, the path has ended. -/
theorem segments_of_ne (h : x.head? ≠ some '/') : segments x = [] := by
  rw [segments, dif_neg h]

/-- A loop passes over a front of the text. -/
theorem front_isPrefix (p : Char → Bool) (x : List Char) : front p x <+: x := by
  induction x using front.induct p with
  | case1 x h ih =>
    rw [front_of_starts h]
    have happ := (List.prefix_append_right_inj (x.take (ahead x + 1))).mpr ih
    rwa [List.take_append_drop] at happ
  | case2 x h =>
    rw [front_of_not_starts (by simpa using h)]
    exact List.take_prefix _ _

/-- A text is its front and what is left behind it. -/
theorem append_drop (h : y <+: x) : y ++ x.drop y.length = x := (List.prefix_iff_eq_append.mp h)

/-- The segments are a front of the text, by the recursion that reads them. -/
theorem segments_isPrefix (x : List Char) : segments x <+: x := by
  induction x using segments.induct with
  | case1 x h ih =>
    cases x with
    | nil => cases h
    | cons c x =>
      obtain rfl := Option.some.inj h
      have happ := (List.prefix_append_right_inj (front isPchar x)).mpr ih
      rw [List.tail_cons, append_drop (front_isPrefix isPchar x)] at happ
      rw [segments_slash]
      exact List.cons_prefix_cons.mpr ⟨rfl, happ⟩
  | case2 x h =>
    rw [segments_of_ne h]
    exact List.nil_prefix

/-- `u_uri_expect_pct_encoded` at a percent sign: it succeeds with two digits behind the sign.  It
leaves the cursor on the last character it has looked at, so that the loop around it takes that one.
-/
theorem expectPctEncoded_eq (h : l.lookahead = '%' :: x) : expectPctEncoded l =
    (decide ((hexDigits x).length = 2), l.adv (min ((hexDigits x).length + 1) 2)) := by
  have h₁ : (l.adv 1).lookahead = x := lookahead_cons_adv h
  have heq : expectPctEncoded l =
      if !isXDigit (l.adv 1).peek then (false, l.adv 1) else hexLoop 1 (l.adv 1) := by
    rw [expectPctEncoded, if_neg (by simp [peek_of_cons h]), hexLoop, next_cons h]
  rw [heq]
  cases x with
  | nil =>
    rw [peek_of_nil h₁]
    rfl
  | cons a x =>
    rw [peek_of_cons h₁]
    by_cases ha : isXDigit a = true
    · have h₂ := lookahead_cons_adv h₁
      rw [if_neg (by simp [ha]), hexLoop, next_cons h₁]
      dsimp only
      cases x with
      | nil =>
        rw [peek_of_nil h₂]
        have hnul : isXDigit '\x00' = false := rfl
        simp [hexDigits, ha, hnul]
      | cons b x =>
        rw [peek_of_cons h₂]
        by_cases hb : isXDigit b = true
        · simp [hexDigits, ha, hb, hexLoop]
        · simp [hexDigits, ha, hb]
    · simp [hexDigits, ha]

/-- The answer of the matcher, and where it moves the cursor. -/
def Reads (m : Lexer → Bool × Lexer) (p : Char → Bool) : Prop :=
  ∀ l : Lexer, m l = (starts p l.lookahead, l.adv (ahead l.lookahead))

/-- A matcher that tests for a class reads it also, where it hands a percent sign to the common
routine. -/
theorem Tests.reads (h : Tests m p) (hpct : ∀ l : Lexer, l.peek = '%' → m l = expectPctEncoded l) :
    Reads m p := by
  intro l
  cases hx : l.lookahead with
  | nil => exact h.nil hx
  | cons c x =>
    by_cases hc : c = '%'
    · subst hc
      rw [hpct l (peek_of_cons hx), expectPctEncoded_eq hx, starts, if_pos rfl, ahead, if_pos rfl]
    · rw [h.plain hx hc, starts, if_neg hc, ahead, if_neg hc, adv_zero]

theorem matchUps_of_pct (h : l.peek = '%') : matchUps l = expectPctEncoded l := by
  rw [matchUps, if_pos h]

theorem matchPchar_of_pct (h : l.peek = '%') : matchPchar l = expectPctEncoded l := by
  rw [matchPchar, if_neg (by rw [h]; decide), matchPcharMinusAtSign, if_neg (by rw [h]; decide),
    matchUps_of_pct h]

/-- The characters of a name: unreserved ones, sub-delimiters and escapes. -/
theorem reads_ups : Reads matchUps isNameChar := tests_ups.reads fun _ => matchUps_of_pct

theorem reads_userinfo : Reads matchPcharMinusAtSign isUserinfoChar := by
  refine tests_userinfo.reads fun l h => ?_
  rw [matchPcharMinusAtSign, if_neg (by rw [h]; decide), matchUps_of_pct h]

theorem reads_pchar : Reads matchPchar isPchar := tests_pchar.reads fun _ => matchPchar_of_pct

theorem reads_query : Reads matchQueryChar isQueryChar := by
  refine tests_query.reads fun l h => ?_
  rw [matchQueryChar, if_neg (by rw [h]; decide), matchPchar_of_pct h]

theorem reads_literal : Reads matchLiteralChar isPchar := by
  refine tests_literal.reads fun l h => ?_
  rw [matchLiteralChar, matchPchar_of_pct h, h]
  simp

/-- No more digits than there are characters. -/
theorem hexDigits_length_le (x : List Char) : (hexDigits x).length ≤ x.length := by
  have h := (List.takeWhile_prefix isXDigit (l := x.take 2)).length_le
  rw [List.length_take] at h
  exact h.trans (Nat.min_le_right _ _)

theorem ahead_le (x : List Char) : ahead x ≤ x.length := by
  cases x with
  | nil => exact Nat.zero_le _
  | cons c x =>
    have h := hexDigits_length_le x
    rw [ahead, List.length_cons]
    split <;> omega

/-- Where a loop goes on, the character it stops at is still in the text. -/
theorem ahead_lt (h : starts p x = true) : ahead x < x.length := by
  cases x with
  | nil => cases h
  | cons c x =>
    have hlen := hexDigits_length_le x
    rw [starts] at h
    rw [ahead, List.length_cons]
    split
    · next hc =>
      rw [if_pos hc, decide_eq_true_eq] at h
      omega
    · exact Nat.succ_pos _

/-- The character of a turn is there, and what comes behind it is the rest of the text. -/
theorem exists_of_starts (h : starts p l.lookahead = true) :
    ∃ c, (l.adv (ahead l.lookahead)).lookahead = c :: l.lookahead.drop (ahead l.lookahead + 1) := by
  have hlt := ahead_lt h
  obtain ⟨c, y, hy⟩ := List.exists_cons_of_ne_nil
    (l := l.lookahead.drop (ahead l.lookahead)) fun hnil => by
      have hle := List.drop_eq_nil_iff.mp hnil
      omega
  have hy' : (l.adv (ahead l.lookahead)).lookahead = c :: y := (lookahead_adv _).trans hy
  refine ⟨c, ?_⟩
  rw [hy', ← lookahead_cons_adv hy', adv_adv, lookahead_adv]

/-- **A loop over the class passes over the front of the text.** -/
theorem whileMatch_front (h : Reads m p) : ∀ {n : Nat} {l : Lexer}, l.lookahead.length < n →
    whileMatch m n l = .ok (l.adv (front p l.lookahead).length)
  | 0, _, hn => absurd hn (Nat.not_lt_zero _)
  | n + 1, l, hn => by
    rw [whileMatch, h l]
    cases hs : starts p l.lookahead with
    | false => rw [front_of_not_starts hs, List.length_take, Nat.min_eq_left (ahead_le _)]
    | true =>
      have hlt := ahead_lt hs
      obtain ⟨c, hy⟩ := exists_of_starts hs
      have hdrop : (l.adv (ahead l.lookahead + 1)).lookahead = l.lookahead.drop
        (ahead l.lookahead + 1) :=
        lookahead_adv _
      have hlen : (l.adv (ahead l.lookahead + 1)).lookahead.length < n := by
        rw [hdrop, List.length_drop]
        omega
      have hrest := whileMatch_front h hlen
      simp only [nextOrErr_cons hy, adv_adv, ok_bind]
      rw [hrest, hdrop, adv_adv, front_of_starts hs, List.length_append, List.length_take,
        Nat.min_eq_left hlt]

/-- The same with the fuel that the loop is given, which is the length of the whole text. -/
theorem matchWhile_front (h : Reads m p) :
    whileMatch m (l.slen + 1) l = .ok (l.adv (front p l.lookahead).length) :=
  whileMatch_front h (Nat.lt_succ_of_le (lookahead_length_le_slen l))

/-- The first turn takes any character. -/
theorem doWhile_front (h : Reads m p) {c : Char} (hx : l.lookahead = c :: x) :
    doWhile m l = .ok (l.adv ((front p x).length + 1)) := by
  have hloop := matchWhile_front h (l := l.adv 1)
  rw [lookahead_cons_adv hx, adv_adv, Nat.add_comm 1] at hloop
  rw [doWhile, nextOrErr_cons hx, ok_bind]
  exact hloop

/-- A matcher that says yes, and a `do ... while` loop from where it has moved to. -/
theorem doWhile_starts (h : Reads m p) (hs : starts p l.lookahead = true) :
    doWhile m (l.adv (ahead l.lookahead)) = .ok (l.adv (front p l.lookahead).length) := by
  have hlt := ahead_lt hs
  obtain ⟨c, hy⟩ := exists_of_starts hs
  rw [doWhile_front h hy, adv_adv, front_of_starts hs, List.length_append, List.length_take,
    Nat.min_eq_left hlt]
  congr 2
  omega

/-- The character under the cursor is the head of the lookahead, as long as it is not the NUL at the
end. -/
theorem peek_iff {c : Char} (hc : c ≠ '\x00') : l.peek = c ↔ l.lookahead.head? = some c := by
  cases hx : l.lookahead with
  | nil =>
    rw [peek_of_nil hx]
    exact iff_of_false hc.symm fun h => by cases h
  | cons a x =>
    rw [peek_of_cons hx]
    exact Option.some_inj.symm

theorem exists_of_head {c : Char} (h : x.head? = some c) : x = c :: x.tail := by
  cases x with
  | nil => cases h
  | cons a x => rw [Option.some.inj h, List.tail_cons]

/-- The loop over the segments. -/
theorem segmentLoop_front : ∀ {n : Nat} {l : Lexer}, l.lookahead.length < n →
    l.lookahead.head? = some '/' → segmentLoop n l = .ok (l.adv (segments l.lookahead).length)
  | 0, _, hn, _ => absurd hn (Nat.not_lt_zero _)
  | n + 1, l, hn, hhead => by
    have hx := exists_of_head hhead
    have hlook : (l.adv ((front isPchar l.lookahead.tail).length + 1)).lookahead =
        l.lookahead.tail.drop (front isPchar l.lookahead.tail).length := by
      rw [lookahead_adv, List.drop_tail]
    have hseg : segments l.lookahead = '/' :: (front isPchar l.lookahead.tail ++
        segments (l.lookahead.tail.drop (front isPchar l.lookahead.tail).length)) :=
      (congrArg segments hx).trans segments_slash
    rw [segmentLoop, expectSegment, doWhile_front reads_pchar hx, hseg]
    dsimp only
    split
    · next hpeek =>
      have hhead' := (peek_iff (by decide)).mp hpeek
      have hlen : (l.adv ((front isPchar l.lookahead.tail).length + 1)).lookahead.length < n := by
        rw [lookahead_adv, List.length_drop]
        rw [hx, List.length_cons] at hn ⊢
        omega
      rw [segmentLoop_front hlen hhead', adv_adv, hlook, List.length_cons, List.length_append]
      congr 2
      omega
    · next hpeek =>
      rw [segments_of_ne, List.append_nil, List.length_cons]
      rw [← hlook]
      exact fun h => hpeek ((peek_iff (by decide)).mpr h)

/-- The path behind an authority, which may be nothing. -/
theorem expectPathAbempty_front : expectPathAbempty l =
    .ok (l.adv (segments l.lookahead).length) := by
  rw [expectPathAbempty]
  split
  · next h =>
    rw [segments_of_ne fun hhead => h ((peek_iff (by decide)).mpr hhead)]
    rfl
  · next h =>
    exact segmentLoop_front (Nat.lt_succ_of_le (lookahead_length_le_slen l))
      ((peek_iff (by decide)).mp (not_not.mp h))

end Loops

/-! ## 2. Readers -/

/-- The text matched for a component, and the text behind it.  That of an IP-literal is without its
brackets; the closing one is matched with it. -/
structure Match where
  part : Part
  text : List Char
  literal : Bool
  behind : List Char
  deriving DecidableEq

abbrev Reading := Logged Unit (List Char) Match Unit

namespace Reading

def skip (n : Nat) : Reading := modify (·.drop n)

/-- Match `v`, which the text starts with. -/
def take (part : Part) (v : List Char) : Reading := do
  skip v.length
  let x ← get
  log [⟨part, v, false, x⟩]

def scheme : Reading := do
  let x ← get
  if x.head?.any Char.isAlpha then take .scheme (x.takeWhile schemeChar) else fail ()

def char (c : Char) : Reading := do
  let x ← get
  if x.head? = some c then skip 1 else fail ()

/-- A userinfo as user and password.  The first character is the user's, also if it is a colon. -/
def halves : List Char → List Match
  | [] => []
  | c :: y =>
    match y.dropWhile (· ≠ ':') with
    | [] => [⟨.user, c :: y, false, []⟩]
    | d :: z => [⟨.user, c :: y.takeWhile (· ≠ ':'), false, d :: z⟩, ⟨.pwd, z, false, []⟩]

/-- Any character, then characters of the class.  What is stored of it is read once more. -/
def userinfo (opt : Bool) : Reading := do
  let x ← get
  let v := x.take 1 ++ front isUserinfoChar x.tail
  if (x.drop v.length).head? = some '@' then do
    take .userinfo v
    log (if opt = true ∨ tokenSz ≤ v.length + 1 then [] else halves (trimBracket v))
    skip 1
  else fail ()

def userinfoOpt (opt : Bool) : Reading := do
  let x ← get
  if '@' ∈ x then userinfo opt else pure ()

/-- Behind the opening bracket. -/
def literal : Reading := do
  let x ← get
  let v := front isPchar x
  if (x.drop v.length).head? = some ']' then do
    skip (v.length + 1)
    let y ← get
    log [⟨.host, v, true, y⟩]
  else fail ()

/-- The look at a name moves the cursor over a broken escape, also if an IP-literal follows. -/
def host : Reading := do
  let x ← get
  if x.head?.any Char.isDigit then take .host (x.take 1 ++ x.tail.takeWhile ipv4Char)
  else if starts isNameChar x then take .host (front isNameChar x)
  else if (x.drop (ahead x)).head? = some '[' then do
    skip (ahead x + 1)
    literal
  else take .host (x.take (ahead x))

def portOpt : Reading := do
  let x ← get
  if x.head? = some ':' then do
    skip 1
    take .port (x.tail.takeWhile portChar)
  else pure ()

def abempty : Reading := do
  let x ← get
  take .path (segments x)

/-- A segment that is not empty, and the segments behind it. -/
def rootless (slash : List Char) : Reading := do
  let x ← get
  let y := x.drop slash.length
  if starts isPchar y then take .path (slash ++ (front isPchar y ++ segments
    (y.drop (front isPchar y).length)))
  else fail ()

def authority (opt : Bool) : Reading := do
  skip 2
  userinfoOpt opt
  host
  portOpt
  abempty

/-- The look at a path moves the cursor over the first digits of an escape, which are lost. -/
def hierPart (opt : Bool) : Reading := do
  let x ← get
  if x.take 2 = ['/', '/'] then authority opt
  else if x.head? = some '/' then rootless ['/']
  else do
    skip (ahead x)
    if starts isPchar x then rootless [] else take .path []

/-- A query or a fragment, or none. -/
def suffix (first : Char) (part : Part) : Reading := do
  let x ← get
  if x.head? = some first then do
    skip 1
    take part (front isQueryChar x.tail)
  else pure ()

def uri (opt : Bool) : Reading := do
  scheme
  char ':'
  hierPart opt
  suffix '?' .query
  suffix '#' .fragment

end Reading

/-- What is matched in a string, in the order in which it is come to. -/
def matched (s : List Char) (opt : Bool) : List Match := (Reading.uri opt (cString s)).1

/-- The string is read to the end of its last component. -/
def Accepted (s : List Char) (opt : Bool) : Prop :=
  ∃ x, (Reading.uri opt (cString s)).2 = .ok (x, ())

/-! ## 3. What is known of the matches -/

/-- The order in which the components are come to. -/
def Part.rank : Part → Nat
  | .scheme => 0
  | .userinfo => 1
  | .user => 2
  | .pwd => 3
  | .host => 4
  | .port => 5
  | .path => 6
  | .query => 7
  | .fragment => 8

/-- What is between the ends of the match. -/
def Match.raw (m : Match) : List Char := if m.literal then m.text ++ [']'] else m.text

/-- With the character behind it, and the NUL, it fits a buffer. -/
def Match.Fits (m : Match) : Prop := m.raw.length + 1 < tokenSz

instance (m : Match) : Decidable m.Fits := inferInstanceAs (Decidable (m.raw.length + 1 < tokenSz))

/-- Trimming a bracket makes nothing longer. -/
theorem trimBracket_length_le (v : List Char) : (trimBracket v).length ≤ v.length := by
  rw [trimBracket]
  split
  · rw [List.length_dropLast]
    exact Nat.sub_le _ _
  · exact Nat.le_refl _

/-- What is known of the matches of a userinfo, a user and a password. -/
structure Match.Sound (m : Match) : Prop where
  userinfo : m.part = .userinfo → m.behind ≠ []
  halves : m.part = .user ∨ m.part = .pwd → m.Fits

namespace Reading

variable {r r' : Reading} {x y : List Char} {a b c : Nat} {m : Match} {opt : Bool}

@[simp] theorem skip_apply (n : Nat) (x : List Char) : skip n x = ([], .ok (x.drop n, ())) := rfl

@[simp] theorem take_apply (part : Part) (v x : List Char) :
    take part v x = ([⟨part, v, false, x.drop v.length⟩], .ok (x.drop v.length, ())) := rfl

/-- A match behind some characters that are skipped. -/
theorem skip_take (n : Nat) (part : Part) (v x : List Char) : (skip n >>= fun _ => take part v) x =
    ([⟨part, v, false, (x.drop n).drop v.length⟩], .ok ((x.drop n).drop v.length, ())) := rfl

/-- From the text `x`, components of ranks `a` to `b` are matched, in this order. -/
structure Spans (a b : Nat) (r : Reading) (x : List Char) : Prop where
  sorted : ((r x).1.map (·.part.rank)).Pairwise (· < ·)
  within : ∀ m ∈ (r x).1, a ≤ m.part.rank ∧ m.part.rank < b
  literal : ∀ m ∈ (r x).1, m.literal = true → m.part = .host

/-- A reading without a match is within all bounds. -/
theorem spans_none (h : (r x).1 = []) : Spans a b r x := by
  refine ⟨?_, fun m hm => ?_, fun m hm => ?_⟩
  · rw [h]
    exact List.Pairwise.nil
  · rw [h] at hm
    exact absurd hm List.not_mem_nil
  · rw [h] at hm
    exact absurd hm List.not_mem_nil

/-- A single match, of a component between the bounds. -/
theorem spans_take (part : Part) (v x : List Char) (ha : a ≤ part.rank) (hb : part.rank < b) :
    Spans a b (take part v) x := by
  refine ⟨List.pairwise_singleton _ _, fun m hm => ?_, fun m hm h => ?_⟩
  · obtain rfl := List.mem_singleton.mp hm
    exact ⟨ha, hb⟩
  · obtain rfl := List.mem_singleton.mp hm
    cases h

/-- The bounds may be made wider. -/
theorem Spans.mono {a' b' : Nat} (h : Spans a b r x) (ha : a' ≤ a) (hb : b ≤ b') :
    Spans a' b' r x :=
  ⟨h.sorted, fun m hm => ⟨ha.trans (h.within m hm).1, (h.within m hm).2.trans_le hb⟩, h.literal⟩

theorem Spans.get_bind {f : List Char → Reading} (h : Spans a b (f x) x) :
    Spans a b (get >>= f) x := by
  have heq : (get >>= f) x = f x x := Logged.get_bind
  refine ⟨?_, ?_, ?_⟩
  · rw [heq]
    exact h.sorted
  · rw [heq]
    exact h.within
  · rw [heq]
    exact h.literal

/-- Two readings in a row, of components that are come to in this order, match each of them once. -/
theorem Spans.bind (h : Spans a b r x) (hab : a ≤ b) (hbc : b ≤ c) (h' : ∀ y, Spans b c r' y) :
    Spans a c (r >>= fun _ => r') x := by
  cases hr : (r x).2 with
  | error e =>
    have heq := bind_of_error (f := fun _ => r') hr
    refine ⟨?_, fun m hm => ?_, ?_⟩
    · rw [heq]
      exact h.sorted
    · rw [heq] at hm
      exact ⟨(h.within m hm).1, (h.within m hm).2.trans_le hbc⟩
    · rw [heq]
      exact h.literal
  | ok p =>
    obtain ⟨y, u⟩ := p
    have heq := bind_of_ok (f := fun _ => r') hr
    refine ⟨?_, fun m hm => ?_, fun m hm => ?_⟩
    · rw [heq, List.map_append, List.pairwise_append]
      refine ⟨h.sorted, (h' y).sorted, fun i hi j hj => ?_⟩
      obtain ⟨m, hm, rfl⟩ := List.mem_map.mp hi
      obtain ⟨m', hm', rfl⟩ := List.mem_map.mp hj
      exact (h.within m hm).2.trans_le ((h' y).within m' hm').1
    · rw [heq] at hm
      rcases List.mem_append.mp hm with hm | hm
      · exact ⟨(h.within m hm).1, (h.within m hm).2.trans_le hbc⟩
      · exact ⟨hab.trans ((h' y).within m hm).1, ((h' y).within m hm).2⟩
    · rw [heq] at hm
      rcases List.mem_append.mp hm with hm | hm
      · exact h.literal m hm
      · exact (h' y).literal m hm

/-- A step that matches nothing. -/
theorem Spans.skip_bind (n : Nat) (h : ∀ y, Spans a b r y) : Spans a b (skip n >>= fun _ => r) x :=
  ⟨(h _).sorted, (h _).within, (h _).literal⟩

/-- The scheme is come to first. -/
theorem spans_scheme (x : List Char) : Spans 0 1 scheme x := by
  refine Spans.get_bind ?_
  split
  · exact spans_take _ _ _ (by decide) (by decide)
  · exact spans_none rfl

theorem spans_char (d : Char) (x : List Char) : Spans a b (char d) x := by
  refine Spans.get_bind ?_
  split
  · exact spans_none rfl
  · exact spans_none rfl

theorem halves_spans (w : List Char) : Spans 2 4 (log (halves w)) x := by
  cases w with
  | nil => exact spans_none rfl
  | cons d y =>
    refine ⟨?_, fun m hm => ?_, fun m hm => ?_⟩
    · show ((halves (d :: y)).map (·.part.rank)).Pairwise (· < ·)
      rw [halves]
      split
      · exact List.pairwise_singleton _ _
      · simp [Part.rank]
    · have hm : m ∈ halves (d :: y) := hm
      rw [halves] at hm
      split at hm
      · obtain rfl := List.mem_singleton.mp hm
        simp [Part.rank]
      · simp only [List.mem_cons, List.not_mem_nil, or_false] at hm
        rcases hm with rfl | rfl
        · simp [Part.rank]
        · simp [Part.rank]
    · have hm : m ∈ halves (d :: y) := hm
      rw [halves] at hm
      split at hm
      · obtain rfl := List.mem_singleton.mp hm
        exact fun h => (by cases h)
      · simp only [List.mem_cons, List.not_mem_nil, or_false] at hm
        rcases hm with rfl | rfl
        · exact fun h => (by cases h)
        · exact fun h => (by cases h)

theorem spans_userinfoOpt (opt : Bool) (x : List Char) : Spans 1 4 (userinfoOpt opt) x := by
  refine Spans.get_bind ?_
  split
  · refine Spans.get_bind ?_
    dsimp only
    split
    · refine (spans_take (a := 1) (b := 2) _ _ _ (by decide) (by decide)).bind
        (by decide) (by decide)
        fun y => Spans.bind (b := 4) ?_ (by decide) (by decide) fun z => spans_none rfl
      split
      · exact spans_none rfl
      · exact halves_spans _
    · exact spans_none rfl
  · exact spans_none rfl

theorem spans_host (x : List Char) : Spans 4 5 host x := by
  refine Spans.get_bind ?_
  split
  · exact spans_take _ _ _ (by decide) (by decide)
  split
  · exact spans_take _ _ _ (by decide) (by decide)
  split
  · refine Spans.skip_bind _ fun y => Spans.get_bind ?_
    dsimp only
    split
    · refine Spans.skip_bind _ fun z => Spans.get_bind
        ⟨List.pairwise_singleton _ _, fun m hm => ?_, fun m hm _ => ?_⟩
      · obtain rfl := List.mem_singleton.mp hm
        simp [Part.rank]
      · obtain rfl := List.mem_singleton.mp hm
        rfl
    · exact spans_none rfl
  · exact spans_take _ _ _ (by decide) (by decide)

theorem spans_portOpt (x : List Char) : Spans 5 6 portOpt x := by
  refine Spans.get_bind ?_
  split
  · exact Spans.skip_bind _ fun y => spans_take _ _ _ (by decide) (by decide)
  · exact spans_none rfl

theorem spans_abempty (x : List Char) : Spans 6 7 abempty x :=
  Spans.get_bind (spans_take _ _ _ (by decide) (by decide))

theorem spans_rootless (v x : List Char) : Spans 6 7 (rootless v) x := by
  refine Spans.get_bind ?_
  dsimp only
  split
  · exact spans_take _ _ _ (by decide) (by decide)
  · exact spans_none rfl

/-- Userinfo, host, port and path are come to in this order, whichever of them are there. -/
theorem spans_hierPart (opt : Bool) (x : List Char) : Spans 1 7 (hierPart opt) x := by
  refine Spans.get_bind ?_
  split
  · exact Spans.skip_bind _ fun y => (spans_userinfoOpt opt y).bind (by decide) (by decide) fun y =>
      (spans_host y).bind (by decide) (by decide) fun y =>
        (spans_portOpt y).bind (by decide) (by decide) spans_abempty
  split
  · exact (spans_rootless _ x).mono (by decide) (by decide)
  · refine Spans.skip_bind _ fun y => ?_
    split
    · exact (spans_rootless _ y).mono (by decide) (by decide)
    · exact spans_take _ _ _ (by decide) (by decide)

/-- A query or a fragment is one component. -/
theorem spans_suffix (d : Char) (part : Part) (x : List Char) :
    Spans part.rank (part.rank + 1) (suffix d part) x := by
  refine Spans.get_bind ?_
  split
  · exact Spans.skip_bind _ fun y => spans_take _ _ _ (Nat.le_refl _) (Nat.lt_succ_self _)
  · exact spans_none rfl

/-- **Every component is matched once at most**, in the order of their ranks. -/
theorem spans_uri (opt : Bool) (x : List Char) : Spans 0 9 (uri opt) x :=
  (spans_scheme x).bind (by decide) (by decide) fun y =>
    (spans_char (a := 1) (b := 1) ':' y).bind (by decide) (by decide) fun y =>
      (spans_hierPart opt y).bind (by decide) (by decide) fun y =>
        (spans_suffix '?' .query y).bind (by decide) (by decide) (spans_suffix '#' .fragment)

/-- The reading goes on to its end. -/
def Done (r : Reading) (x : List Char) : Prop := ∃ y, (r x).2 = .ok (y, ())

/-- A match of a host, or of what follows a host, is of a text that is read to its end. -/
def Late (r : Reading) (x : List Char) : Prop := ∀ m ∈ (r x).1, 4 ≤ m.part.rank → Done r x

/-- Two readings in a row go on to the end if both do. -/
theorem Done.bind (h : Done r x) (h' : ∀ y, Done r' y) : Done (r >>= fun _ => r') x := by
  obtain ⟨y, hy⟩ := h
  obtain ⟨z, hz⟩ := h' y
  exact ⟨z, by rw [bind_snd, hy, ok_bind, hz]⟩

/-- What follows does not fail. -/
theorem Late.bind_done (h : Late r x) (h' : ∀ y, Done r' y) : Late (r >>= fun _ => r') x := by
  intro m hm hrank
  rcases mem_bind hm with hm | ⟨y, u, hy, -⟩
  · exact (h m hm hrank).bind h'
  · exact Done.bind ⟨y, hy⟩ h'

/-- What comes first is in front of the host. -/
theorem Late.bind (h : Spans a 4 r x) (h' : ∀ y, Late r' y) : Late (r >>= fun _ => r') x := by
  intro m hm hrank
  rcases mem_bind hm with hm | ⟨y, u, hy, hm⟩
  · exact absurd (h.within m hm).2 (Nat.not_lt.mpr hrank)
  · obtain ⟨z, hz⟩ := h' y m hm hrank
    exact ⟨z, by rw [bind_snd, hy, ok_bind, hz]⟩

/-- A host may fail, before it is matched. -/
theorem late_host (x : List Char) : Late host x := by
  intro m hm _
  rw [host, get_bind] at hm
  rw [Done, host, get_bind]
  split at hm
  · next h =>
    rw [if_pos h]
    exact ⟨_, rfl⟩
  next h =>
  rw [if_neg h]
  split at hm
  · next h =>
    rw [if_pos h]
    exact ⟨_, rfl⟩
  next h =>
  rw [if_neg h]
  split at hm
  · next h =>
    rw [if_pos h]
    obtain ⟨y, hy⟩ : Done literal (x.drop (ahead x + 1)) := by
      replace hm : m ∈ (literal (x.drop (ahead x + 1))).1 := hm
      rw [literal, get_bind] at hm
      rw [Done, literal, get_bind]
      split at hm
      · next h =>
        rw [if_pos h]
        exact ⟨_, rfl⟩
      · exact absurd hm List.not_mem_nil
    exact ⟨y, by rw [bind_snd, skip_apply, ok_bind, hy]⟩
  · next h =>
    rw [if_neg h]
    exact ⟨_, rfl⟩

/-- A port that has no digits is still a port. -/
theorem done_portOpt (x : List Char) : Done portOpt x := by
  rw [Done, portOpt, get_bind]
  split
  · exact ⟨_, rfl⟩
  · exact ⟨_, rfl⟩

/-- A path behind an authority may be empty, and so reading it never fails. -/
theorem done_abempty (x : List Char) : Done abempty x := ⟨_, rfl⟩

/-- Query and fragment never fail: they end where their characters end. -/
theorem done_suffix (d : Char) (part : Part) (x : List Char) : Done (suffix d part) x := by
  rw [Done, suffix, get_bind]
  split
  · exact ⟨_, rfl⟩
  · exact ⟨_, rfl⟩

/-- A path without an authority needs a first segment.  Where it has none the host was not matched.
-/
theorem late_rootless (v x : List Char) : Late (rootless v) x := by
  intro m hm _
  rw [rootless, get_bind] at hm
  rw [Done, rootless, get_bind]
  split at hm
  · next h =>
    rw [if_pos h]
    exact ⟨_, rfl⟩
  · exact absurd hm List.not_mem_nil

theorem Late.get_bind {f : List Char → Reading} (h : Late (f x) x) : Late (get >>= f) x := by
  have heq : (get >>= f) x = f x x := Logged.get_bind
  intro m hm hrank
  rw [heq] at hm
  rw [Done, heq]
  exact h m hm hrank

/-- A failure of the hierarchical part is in front of the host, or there is no host. -/
theorem late_hierPart (opt : Bool) (x : List Char) : Late (hierPart opt) x := by
  refine Late.get_bind ?_
  split
  · exact Late.bind (a := 0) (spans_none rfl) fun y => Late.bind (spans_userinfoOpt opt y) fun y =>
      (late_host y).bind_done fun y => (done_portOpt y).bind done_abempty
  split
  · exact late_rootless _ x
  · refine Late.bind (a := 0) (spans_none rfl) fun y => ?_
    split
    · exact late_rootless _ y
    · exact fun _ _ _ => ⟨_, rfl⟩

/-- **Nothing fails behind the host.** -/
theorem late_uri (opt : Bool) (x : List Char) : Late (uri opt) x :=
  Late.bind ((spans_scheme x).mono (Nat.le_refl 0) (by decide)) fun y =>
    Late.bind (spans_char (a := 0) ':' y) fun y => (late_hierPart opt y).bind_done fun y =>
      (done_suffix '?' .query y).bind (done_suffix '#' .fragment)

/-- A userinfo, a user and a password are matched where a userinfo is read. -/
theorem mem_userinfoOpt (hm : m ∈ (uri opt x).1) (h₁ : 1 ≤ m.part.rank) (h₄ : m.part.rank < 4) :
    ∃ y, m ∈ (userinfoOpt opt y).1 := by
  rcases mem_bind hm with hm | ⟨y, u, -, hm⟩
  · have hrank := (spans_scheme x).within m hm
    omega
  rcases mem_bind hm with hm | ⟨y, u, -, hm⟩
  · have hrank := (spans_char (a := 0) (b := 0) ':' y).within m hm
    omega
  rcases mem_bind hm with hm | ⟨z, u, -, hm⟩
  · rw [hierPart, get_bind] at hm
    split at hm
    · rcases mem_bind hm with hm | ⟨z, u, -, hm⟩
      · exact absurd hm List.not_mem_nil
      rcases mem_bind hm with hm | ⟨z', u, -, hm⟩
      · exact ⟨z, hm⟩
      have hrank := ((spans_host z').bind (by decide) (by decide) fun y =>
        (spans_portOpt y).bind (by decide) (by decide) spans_abempty).within m hm
      omega
    split at hm
    · have hrank := (spans_rootless _ y).within m hm
      omega
    · replace hm := (mem_bind hm).resolve_left List.not_mem_nil
      obtain ⟨z, u, -, hm⟩ := hm
      split at hm
      · have hrank := (spans_rootless _ z).within m hm
        omega
      · obtain rfl := List.mem_singleton.mp hm
        exact absurd h₄ (by simp [Part.rank])
  have hrank := ((spans_suffix '?' .query z).bind (by decide) (by decide)
    (spans_suffix '#' .fragment)).within m hm
  have hquery : Part.query.rank = 7 := rfl
  omega

/-- The one match of a component that is taken. -/
theorem mem_take {part : Part} {v : List Char} (hm : m ∈ (take part v x).1) :
    m = ⟨part, v, false, x.drop v.length⟩ := List.mem_singleton.mp hm

/-- The halves of a userinfo fit if the userinfo does. -/
theorem halves_fits {w : List Char} (h : w.length + 1 < tokenSz) (hm : m ∈ halves w) : m.Fits := by
  cases w with
  | nil => exact absurd hm List.not_mem_nil
  | cons c y =>
    have hlen := congrArg List.length (List.takeWhile_append_dropWhile (p := (· ≠ ':')) (l := y))
    rw [List.length_append] at hlen
    rw [List.length_cons] at h
    rw [halves] at hm
    split at hm
    · obtain rfl := List.mem_singleton.mp hm
      rwa [Match.Fits, Match.raw, if_neg Bool.false_ne_true]
    · next d z heq =>
      rw [heq, List.length_cons] at hlen
      simp only [List.mem_cons, List.not_mem_nil, or_false] at hm
      rcases hm with rfl | rfl
      · rw [Match.Fits, Match.raw, if_neg Bool.false_ne_true, List.length_cons]
        omega
      · rw [Match.Fits, Match.raw, if_neg Bool.false_ne_true]
        dsimp only
        omega

/-- The matches of a userinfo and of its halves say what is behind them. -/
theorem sound_userinfoOpt (hm : m ∈ (userinfoOpt opt x).1) : m.Sound := by
  rw [userinfoOpt, get_bind] at hm
  split at hm
  · rw [userinfo, get_bind] at hm
    split at hm
    · next hat =>
      rcases mem_bind hm with hm | ⟨y, u, -, hm⟩
      · obtain rfl := mem_take hm
        refine ⟨fun _ hnil => ?_, fun h => by rcases h with h | h <;> cases h⟩
        dsimp only at hnil
        rw [hnil] at hat
        cases hat
      rcases mem_bind hm with hm | ⟨z, u, -, hm⟩
      · replace hm : m ∈ (if opt = true ∨ tokenSz ≤
          (x.take 1 ++ front isUserinfoChar x.tail).length + 1
            then [] else halves (trimBracket (x.take 1 ++ front isUserinfoChar x.tail))) := hm
        split at hm
        · exact absurd hm List.not_mem_nil
        · next hnot =>
          have hlt := Nat.not_le.mp (not_or.mp hnot).2
          have hle := trimBracket_length_le (x.take 1 ++ front isUserinfoChar x.tail)
          have hrank := (halves_spans (x := x) (trimBracket
            (x.take 1 ++ front isUserinfoChar x.tail))).within m hm
          refine ⟨fun h => ?_, fun _ => halves_fits (by omega) hm⟩
          rw [h] at hrank
          exact absurd hrank.1 (by decide)
      · exact absurd hm List.not_mem_nil
    · exact absurd hm List.not_mem_nil
  · exact absurd hm List.not_mem_nil

/-- Every match of a text is one: component by component, from the lemmas above. -/
theorem sound_uri (hm : m ∈ (uri opt x).1) : m.Sound := by
  by_cases h : 1 ≤ m.part.rank ∧ m.part.rank < 4
  · obtain ⟨y, hy⟩ := mem_userinfoOpt hm h.1 h.2
    exact sound_userinfoOpt hy
  · refine ⟨fun hpart => absurd ?_ h, fun hpart => absurd ?_ h⟩
    · rw [hpart]
      decide
    · rcases hpart with hpart | hpart
      · rw [hpart]
        decide
      · rw [hpart]
        decide

/-- The match of the scheme is the one of the reader of the scheme. -/
theorem mem_scheme (hm : m ∈ (uri opt x).1) (hpart : m.part = .scheme) : m ∈ (scheme x).1 := by
  rcases mem_bind hm with hm | ⟨y, u, -, hm⟩
  · exact hm
  have hrank := ((spans_char (a := 1) (b := 1) ':' y).bind (by decide) (by decide) fun y =>
    (spans_hierPart opt y).bind (by decide) (by decide) fun y =>
      (spans_suffix '?' .query y).bind (by decide) (by decide)
      (spans_suffix '#' .fragment)).within m hm
  rw [hpart] at hrank
  exact absurd hrank.1 (by decide)

/-- A scheme starts with a letter. -/
theorem scheme_text (hm : m ∈ (uri opt x).1) (hpart : m.part = .scheme) : m.text ≠ [] := by
  have hmem := mem_scheme hm hpart
  rw [scheme, get_bind] at hmem
  split at hmem
  · next halpha =>
    obtain rfl := mem_take hmem
    cases x with
    | nil => cases halpha
    | cons c x =>
      dsimp only
      rw [List.takeWhile_cons_of_pos (schemeChar_of_isAlpha halpha)]
      exact List.cons_ne_nil _ _
  · exact absurd hmem List.not_mem_nil

/-- Behind the scheme of an accepted text is a colon. -/
theorem scheme_behind (h : Done (uri opt) x) (hm : m ∈ (uri opt x).1) (hpart : m.part = .scheme) :
    m.behind ≠ [] := by
  obtain ⟨z, hz⟩ := h
  rw [uri, bind_snd] at hz
  obtain ⟨⟨y, u⟩, hy, hz⟩ := bind_eq_ok.mp hz
  dsimp only at hz
  rw [bind_snd] at hz
  obtain ⟨⟨y', u'⟩, hcolon, -⟩ := bind_eq_ok.mp hz
  have hmem := mem_scheme hm hpart
  rw [scheme, get_bind] at hmem hy
  split at hmem
  · next halpha =>
    rw [if_pos halpha, take_apply] at hy
    obtain rfl := mem_take hmem
    obtain ⟨rfl, -⟩ := Prod.mk.inj (Except.ok.inj hy)
    intro hnil
    dsimp only at hnil
    rw [char, get_bind, hnil] at hcolon
    cases hcolon
  · exact absurd hmem List.not_mem_nil

end Reading

end Libu.Uri
