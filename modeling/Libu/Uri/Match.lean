/-
# What the matchers match

The parser is made of matchers and of loops over them, and each matcher is a test for a class of
characters with an escape as an alternative.  Two things are made of that here.  One is about text
of the grammar: a loop at an encoded string of its class passes over the whole of it.  The other is
about any text: whatever a loop has passed over, it was characters of the class and percent signs.

* §1: strings with percent encodings, in which the productions of the grammar are read.
* §2: a matcher that tests the character under the cursor tests for a class (`Tests`), apart from
  what it does on a percent sign.  A loop over such a test passes over an encoded string of the
  class (`whileMatch_eq`), and whatever the text is, it passes over characters of the class and
  percent signs only (`whileMatch_moves`).
* §3: what a match leaves in the buffer.
-/
import Libu.Uri.Grammar

namespace Libu.Uri

open Verif Lexer

variable {l l' : Lexer} {c : Char} {v w x : List Char} {p q : Char → Bool}

/-! ## 1. Encoded strings -/

/-- The class has the hexadecimal digits. -/
def Hexy (p : Char → Bool) : Prop := ∀ c, isXDigit c = true → p c = true

/-- The class and the percent sign. -/
def orPct (p : Char → Bool) (c : Char) : Bool := p c || c = '%'

theorem orPct_of {p : Char → Bool} (h : p c = true) : orPct p c = true := by
  rw [orPct, h]
  rfl

/-- A character that is neither of the class nor a percent sign ends a loop. -/
theorem orPct_eq_false (hc : p c = false) (hpct : c ≠ '%') : orPct p c = false := by
  rw [orPct, hc, Bool.false_or]
  exact decide_eq_false hpct

/-- A hexadecimal digit is a letter or a digit. -/
theorem isAlphanum_of_isXDigit (h : isXDigit c = true) : c.isAlphanum = true := by
  simp only [isXDigit, Bool.or_eq_true, Bool.and_eq_true, decide_eq_true_eq] at h
  rcases h with (h | ⟨h, h'⟩) | ⟨h, h'⟩
  · exact Bool.or_eq_true_iff.mpr (.inr h)
  · have hlower : c.isLower = true := Bool.and_eq_true_iff.mpr
      ⟨decide_eq_true h, decide_eq_true (Nat.le_trans h' (by decide))⟩
    exact Bool.or_eq_true_iff.mpr (.inl (Bool.or_eq_true_iff.mpr (.inr hlower)))
  · have hupper : c.isUpper = true := decide_eq_true ⟨h, Nat.le_trans h' (by decide)⟩
    exact Bool.or_eq_true_iff.mpr (.inl (Bool.or_eq_true_iff.mpr (.inl hupper)))

/-- The characters of names include the digits of an escape, and the wider classes those of names.
-/
theorem hexy_name : Hexy isNameChar := by
  intro c h
  rw [isNameChar, isUnreserved, isAlphanum_of_isXDigit h]
  rfl

theorem Hexy.mono (h : Hexy p) (hpq : ∀ c, p c = true → q c = true) : Hexy q :=
  fun c hc => hpq c (h c hc)

/-- A userinfo has the colon besides. -/
theorem userinfo_of_name (h : isNameChar c = true) : isUserinfoChar c = true := by
  rw [isUserinfoChar, h]
  rfl

/-- A segment has the `@` besides. -/
theorem pchar_of_userinfo (h : isUserinfoChar c = true) : isPchar c = true := by
  rw [isPchar, h]
  rfl

/-- A query has the slash and the question mark besides. -/
theorem query_of_pchar (h : isPchar c = true) : isQueryChar c = true := by
  rw [isQueryChar, h]
  rfl

theorem hexy_userinfo : Hexy isUserinfoChar := hexy_name.mono fun _ => userinfo_of_name

theorem hexy_pchar : Hexy isPchar := hexy_userinfo.mono fun _ => pchar_of_userinfo

theorem hexy_query : Hexy isQueryChar := hexy_pchar.mono fun _ => query_of_pchar

/-- An encoded string of a class is one of a wider class. -/
theorem Encoded.mono (h : ∀ c, p c = true → q c = true) (hv : Encoded p v) : Encoded q v := by
  induction hv with
  | nil => exact .nil
  | plain hc _ ih => exact .plain (h _ hc) ih
  | pct ha hb _ ih => exact .pct ha hb ih

/-- Two encoded strings in a row. -/
theorem Encoded.append (hv : Encoded p v) (hw : Encoded p w) : Encoded p (v ++ w) := by
  induction hv with
  | nil => exact hw
  | plain hc _ ih => exact .plain hc ih
  | pct ha hb _ ih => exact .pct ha hb ih

/-- A string without an escape is encoded. -/
theorem encoded_of_allIn (h : AllIn p v) : Encoded p v := by
  induction v with
  | nil => exact .nil
  | cons c v ih =>
    obtain ⟨hc, hv⟩ := allIn_cons.mp h
    exact .plain hc (ih hv)

/-- The digits of an escape are of the class as well, and so an encoded string has only characters
of the class and percent signs. -/
theorem Encoded.allIn (hp : Hexy p) (hv : Encoded p v) : AllIn (orPct p) v := by
  induction hv with
  | nil => exact allIn_nil
  | plain hc _ ih => exact allIn_cons.mpr ⟨orPct_of hc, ih⟩
  | pct ha hb _ ih =>
    exact allIn_cons.mpr ⟨by simp [orPct], allIn_cons.mpr
      ⟨orPct_of (hp _ ha), allIn_cons.mpr ⟨orPct_of (hp _ hb), ih⟩⟩⟩

/-- The rest of an encoded string is one too, also behind a percent sign. -/
theorem Encoded.tail (hp : Hexy p) (h : Encoded p (c :: v)) : Encoded p v := by
  cases h with
  | plain _ hv => exact hv
  | pct ha hb hv => exact .plain (hp _ ha) (.plain (hp _ hb) hv)

/-- A character out of the class is not in an encoded string: it is what ends a component. -/
theorem Encoded.not_mem (hp : Hexy p) (hv : Encoded p v) (hc : p c = false) (hpct : c ≠ '%') :
    c ∉ v := by
  intro hmem
  have hor := hv.allIn hp c hmem
  rw [orPct_eq_false hc hpct] at hor
  exact absurd hor (by decide)

/-! ## 2. Tests and loops -/

/-- The matcher tests for a character of the class. -/
structure Tests (m : Lexer → Bool × Lexer) (p : Char → Bool) : Prop where
  percent : p '%' = false
  nil : ∀ {l}, l.lookahead = [] → m l = (false, l)
  plain : ∀ {l c x}, l.lookahead = c :: x → c ≠ '%' → m l = (p c, l)
  pct : ∀ {l a b x}, l.lookahead = '%' :: a :: b :: x → isXDigit a = true → isXDigit b = true →
    m l = (true, l.adv 2)
  moves : ∀ l, ∃ w x, l.lookahead = w ++ x ∧ (m l).2 = l.adv w.length ∧ AllIn (orPct p) w ∧
    ((m l).1 = true → ∃ c y, x = c :: y ∧ p c = true)

/-- What `u_uri_expect_pct_encoded` does at a percent sign. -/
theorem expectPctEncoded_pct {a b : Char} (h : l.lookahead = '%' :: a :: b :: x)
    (ha : isXDigit a = true) (hb : isXDigit b = true) : expectPctEncoded l = (true, l.adv 2) := by
  have h₁ : (l.adv 1).lookahead = a :: b :: x := lookahead_adv_append (t := ['%']) h
  have h₂ : (l.adv 2).lookahead = b :: x := lookahead_adv_append (t := ['%', a]) h
  have hnext₂ : (l.adv 1).next = (some b, l.adv 2) := by
    rw [next_cons h₁, adv_adv, peek_of_cons h₂]
  rw [expectPctEncoded, if_neg (by simp [peek_of_cons h]), hexLoop, next_cons h, peek_of_cons h₁]
  simp [ha, hexLoop, hnext₂, hb]

/-- Whether or not it finds an escape, it passes over the percent sign and hexadecimal digits. -/
theorem expectPctEncoded_moves (h : l.lookahead = '%' :: x) :
    ∃ w y, x = w ++ y ∧ (expectPctEncoded l).2 = l.adv (w.length + 1) ∧ AllIn isXDigit w ∧
      ((expectPctEncoded l).1 = true → ∃ b z, y = b :: z ∧ isXDigit b = true) := by
  have h₁ : (l.adv 1).lookahead = x := lookahead_adv_append (t := ['%']) h
  have heq : expectPctEncoded l =
      if !isXDigit (l.adv 1).peek then (false, l.adv 1) else hexLoop 1 (l.adv 1) := by
    rw [expectPctEncoded, if_neg (by simp [peek_of_cons h]), hexLoop, next_cons h]
  rw [heq]
  by_cases ha : isXDigit (l.adv 1).peek = true
  · obtain ⟨y, hy⟩ := exists_cons rfl (fun hnul => by rw [hnul] at ha; exact absurd ha (by decide))
    have h₂ : ((l.adv 1).adv 1).lookahead = y := lookahead_adv_append (t := [_]) hy
    rw [if_neg (by simp [ha]), hexLoop, next_cons hy, adv_adv]
    rw [adv_adv] at h₂
    refine ⟨[(l.adv 1).peek], y, h₁.symm.trans hy, ?_, allIn_cons.mpr ⟨ha, allIn_nil⟩, ?_⟩
    · dsimp only
      split <;> rfl
    · dsimp only
      split
      · exact fun h => Bool.noConfusion h
      · next hb =>
        intro _
        obtain ⟨z, hz⟩ := exists_cons (l := l.adv (1 + 1)) rfl fun hnul => by
          rw [hnul] at hb
          exact absurd hb (by decide)
        exact ⟨_, z, h₂.symm.trans hz, by simpa using hb⟩
  · rw [if_pos (by simpa using ha)]
    exact ⟨[], x, rfl, rfl, allIn_nil, fun h => Bool.noConfusion h⟩

theorem matchUps_char (c : Char) : (c ∈ upsMarks || c.isAlphanum) = isNameChar c := by
  rw [Bool.eq_iff_iff]
  simp only [upsMarks, isNameChar, isUnreserved, isSubDelim, Bool.or_eq_true, decide_eq_true_eq,
    List.mem_cons, List.not_mem_nil, or_false]
  grind

/-- The matcher of the characters of names, which the other three extend. -/
theorem tests_ups : Tests matchUps isNameChar where
  percent := rfl
  nil h := by
    rw [matchUps, peek_of_nil h]
    rfl
  plain h hpct := by
    rw [matchUps, peek_of_cons h, if_neg hpct, matchUps_char]
  pct h ha hb := by
    rw [matchUps, peek_of_cons h, if_pos rfl]
    exact expectPctEncoded_pct h ha hb
  moves l := by
    by_cases hpct : l.peek = '%'
    · obtain ⟨x, hx⟩ := exists_cons hpct (by decide)
      obtain ⟨w, y, rfl, hadv, hw, hb⟩ := expectPctEncoded_moves hx
      rw [matchUps, if_pos hpct]
      refine ⟨'%' :: w, y, hx, hadv, allIn_cons.mpr ⟨rfl, ?_⟩, ?_⟩
      · exact fun c hc => orPct_of (hexy_name c (hw c hc))
      · intro htrue
        obtain ⟨b, z, hy, hxb⟩ := hb htrue
        exact ⟨b, z, hy, hexy_name b hxb⟩
    · rw [matchUps, if_neg hpct, matchUps_char]
      refine ⟨[], l.lookahead, rfl, rfl, allIn_nil, fun htrue => ?_⟩
      replace htrue : isNameChar l.peek = true := htrue
      obtain ⟨y, hy⟩ := exists_cons (l := l) rfl fun hnul => by
        rw [hnul] at htrue
        exact absurd htrue (by decide)
      exact ⟨_, y, hy, htrue⟩

/-- A matcher that first looks for some characters more. -/
theorem Tests.orElse {m m' : Lexer → Bool × Lexer} (h : Tests m p)
    (hm : ∀ l, m' l = if q l.peek then (true, l) else m l) (hnul : q '\x00' = false)
    (hpct : q '%' = false) : Tests m' fun c => p c || q c where
  percent := by rw [h.percent, hpct]; rfl
  nil hl := by
    rw [hm, peek_of_nil hl, hnul]
    exact h.nil hl
  plain hl hc := by
    rw [hm, peek_of_cons hl, h.plain hl hc]
    split
    · next hq => rw [hq, Bool.or_true]
    · next hq => rw [Bool.eq_false_iff.mpr hq, Bool.or_false]
  pct hl ha hb := by
    rw [hm, peek_of_cons hl, hpct]
    exact h.pct hl ha hb
  moves l := by
    rw [hm]
    split
    · next hq =>
      obtain ⟨y, hy⟩ := exists_cons (l := l) rfl fun h => by
        rw [h, hnul] at hq
        exact absurd hq (by decide)
      exact ⟨[], l.lookahead, rfl, rfl, allIn_nil, fun _ => ⟨_, y, hy, by rw [hq, Bool.or_true]⟩⟩
    · obtain ⟨w, x, hl, hadv, hw, htrue⟩ := h.moves l
      refine ⟨w, x, hl, hadv, fun c hc => ?_, fun ht => ?_⟩
      · have hor := hw c hc
        simp only [orPct, Bool.or_eq_true] at hor ⊢
        exact hor.imp_left .inl
      · obtain ⟨c, y, hx, hc⟩ := htrue ht
        exact ⟨c, y, hx, by rw [hc, Bool.true_or]⟩

theorem tests_userinfo : Tests matchPcharMinusAtSign isUserinfoChar :=
  tests_ups.orElse (q := (· = ':')) (fun l => by simp [matchPcharMinusAtSign]) rfl rfl

theorem tests_pchar : Tests matchPchar isPchar :=
  tests_userinfo.orElse (q := (· = '@')) (fun l => by simp [matchPchar]) rfl rfl

theorem tests_query : Tests matchQueryChar isQueryChar := by
  have h : Tests matchQueryChar fun c => isPchar c || (c = '/' || c = '?') :=
    tests_pchar.orElse (q := fun c => c = '/' || c = '?')
    (fun l => by simp [matchQueryChar]) rfl rfl
  have hclass : (fun c => isPchar c || (c = '/' || c = '?')) = isQueryChar :=
    funext fun c => (Bool.or_assoc _ _ _).symm
  rwa [hclass] at h

/-- What is inside the brackets of a literal: the source takes the characters of a segment for it,
and stops at the bracket. -/
theorem tests_literal : Tests matchLiteralChar isPchar where
  percent := rfl
  nil h := by
    rw [matchLiteralChar, tests_pchar.nil h]
    rfl
  plain := by
    intro l c x h hpct
    rw [matchLiteralChar, tests_pchar.plain h hpct, peek_of_cons h]
    have hbracket : isPchar c = true → c ≠ ']' := by
      rintro hc rfl
      exact absurd hc (by decide)
    cases hc : isPchar c with
    | false => rfl
    | true => simp [hbracket hc]
  pct h ha hb := by
    rw [matchLiteralChar, tests_pchar.pct h ha hb, peek_of_cons h]
    rfl
  moves l := by
    obtain ⟨w, x, hl, hadv, hw, htrue⟩ := tests_pchar.moves l
    refine ⟨w, x, hl, hadv, hw, fun ht => htrue ?_⟩
    rw [matchLiteralChar] at ht
    exact (Bool.and_eq_true_iff.mp ht).1

theorem nextOrErr_cons (h : l.lookahead = c :: x) :
    nextOrErr l = .ok (l.adv 1, (l.adv 1).peek) := by
  rw [nextOrErr, next_cons h]

theorem lookahead_length_le_slen (l : Lexer) : l.lookahead.length ≤ l.slen := by
  rw [lookahead, List.length_drop]
  exact Nat.sub_le _ _

/-- Text at which a loop over the class ends. -/
abbrev Ends (p : Char → Bool) (x : List Char) : Prop := Stops (orPct p) x

/-- At text that ends a loop the matcher fails and leaves the cursor where it is. -/
theorem Tests.ends {m : Lexer → Bool × Lexer} (h : Tests m p) (hx : Ends p l.lookahead) :
    m l = (false, l) := by
  cases hl : l.lookahead with
  | nil => exact h.nil hl
  | cons c x =>
    rw [hl] at hx
    have hc : orPct p c = false := stops_cons.mp hx
    simp only [orPct, Bool.or_eq_false_iff, decide_eq_false_iff_not] at hc
    rw [h.plain hl hc.2, hc.1]

/-- **A loop over the class passes over an encoded string of the class.** -/
theorem whileMatch_eq {m : Lexer → Bool × Lexer} (h : Tests m p) (hv : Encoded p v) :
    ∀ {n : Nat} {l : Lexer}, v.length < n → l.lookahead = v ++ x → Ends p x →
      whileMatch m n l = .ok (l.adv v.length) := by
  induction hv with
  | nil =>
    intro n l hn hl hx
    obtain ⟨n, rfl⟩ := Nat.exists_eq_succ_of_ne_zero (Nat.ne_zero_of_lt hn)
    rw [whileMatch, h.ends (hl ▸ hx)]
    rfl
  | @plain c v hc _ ih =>
    intro n l hn hl hx
    obtain ⟨n, rfl⟩ := Nat.exists_eq_succ_of_ne_zero (Nat.ne_zero_of_lt hn)
    have hpct : c ≠ '%' := by
      rintro rfl
      rw [h.percent] at hc
      exact absurd hc (by decide)
    have hadv : (l.adv 1).lookahead = v ++ x := lookahead_adv_append (t := [c]) hl
    rw [whileMatch, h.plain hl hpct, hc]
    simp only [nextOrErr_cons hl]
    have hrest := ih (Nat.lt_of_succ_lt_succ hn) hadv hx
    rw [adv_adv, Nat.add_comm] at hrest
    exact hrest
  | @pct a b v ha hb _ ih =>
    intro n l hn hl hx
    obtain ⟨n, rfl⟩ := Nat.exists_eq_succ_of_ne_zero (Nat.ne_zero_of_lt hn)
    have hadv₂ : (l.adv 2).lookahead = b :: (v ++ x) := lookahead_adv_append (t := ['%', a]) hl
    have hadv : (l.adv 3).lookahead = v ++ x := lookahead_adv_append (t := ['%', a, b]) hl
    rw [whileMatch, h.pct hl ha hb]
    simp only [nextOrErr_cons hadv₂, adv_adv]
    have hn' : v.length < n := by
      simp only [List.length_cons] at hn
      omega
    have hrest := ih hn' hadv hx
    rw [adv_adv, Nat.add_comm] at hrest
    exact hrest

/-- **Whatever the text, a loop over the class passes over characters of the class and percent
signs.** -/
theorem whileMatch_moves {m : Lexer → Bool × Lexer} (h : Tests m p) :
    ∀ {n : Nat} {l : Lexer}, l.lookahead.length < n → ∃ w x, l.lookahead = w ++ x ∧
      whileMatch m n l = .ok (l.adv w.length) ∧ AllIn (orPct p) w := by
  intro n
  induction n with
  | zero => exact fun hn => absurd hn (Nat.not_lt_zero _)
  | succ n ih =>
    intro l hn
    obtain ⟨w, x, hl, hadv, hw, htrue⟩ := h.moves l
    rw [whileMatch]
    cases hm : m l with
    | mk b l₁ =>
      rw [hm] at hadv htrue
      obtain rfl : l₁ = l.adv w.length := hadv
      cases b with
      | false => exact ⟨w, x, hl, rfl, hw⟩
      | true =>
        obtain ⟨c, y, rfl, hc⟩ := htrue rfl
        have hx : (l.adv w.length).lookahead = c :: y := lookahead_adv_append hl
        have hy : ((l.adv w.length).adv 1).lookahead = y := lookahead_adv_append (t := [c]) hx
        rw [adv_adv] at hy
        have hlen : (l.adv (w.length + 1)).lookahead.length < n := by
          rw [hy]
          rw [hl, List.length_append, List.length_cons] at hn
          omega
        obtain ⟨w', z, hl', hrest, hw'⟩ := ih hlen
        refine ⟨w ++ c :: w', z, ?_, ?_, ?_⟩
        · rw [hl, ← hy, hl', List.append_assoc, List.cons_append]
        · simp only [nextOrErr_cons hx, adv_adv]
          refine hrest.trans ?_
          rw [adv_adv, List.length_append, List.length_cons, Nat.add_assoc, Nat.add_comm 1]
        · exact allIn_append.mpr ⟨hw, allIn_cons.mpr ⟨orPct_of hc, hw'⟩⟩

/-- The first turn of a `do ... while` loop takes any character. -/
theorem doWhile_eq {m : Lexer → Bool × Lexer} (h : Tests m p) (hv : Encoded p v)
    (hl : l.lookahead = c :: (v ++ x)) (hx : Ends p x) :
    doWhile m l = .ok (l.adv (v.length + 1)) := by
  have hadv : (l.adv 1).lookahead = v ++ x := lookahead_adv_append (t := [c]) hl
  have hlen := lookahead_length_le_slen (l.adv 1)
  rw [hadv, List.length_append] at hlen
  have hloop := whileMatch_eq h hv (n := (l.adv 1).slen + 1) (by omega) hadv hx
  rw [adv_adv, Nat.add_comm 1 v.length] at hloop
  rw [doWhile]
  simp only [nextOrErr_cons hl]
  exact hloop

/-- Whatever the text is, a `do ... while` loop takes its first character unseen and goes on over
characters of the class and percent signs. -/
theorem doWhile_moves {m : Lexer → Bool × Lexer} (h : Tests m p) (hl : l.lookahead = c :: x) :
    ∃ w y, x = w ++ y ∧ doWhile m l = .ok (l.adv (w.length + 1)) ∧ AllIn (orPct p) w := by
  have hadv : (l.adv 1).lookahead = x := lookahead_adv_append (t := [c]) hl
  obtain ⟨w, y, hx, hloop, hw⟩ := whileMatch_moves h (n := (l.adv 1).slen + 1)
    (Nat.lt_succ_of_le (lookahead_length_le_slen (l.adv 1)))
  refine ⟨w, y, hadv.symm.trans hx, ?_, hw⟩
  rw [adv_adv, Nat.add_comm 1 w.length] at hloop
  rw [doWhile]
  simp only [nextOrErr_cons hl]
  exact hloop

/-- A test and a `do ... while` loop together pass over an encoded string that is not empty. -/
theorem first_doWhile {m : Lexer → Bool × Lexer} (h : Tests m p) (hv : Encoded p v)
    (hne : v ≠ []) (hl : l.lookahead = v ++ x) (hx : Ends p x) :
    ∃ k, m l = (true, l.adv k) ∧ k < v.length ∧ doWhile m (l.adv k) = .ok (l.adv v.length) := by
  cases hv with
  | nil => exact absurd rfl hne
  | @plain c v hc hv =>
    have hpct : c ≠ '%' := by
      rintro rfl
      rw [h.percent] at hc
      exact absurd hc (by decide)
    refine ⟨0, ?_, Nat.succ_pos _, doWhile_eq h hv hl hx⟩
    rw [h.plain hl hpct, hc]
    rfl
  | @pct a b v ha hb hv =>
    have hadv : (l.adv 2).lookahead = b :: (v ++ x) := lookahead_adv_append (t := ['%', a]) hl
    refine ⟨2, h.pct hl ha hb, by simp, ?_⟩
    rw [doWhile_eq h hv hadv hx, adv_adv, Nat.add_comm]
    rfl

/-! ## 3. Buffers -/

/-- What a buffer that had `old` has after the match `v`, with `x` to come.  With the character
behind the match, and the NUL, it has to fit. -/
def stored (old : Token) (v x : List Char) : Token :=
  if v.length + 1 < tokenSz then some v else if x = [] then old else chop old

/-- A match with room for itself and one character more is stored. -/
theorem stored_of_lt {old : Token} (h : v.length + 1 < tokenSz) :
    stored old v x = some v := if_pos h

theorem chop_append (v : List Char) (c : Char) : chop (some (v ++ [c])) = some v := by
  rw [chop, Option.bind_some, if_neg (by simp), List.dropLast_concat]

/-- The match between the left end and the cursor. -/
theorem getMatch_cursor (hl : l.s.drop l.lmatch = v ++ x) (hpos : l.pos = l.lmatch + v.length) :
    l.recordRmatch.getMatch = if tokenSz ≤ v.length + 1 then none else some (v ++ x.take 1) := by
  rw [getMatch, if_neg (by simp [recordRmatch]; omega)]
  simp only [recordRmatch, hpos, hl, List.take_append, Nat.add_sub_cancel_left]
  rw [List.take_of_length_le (Nat.le_succ _)]

/-- Behind the match is the lookahead of the cursor. -/
theorem lookahead_cursor (hl : l.s.drop l.lmatch = v ++ x) (hpos : l.pos = l.lmatch + v.length) :
    l.lookahead = x := by
  rw [lookahead, hpos, ← List.drop_drop, hl, List.drop_left]

/-- What `u_uri_adjust_greedy_match` leaves in a buffer: the match with its last character cut off,
or the old string where the match did not fit, and of that the closing bracket is trimmed. -/
theorem adjust_eq (hl : l.s.drop l.lmatch = v ++ x) (hpos : l.pos = l.lmatch + v.length)
    (old : Token) : adjustGreedyMatch l.recordRmatch old = (stored old v x).map trimBracket := by
  have hx := lookahead_cursor hl hpos
  rw [adjustGreedyMatch, getMatchInto, getMatch_cursor hl hpos, stored]
  cases x with
  | nil =>
    have heot : l.recordRmatch.eot = true := eot_iff.mpr hx
    rw [heot, if_pos rfl]
    by_cases hlt : v.length + 1 < tokenSz
    · rw [if_neg (Nat.not_le.mpr hlt), if_pos hlt]
      simp
    · rw [if_pos (Nat.not_lt.mp hlt), if_neg hlt]
      simp
  | cons c y =>
    have heot : l.recordRmatch.eot = false := eot_of_cons hx
    rw [heot]
    by_cases hlt : v.length + 1 < tokenSz
    · rw [if_neg (Nat.not_le.mpr hlt), if_pos hlt]
      simp [chop_append]
    · rw [if_pos (Nat.not_lt.mp hlt), if_neg hlt]
      simp

/-- Nothing is trimmed where there is no bracket. -/
theorem trimBracket_of_not_mem (h : ']' ∉ v) : trimBracket v = v := by
  rw [trimBracket, if_neg]
  intro hlast
  exact h (List.mem_of_getLast? hlast)

theorem trimBracket_append (v : List Char) : trimBracket (v ++ [']']) = v := by
  rw [trimBracket, if_pos (by simp), List.dropLast_concat]

end Libu.Uri
