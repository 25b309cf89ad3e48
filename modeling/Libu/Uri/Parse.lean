/-
# What the parsers read

One lemma for each parser: on the text of a component, followed by text in which the component ends,
it stops at the end of the component and stores it.  Where the text of a component is told by its
end, as for the scheme, there is a second lemma for the other direction: what the parser has passed
over is a component.

The lemmas say nothing about the URI around the component, which is given by the text `x` behind it;
the delimiters that may come there are those of RFC 3986 (`hostEnds`, `authorityEnds`, `pathEnds`).
They are put together in `Libu.Uri.Good`.
-/
import Libu.Uri.Match

namespace Libu.Uri

open Verif Lexer

variable {l l' : Lexer} {u : Uri} {c : Char} {v w x : List Char} {p : Char → Bool}

/-! ## 1. Ends of components -/

/-- The text is at its end or at one of the delimiters. -/
def Delimited (ds x : List Char) : Prop := ∀ c ∈ x.head?, c ∈ ds

/-- The end of the text ends everything. -/
theorem delimited_nil {ds : List Char} : Delimited ds [] := fun _ h => nomatch h

/-- Text that goes on is delimited by its first character. -/
theorem delimited_cons {ds : List Char} : Delimited ds (c :: x) ↔ c ∈ ds := by
  simp [Delimited]

theorem Delimited.mono {ds ds' : List Char} (h : Delimited ds x) (hds : ds ⊆ ds') :
    Delimited ds' x := fun c hc => hds (h c hc)

/-- A class without a delimiter stops at each of them. -/
theorem Delimited.stops {ds : List Char} (h : Delimited ds x) (hds : ds.any p = false) :
    Stops p x := by
  intro c hc
  exact Bool.eq_false_iff.mpr (List.any_eq_false.mp hds c (h c hc))

/-- Without the character `d`, the text is not at `d`. -/
theorem Delimited.peek_ne {ds : List Char} (h : Delimited ds l.lookahead) {d : Char} (hd : d ∉ ds)
    (hnul : d ≠ '\x00') : l.peek ≠ d := by
  intro hpeek
  obtain ⟨y, hy⟩ := exists_cons hpeek hnul
  rw [hy] at h
  exact hd (delimited_cons.mp h)

/-- What may follow a host, an authority and a path. -/
def hostEnds : List Char := [':', '/', '?', '#']

/-- What may follow an authority. -/
def authorityEnds : List Char := ['/', '?', '#']

/-- What may follow a path. -/
def pathEnds : List Char := ['?', '#']

/-! ## 2. Scheme -/

/-- The first character of a scheme is also one of the others. -/
theorem schemeChar_of_isAlpha (h : c.isAlpha = true) : schemeChar c = true := by
  rw [schemeChar, Char.isAlphanum, h]
  rfl

/-- A character that is there is passed over. -/
theorem expectChar_eq (hl : l.lookahead = c :: x) : expectChar l c = .ok (l.adv 1) := by
  rw [expectChar, if_pos (peek_of_cons hl), nextOrErr_cons hl]
  rfl

/-- A character that was passed over was there. -/
theorem expectChar_ok (hnul : c ≠ '\x00') (h : expectChar l c = .ok l') :
    ∃ x, l.lookahead = c :: x ∧ l' = l.adv 1 := by
  rw [expectChar] at h
  split at h
  · next hpeek =>
    obtain ⟨x, hx⟩ := exists_cons hpeek hnul
    rw [nextOrErr_cons hx] at h
    exact ⟨x, hx, (Except.ok.inj h).symm⟩
  · cases h

theorem lookahead_cons_adv (hl : l.lookahead = c :: x) : (l.adv 1).lookahead = x :=
  lookahead_adv_append (t := [c]) hl

/-- **A scheme**, before its colon. -/
theorem parseScheme_eq (hv : Scheme v) (hl : l.lookahead = v ++ ':' :: x) :
    ∃ l', parseScheme l u = .ok (l', { u with scheme := stored u.scheme v (':' :: x) }) ∧
      l'.lookahead = ':' :: x := by
  obtain ⟨a, w, rfl, ha, hw⟩ := hv
  have hcons : l.recordLmatch.lookahead = a :: (w ++ ':' :: x) := hl
  have hadv := lookahead_cons_adv hcons
  have hwhile : (l.recordLmatch.adv 1).nextWhile schemeChar =
      l.recordLmatch.adv (a :: w).length := by
    rw [nextWhile_append hadv hw (by rw [stops_cons]; rfl), adv_adv, List.length_cons, Nat.add_comm]
  have hmatch := getMatch_cursor (l := l.recordLmatch.adv (a :: w).length) hl rfl
  refine ⟨(l.recordLmatch.adv (a :: w).length).recordRmatch, ?_, lookahead_adv_append hl⟩
  rw [parseScheme, if_neg (by simp [peek_of_cons hcons, ha]), nextOrErr_cons hcons]
  simp only [ok_bind, hwhile]
  have hstored : chop (getMatchInto (l.recordLmatch.adv (a :: w).length).recordRmatch u.scheme) =
      stored u.scheme (a :: w) (':' :: x) := by
    rw [getMatchInto, hmatch, stored]
    by_cases hlt : (a :: w).length + 1 < tokenSz
    · rw [if_neg (Nat.not_le.mpr hlt), if_pos hlt]
      exact chop_append (a :: w) ':'
    · rw [if_pos (Nat.not_lt.mp hlt), if_neg hlt]
      rfl
  rw [← hstored]
  rfl

/-- What is parsed as a scheme, and then the colon. -/
theorem parseScheme_sound {u' : Uri} {l'' : Lexer} (h : parseScheme l u = .ok (l', u'))
    (hcolon : expectChar l' ':' = .ok l'') :
    ∃ v x, Scheme v ∧ l.lookahead = v ++ ':' :: x ∧ l''.lookahead = x := by
  obtain ⟨x, hx, rfl⟩ := expectChar_ok (by decide) hcolon
  rw [parseScheme] at h
  split at h
  · cases h
  · next halpha =>
    have ha : l.peek.isAlpha = true := by simpa [recordLmatch, peek] using halpha
    obtain ⟨y, hy⟩ := exists_cons (l := l) rfl fun hnul => by
      rw [hnul] at ha
      exact absurd ha (by decide)
    have hcons : l.recordLmatch.lookahead = l.peek :: y := hy
    rw [nextOrErr_cons hcons] at h
    obtain ⟨rfl, -⟩ := Prod.mk.inj (Except.ok.inj h)
    obtain ⟨w, hw, hsplit⟩ := exists_front schemeChar y
    have hrest : ((l.recordLmatch.adv 1).nextWhile schemeChar).lookahead =
      y.dropWhile schemeChar := by
      rw [lookahead_nextWhile, lookahead_cons_adv hcons]
    refine ⟨l.peek :: w, x, ⟨_, w, rfl, ha, hw⟩, ?_, lookahead_cons_adv hx⟩
    rw [hy, hsplit, ← hrest]
    exact congrArg (fun t => l.peek :: (w ++ t)) hx

/-! ## 3. Userinfo -/

/-- Nothing in the buffer ends in a bracket. -/
def NoBracket (m : Token) : Prop := ∀ v ∈ m, ']' ∉ v

theorem noBracket_some (h : ']' ∉ v) : NoBracket (some v) := by
  intro w hw
  obtain rfl := Option.some.inj hw
  exact h

/-- Where there is no bracket, nothing is trimmed. -/
theorem NoBracket.map {m : Token} (h : NoBracket m) : m.map trimBracket = m := by
  cases m with
  | none => rfl
  | some v => rw [Option.map_some, trimBracket_of_not_mem (h v rfl)]

theorem NoBracket.chop {m : Token} (h : NoBracket m) : NoBracket (chop m) := by
  intro v hv
  cases m with
  | none => cases hv
  | some w =>
    rw [Uri.chop, Option.bind_some] at hv
    split at hv
    · cases hv
    · obtain rfl := Option.some.inj hv
      exact fun hmem => h w rfl (List.dropLast_subset w hmem)

/-- A match without a bracket over a buffer without one. -/
theorem NoBracket.stored {m : Token} (h : NoBracket m) (hv : ']' ∉ v) (x : List Char) :
    NoBracket (stored m v x) := by
  rw [Uri.stored]
  split
  · exact noBracket_some hv
  · split
    · exact h
    · exact h.chop

/-- The match from where the cursor was to `v` ahead. -/
theorem adjust_adv (hl : l.lookahead = v ++ x) {old : Token} (hold : NoBracket old)
    (hv : ']' ∉ v) :
    adjustGreedyMatch (l.recordLmatch.adv v.length).recordRmatch old = stored old v x := by
  rw [adjust_eq (l := l.recordLmatch.adv v.length) hl rfl, (hold.stored hv x).map]

/-- An encoded string has no bracket, if its class has none. -/
theorem not_bracket_of_encoded (hp : Hexy p) (hb : p ']' = false) (hv : Encoded p v) : ']' ∉ v :=
  hv.not_mem hp hb (by decide)

/-- Taking the userinfo apart changes nothing else. -/
theorem crumbleUserPassword_eq (u : Uri) :
    ∃ user pwd, crumbleUserPassword u = { u with user, pwd } := by
  rw [crumbleUserPassword]
  split
  · exact ⟨none, none, rfl⟩
  · split
    · exact ⟨u.user, u.pwd, rfl⟩
    · dsimp only
      split
      · exact ⟨_, u.pwd, rfl⟩
      · exact ⟨_, _, rfl⟩

/-- **A userinfo**, before its `@`. -/
theorem parseUserinfo_eq (hv : Encoded isUserinfoChar v) (hne : v ≠ [])
    (hl : l.lookahead = v ++ '@' :: x) (hold : u.userinfo = some []) :
    ∃ l' user pwd, parseUserinfo l u =
        .ok (l', { u with userinfo := stored (some []) v ('@' :: x), user, pwd }) ∧
      l'.lookahead = x := by
  obtain ⟨a, w, rfl⟩ := List.exists_cons_of_ne_nil hne
  have hloop : doWhile matchPcharMinusAtSign l.recordLmatch =
      .ok (l.recordLmatch.adv (a :: w).length) :=
    doWhile_eq tests_userinfo (hv.tail hexy_userinfo) hl (by rw [Ends, stops_cons]; rfl)
  have hat : (l.recordLmatch.adv (a :: w).length).lookahead = '@' :: x :=
    lookahead_adv_append (l := l.recordLmatch) hl
  have hadjust := adjust_adv hl (noBracket_some (v := []) List.not_mem_nil)
    (not_bracket_of_encoded hexy_userinfo (by decide) hv)
  have hat' : (l.recordLmatch.adv (a :: w).length).recordRmatch.lookahead = '@' :: x := hat
  obtain ⟨user, pwd, hcrumble⟩ := crumbleUserPassword_eq
    { u with userinfo := stored (some []) (a :: w) ('@' :: x) }
  have hlook := lookahead_cons_adv hat'
  rw [parseUserinfo, hloop, ok_bind, if_neg (not_not.mpr (peek_of_cons hat))]
  simp only [hold, hadjust, nextOrErr_cons hat', ok_bind, hcrumble]
  by_cases hopt : u.dontParseUserinfo = true
  · rw [if_pos hopt]
    exact ⟨_, _, _, rfl, hlook⟩
  · rw [if_neg hopt]
    exact ⟨_, _, _, rfl, hlook⟩

/-! ## 4. Host -/

theorem name_of_isAlphanum (h : c.isAlphanum = true) : isNameChar c = true := by
  rw [isNameChar, isUnreserved, h]
  rfl

/-- The digits and dots of an address are characters of a name as well, and so an address is a name.
-/
theorem name_of_ipv4 (h : ipv4Char c = true) : isNameChar c = true := by
  simp only [ipv4Char, Bool.or_eq_true, decide_eq_true_eq] at h
  rcases h with h | rfl
  · exact name_of_isAlphanum (by rw [Char.isAlphanum, h, Bool.or_true])
  · decide

theorem ipv4_of_isDigit (h : c.isDigit = true) : ipv4Char c = true := by
  rw [ipv4Char, h]
  rfl

theorem DecOctet.digits (h : DecOctet v) : v ≠ [] ∧ AllIn Char.isDigit v := by
  have hlist : ∀ {a : Char}, a ∈ ['0', '1', '2', '3', '4', '5'] → a.isDigit = true := by
    intro a ha
    exact List.all_eq_true.mp (by decide : ['0', '1', '2', '3', '4', '5'].all Char.isDigit = true) a
      ha
  have htwo : '2'.isDigit = true := by decide
  cases h with
  | one ha => exact ⟨List.cons_ne_nil _ _, by simp [ha]⟩
  | two ha _ hb => exact ⟨List.cons_ne_nil _ _, by simp [ha, hb]⟩
  | oneHundred ha hb => exact ⟨List.cons_ne_nil _ _, by simp [ha, hb]⟩
  | twoHundred ha hb =>
    exact ⟨List.cons_ne_nil _ _, by simp [htwo, hlist (List.mem_append_left ['5'] ha), hb]⟩
  | fifty ha => exact ⟨List.cons_ne_nil _ _, by simp [htwo, hlist ha]⟩

/-- An IPv4 address is all digits and dots, and starts with a digit. -/
theorem IPv4address.chars (h : IPv4address v) :
    ∃ d w, v = d :: w ∧ d.isDigit = true ∧ AllIn ipv4Char w := by
  obtain ⟨a, b, c, d, ha, hb, hc, hd, rfl⟩ := h
  have hdot : ipv4Char '.' = true := rfl
  have hipv4 : ∀ {v : List Char}, AllIn Char.isDigit v → AllIn ipv4Char v :=
    fun hv e he => ipv4_of_isDigit (hv e he)
  obtain ⟨e, w, rfl⟩ := List.exists_cons_of_ne_nil ha.digits.1
  obtain ⟨he, hw⟩ := allIn_cons.mp ha.digits.2
  refine ⟨e, w ++ '.' :: (b ++ '.' :: (c ++ '.' :: d)), rfl, he, ?_⟩
  simp only [allIn_append, allIn_cons]
  exact ⟨hipv4 hw, hdot, hipv4 hb.digits.2, hdot, hipv4 hc.digits.2, hdot, hipv4 hd.digits.2⟩

/-- An address of version 4 is a registered name, in the grammar too: the RFC tells the two apart by
trying the address first. -/
theorem IPv4address.regName (h : IPv4address v) : RegName v := by
  obtain ⟨d, w, rfl, hd, hw⟩ := h.chars
  exact encoded_of_allIn (allIn_cons.mpr
    ⟨name_of_ipv4 (ipv4_of_isDigit hd), fun c hc => name_of_ipv4 (hw c hc)⟩)

/-- A host that starts with a digit ends where the digits and dots do. -/
theorem parseHost_digits {d : Char} (hd : d.isDigit = true) (hw : AllIn ipv4Char w)
    (hx : Stops ipv4Char x) (hl : l.lookahead = d :: (w ++ x)) (hold : u.host = some []) :
    ∃ l', parseHost l u = .ok (l', { u with
        flags := { u.flags with hostIsIpaddress := true }
        host := stored (some []) (d :: w) x }) ∧
      l'.lookahead = x := by
  have hl' : l.recordLmatch.lookahead = d :: (w ++ x) := hl
  have hwhile : (l.recordLmatch.adv 1).nextWhile ipv4Char = l.recordLmatch.adv (d :: w).length := by
    rw [nextWhile_append (lookahead_cons_adv hl') hw hx, adv_adv, List.length_cons, Nat.add_comm]
  have hname : RegName (d :: w) := encoded_of_allIn (allIn_cons.mpr
    ⟨name_of_ipv4 (ipv4_of_isDigit hd), fun c hc => name_of_ipv4 (hw c hc)⟩)
  have hadjust := adjust_adv (v := d :: w) hl (noBracket_some (v := []) List.not_mem_nil)
    (not_bracket_of_encoded hexy_name (by decide) hname)
  refine ⟨(l.recordLmatch.adv (d :: w).length).recordRmatch, ?_,
    lookahead_adv_append (l := l.recordLmatch) (t := d :: w) hl⟩
  rw [parseHost, parseHostCases, if_pos (by rw [peek_of_cons hl', hd]), parseIpv4address,
    nextOrErr_cons hl']
  simp only [ok_bind, hwhile, pure, Except.pure, hold, hadjust]

/-- No host at all: the buffer keeps what it had. -/
theorem parseHost_empty (hx : Delimited hostEnds x) (hl : l.lookahead = x)
    (hold : u.host = some []) : parseHost l u = .ok (l.recordLmatch.recordRmatch, u) := by
  have hl' : l.recordLmatch.lookahead = x := hl
  have hdigit : l.recordLmatch.peek.isDigit = false := by
    cases x with
    | nil => rw [peek_of_nil hl']; rfl
    | cons c y =>
      rw [peek_of_cons hl']
      exact (stops_cons (p := Char.isDigit)).mp (hx.stops (by decide))
  have hups : matchUps l.recordLmatch = (false, l.recordLmatch) :=
    tests_ups.ends (hl' ▸ hx.stops (by decide))
  have hpeek : l.recordLmatch.peek ≠ '[' := Delimited.peek_ne (hl' ▸ hx) (by decide) (by decide)
  have hadjust := adjust_adv (v := []) hl (noBracket_some (v := []) List.not_mem_nil)
    List.not_mem_nil
  rw [parseHost, parseHostCases, hdigit, if_neg (by decide), hups]
  dsimp only
  rw [if_neg hpeek]
  simp only [ok_bind, pure, Except.pure, hold]
  have hadjust' : adjustGreedyMatch l.recordLmatch.recordRmatch (some []) = some [] := hadjust
  rw [hadjust', ← hold]

/-- **A registered name or an IPv4 address**, when all of it is digits and dots if its first
character is a digit. -/
theorem parseHost_name (hv : RegName v) (hgood : ∀ d ∈ v.head?, d.isDigit = true → AllIn ipv4Char v)
    (hx : Delimited hostEnds x) (hl : l.lookahead = v ++ x) (hold : u.host = some []) :
    ∃ l' flags, parseHost l u = .ok (l', { u with flags, host := stored (some []) v x }) ∧
      l'.lookahead = x ∧ flags.hostIsIpliteral = u.flags.hostIsIpliteral := by
  cases v with
  | nil =>
    refine ⟨l.recordLmatch.recordRmatch, u.flags, (parseHost_empty hx hl hold).trans ?_, hl, rfl⟩
    have hstored : stored (some []) [] x = u.host := by
      rw [hold]
      exact stored_of_lt (by decide)
    rw [hstored]
  | cons d w =>
    by_cases hd : d.isDigit = true
    · have hw := (allIn_cons.mp (hgood d rfl hd)).2
      obtain ⟨l', hparse, hlook⟩ := parseHost_digits hd hw (hx.stops (by decide)) hl hold
      exact ⟨l', _, hparse, hlook, rfl⟩
    · have hl' : l.recordLmatch.lookahead = (d :: w) ++ x := hl
      obtain ⟨k, hfirst, -, hloop⟩ := first_doWhile tests_ups hv (List.cons_ne_nil d w) hl'
        (hx.stops (by decide))
      have hadjust := adjust_adv hl (noBracket_some (v := []) List.not_mem_nil)
        (not_bracket_of_encoded hexy_name (by decide) hv)
      refine ⟨(l.recordLmatch.adv (d :: w).length).recordRmatch, u.flags, ?_,
        lookahead_adv_append hl', rfl⟩
      rw [parseHost, parseHostCases, if_neg (by rwa [peek_of_cons hl']), hfirst]
      simp only [parseRegname, hloop, ok_bind, pure, Except.pure, hold, hadjust]

/-- **An IP-literal.** -/
theorem parseHost_literal (ha : AllIn isUserinfoChar v) (hl : l.lookahead = '[' :: (v ++ ']' :: x))
    (hold : u.host = some []) :
    ∃ l', parseHost l u = .ok (l', { u with
        flags := ⟨true, true⟩
        host := (stored (some []) (v ++ [']']) x).map trimBracket }) ∧
      l'.lookahead = x := by
  have hl' : l.recordLmatch.lookahead = '[' :: (v ++ ']' :: x) := hl
  have h₁ := lookahead_cons_adv hl'
  have hups : matchUps l.recordLmatch = (false, l.recordLmatch) := tests_ups.plain hl' (by decide)
  have hloop : whileMatch matchLiteralChar ((l.recordLmatch.adv 1).recordLmatch.slen + 1)
      (l.recordLmatch.adv 1).recordLmatch =
      .ok ((l.recordLmatch.adv 1).recordLmatch.adv v.length) := by
    refine whileMatch_eq tests_literal ?_ ?_ h₁ (by rw [Ends, stops_cons]; rfl)
    · exact encoded_of_allIn fun c hc => pchar_of_userinfo (ha c hc)
    · have hlen := lookahead_length_le_slen (l.recordLmatch.adv 1).recordLmatch
      rw [lookahead_recordLmatch, h₁, List.length_append] at hlen
      omega
  have h₂ : ((l.recordLmatch.adv 1).recordLmatch.adv v.length).lookahead = ']' :: x :=
    lookahead_adv_append (l := (l.recordLmatch.adv 1).recordLmatch) h₁
  have hassoc : (l.recordLmatch.adv 1).recordLmatch.lookahead = (v ++ [']']) ++ x := by
    rw [lookahead_recordLmatch, h₁, List.append_assoc]
    rfl
  have hadjust := adjust_eq (l := (l.recordLmatch.adv 1).recordLmatch.adv (v ++ [']']).length)
    hassoc rfl (some [])
  rw [List.length_append, List.length_singleton, ← adv_adv] at hadjust
  refine ⟨(((l.recordLmatch.adv 1).recordLmatch.adv v.length).adv 1).recordRmatch, ?_,
    lookahead_cons_adv h₂⟩
  rw [parseHost, parseHostCases, if_neg (by rw [peek_of_cons hl']; decide), hups]
  dsimp only
  rw [if_pos (peek_of_cons hl'), parseIpliteral, if_neg (not_not.mpr (peek_of_cons hl')),
    nextOrErr_cons hl']
  simp only [ok_bind, hloop]
  rw [if_neg (not_not.mpr (peek_of_cons h₂)), nextOrErr_cons h₂]
  simp only [ok_bind, pure, Except.pure, hold, hadjust]

/-! ## 5. Port and paths -/

theorem not_bracket_of_allIn (hp : p ']' = false) (hv : AllIn p v) : ']' ∉ v := by
  intro hmem
  rw [hv _ hmem] at hp
  exact absurd hp (by decide)

/-- **A port**, up to where its characters end. -/
theorem parsePort_eq (hv : AllIn portChar v) (hx : Stops portChar x)
    (hl : l.lookahead = ':' :: (v ++ x)) (hold : u.port = some []) :
    ∃ l', parsePortOpt l u = .ok (l', { u with port := stored (some []) v x }) ∧
      l'.lookahead = x := by
  have h₁ := lookahead_cons_adv hl
  have hwhile : (l.adv 1).recordLmatch.nextWhile portChar = (l.adv 1).recordLmatch.adv v.length :=
    nextWhile_append h₁ hv hx
  have hadjust := adjust_adv h₁ (noBracket_some (v := []) List.not_mem_nil)
    (not_bracket_of_allIn (by decide) hv)
  refine ⟨((l.adv 1).recordLmatch.adv v.length).recordRmatch, ?_,
    lookahead_adv_append (l := (l.adv 1).recordLmatch) h₁⟩
  rw [parsePortOpt, if_pos (peek_of_cons hl), parsePort, if_neg (not_not.mpr (peek_of_cons hl)),
    nextOrErr_cons hl]
  simp only [ok_bind, hwhile, pure, Except.pure, hold, hadjust]

/-- A port, or none. -/
theorem parsePortOpt_eq {port : Option (List Char)} (hv : ∀ v ∈ port, AllIn portChar v)
    (hx : Delimited authorityEnds x) (hl : l.lookahead = behind ':' port ++ x)
    (hold : u.port = some []) :
    ∃ l', parsePortOpt l u = .ok (l', { u with port := stored (some []) (port.getD []) x }) ∧
      l'.lookahead = x := by
  cases port with
  | none =>
    have hl' : l.lookahead = x := hl
    have hpeek : l.peek ≠ ':' := Delimited.peek_ne (hl' ▸ hx) (by decide) (by decide)
    have hstored : stored (some []) [] x = u.port := by
      rw [hold]
      exact stored_of_lt (by decide)
    refine ⟨l, ?_, hl'⟩
    rw [parsePortOpt, if_neg hpeek, Option.getD_none, hstored]
    rfl
  | some v => exact parsePort_eq (hv v rfl) (hx.stops (by decide)) hl hold

/-- Behind the host of an authority comes its path, which starts with a slash where it is not empty.
-/
theorem pathEnds_of_abempty {v : List Char} (hv : PathAbempty v) (hx : Delimited pathEnds x) :
    Delimited authorityEnds (v ++ x) := by
  cases hv with
  | nil => exact hx.mono (by decide)
  | cons _ _ => exact delimited_cons.mpr (by decide)

/-- The loop over the segments of a path. -/
theorem segmentLoop_eq (hv : PathAbempty v) : ∀ {n : Nat} {l : Lexer}, v ≠ [] → v.length < n →
    l.lookahead = v ++ x → Delimited pathEnds x → segmentLoop n l = .ok (l.adv v.length) := by
  induction hv with
  | nil => exact fun hne => absurd rfl hne
  | @cons s w hs hw ih =>
    intro n l _ hn hl hx
    obtain ⟨n, rfl⟩ := Nat.exists_eq_succ_of_ne_zero (Nat.ne_zero_of_lt hn)
    have hl' : l.lookahead = '/' :: (s ++ (w ++ x)) := by
      rw [hl, List.cons_append, List.append_assoc]
    have hsegment : expectSegment l = .ok (l.adv (s.length + 1)) :=
      doWhile_eq tests_pchar hs hl' ((pathEnds_of_abempty hw hx).stops (by decide))
    have hlook : (l.adv (s.length + 1)).lookahead = w ++ x :=
      lookahead_adv_append (t := '/' :: s) hl'
    rw [segmentLoop, hsegment]
    dsimp only
    by_cases hnil : w = []
    · subst hnil
      rw [← List.nil_append x, ← hlook] at hx
      have hpeek : (l.adv (s.length + 1)).peek ≠ '/' := hx.peek_ne (by decide) (by decide)
      rw [if_neg hpeek, List.append_nil, List.length_cons]
    · have hpeek : (l.adv (s.length + 1)).peek = '/' := by
        cases hw with
        | nil => exact absurd rfl hnil
        | cons _ _ => exact peek_of_cons hlook
      have hlen : w.length < n := by
        rw [List.length_cons, List.length_append] at hn
        omega
      rw [if_pos hpeek, ih hnil hlen hlook hx, adv_adv]
      congr 2
      rw [List.length_cons, List.length_append]
      omega

/-- The path behind an authority, up to where it ends. -/
theorem expectPathAbempty_eq (hv : PathAbempty v) (hl : l.lookahead = v ++ x)
    (hx : Delimited pathEnds x) : expectPathAbempty l = .ok (l.adv v.length) := by
  cases hv with
  | nil =>
    rw [← List.nil_append x, ← hl] at hx
    have hpeek : l.peek ≠ '/' := hx.peek_ne (by decide) (by decide)
    rw [expectPathAbempty, if_pos hpeek]
    rfl
  | cons hs hw =>
    have hlen := lookahead_length_le_slen l
    rw [hl, List.length_append] at hlen
    rw [expectPathAbempty, if_neg (not_not.mpr (peek_of_cons hl))]
    exact segmentLoop_eq (.cons hs hw) (List.cons_ne_nil _ _) (by omega) hl hx

/-- Paths have no brackets, and so nothing is trimmed of them. -/
theorem not_bracket_of_abempty (hv : PathAbempty v) : ']' ∉ v := by
  induction hv with
  | nil => exact List.not_mem_nil
  | cons hs _ ih =>
    simp only [List.mem_cons, List.mem_append, not_or]
    exact ⟨by decide, not_bracket_of_encoded hexy_pchar (by decide) hs, ih⟩

/-- **The path behind an authority.** -/
theorem parseAbempty_eq (hv : PathAbempty v) (hl : l.lookahead = v ++ x)
    (hx : Delimited pathEnds x) (hold : NoBracket u.path) :
    ∃ l', parseAbempty l u = .ok (l', { u with path := stored u.path v x }) ∧ l'.lookahead = x := by
  have hadjust := adjust_adv hl hold (not_bracket_of_abempty hv)
  refine ⟨(l.recordLmatch.adv v.length).recordRmatch, ?_,
    lookahead_adv_append (l := l.recordLmatch) hl⟩
  rw [parseAbempty, expectPathAbempty_eq (l := l.recordLmatch) hv hl hx]
  simp only [ok_bind, pure, Except.pure, hadjust]

/-- A segment that is not empty, and the segments behind it. -/
theorem expectRootless_eq (hv : PathRootless v) (hl : l.lookahead = v ++ x)
    (hx : Delimited pathEnds x) :
    (do let l ← expectSegmentNz l
        expectPathAbempty l) = .ok (l.adv v.length) := by
  obtain ⟨s, w, hs, hne, hw, rfl⟩ := hv
  rw [List.append_assoc] at hl
  obtain ⟨k, hfirst, -, hloop⟩ := first_doWhile tests_pchar hs hne hl
    ((pathEnds_of_abempty hw hx).stops (by decide))
  have hlook : (l.adv s.length).lookahead = w ++ x := lookahead_adv_append hl
  rw [expectSegmentNz, hfirst]
  dsimp only
  rw [hloop, ok_bind, expectPathAbempty_eq hw hlook hx, adv_adv, List.length_append]

theorem not_bracket_of_rootless (hv : PathRootless v) : ']' ∉ v := by
  obtain ⟨s, w, hs, -, hw, rfl⟩ := hv
  rw [List.mem_append, not_or]
  exact ⟨not_bracket_of_encoded hexy_pchar (by decide) hs, not_bracket_of_abempty hw⟩

/-- **A path without an authority**, from where the cursor is. -/
theorem parsePath_eq (hv : PathRootless v ∨ ∃ w, PathRootless w ∧ v = '/' :: w)
    (hl : l.lookahead = v ++ x) (hx : Delimited pathEnds x) (hold : NoBracket u.path) :
    ∃ l', parsePath l u = .ok (l', { u with path := stored u.path v x }) ∧ l'.lookahead = x := by
  have hbracket : ']' ∉ v := by
    rcases hv with hv | ⟨w, hw, rfl⟩
    · exact not_bracket_of_rootless hv
    · rw [List.mem_cons, not_or]
      exact ⟨by decide, not_bracket_of_rootless hw⟩
  have hskip : ∃ k, skipSlash l.recordLmatch = .ok (l.recordLmatch.adv k) ∧
      (do let l ← expectSegmentNz (l.recordLmatch.adv k)
          expectPathAbempty l) = .ok (l.recordLmatch.adv v.length) := by
    rcases hv with hv | ⟨w, hw, rfl⟩
    · have hpeek : l.recordLmatch.peek ≠ '/' := by
        obtain ⟨s, w, hs, hne, -, rfl⟩ := id hv
        obtain ⟨c, s, rfl⟩ := List.exists_cons_of_ne_nil hne
        rw [peek_of_cons (l := l.recordLmatch) hl]
        rintro rfl
        cases hs with
        | plain hc _ => exact absurd hc (by decide)
      refine ⟨0, ?_, expectRootless_eq (l := l.recordLmatch) hv hl hx⟩
      rw [skipSlash, if_neg hpeek]
      rfl
    · have hcons : l.recordLmatch.lookahead = '/' :: (w ++ x) := hl
      refine ⟨1, ?_, ?_⟩
      · rw [skipSlash, if_pos (peek_of_cons hcons), nextOrErr_cons hcons]
        rfl
      · rw [expectRootless_eq hw (lookahead_cons_adv hcons) hx, adv_adv, Nat.add_comm]
        rfl
  obtain ⟨k, hslash, hrest⟩ := hskip
  obtain ⟨l₁, hnz, hab⟩ := bind_eq_ok.mp hrest
  have hadjust := adjust_adv hl hold hbracket
  refine ⟨(l.recordLmatch.adv v.length).recordRmatch, ?_,
    lookahead_adv_append (l := l.recordLmatch) hl⟩
  rw [parsePath, hslash, ok_bind, hnz, ok_bind, hab]
  simp only [ok_bind, pure, Except.pure, hadjust]

/-! ## 6. Query and fragment -/

/-- The text of a query or of a fragment, which have the same characters. -/
theorem parseQueryText_eq {first : Char} (hv : Encoded isQueryChar v)
    (hl : l.lookahead = first :: (v ++ x)) (hx : Ends isQueryChar x) :
    parseQueryText first l = .ok ((l.adv 1).recordLmatch.adv v.length).recordRmatch := by
  have h₁ := lookahead_cons_adv hl
  have hlen := lookahead_length_le_slen (l.adv 1).recordLmatch
  rw [lookahead_recordLmatch, h₁, List.length_append] at hlen
  have hloop : whileMatch matchQueryChar ((l.adv 1).recordLmatch.slen + 1) (l.adv 1).recordLmatch =
      .ok ((l.adv 1).recordLmatch.adv v.length) := whileMatch_eq tests_query hv (by omega) h₁ hx
  rw [parseQueryText, if_neg (not_not.mpr (peek_of_cons hl)), nextOrErr_cons hl]
  simp only [ok_bind, hloop]
  rfl

/-- **A query**, or none. -/
theorem parseQueryOpt_eq {query : Option (List Char)} (hv : ∀ v ∈ query, Encoded isQueryChar v)
    (hx : Delimited ['#'] x) (hl : l.lookahead = behind '?' query ++ x)
    (hold : u.query = some []) :
    ∃ l', parseQueryOpt l u = .ok (l', { u with query := stored (some []) (query.getD []) x }) ∧
      l'.lookahead = x := by
  cases query with
  | none =>
    have hl' : l.lookahead = x := hl
    have hpeek : l.peek ≠ '?' := Delimited.peek_ne (hl' ▸ hx) (by decide) (by decide)
    have hstored : stored (some []) [] x = u.query := by
      rw [hold]
      exact stored_of_lt (by decide)
    refine ⟨l, ?_, hl'⟩
    rw [parseQueryOpt, if_neg hpeek, Option.getD_none, hstored]
    rfl
  | some v =>
    have hcons : l.lookahead = '?' :: (v ++ x) := hl
    have hadjust := adjust_adv (lookahead_cons_adv hcons)
      (noBracket_some (v := []) List.not_mem_nil)
      (not_bracket_of_encoded hexy_query (by decide) (hv v rfl))
    refine ⟨((l.adv 1).recordLmatch.adv v.length).recordRmatch, ?_,
      lookahead_adv_append (l := (l.adv 1).recordLmatch) (lookahead_cons_adv hcons)⟩
    rw [parseQueryOpt, if_pos (peek_of_cons hcons), parseQuery,
      parseQueryText_eq (hv v rfl) hcons (hx.stops (by decide))]
    simp only [ok_bind, pure, Except.pure, hold, hadjust, Option.getD_some]

/-- **A fragment**, or none, at the end of the text. -/
theorem parseFragmentOpt_eq {fragment : Option (List Char)}
    (hv : ∀ v ∈ fragment, Encoded isQueryChar v) (hl : l.lookahead = behind '#' fragment)
    (hold : u.fragment = some []) :
    ∃ l', parseFragmentOpt l u =
      .ok (l', { u with fragment := stored (some []) (fragment.getD []) [] }) := by
  cases fragment with
  | none =>
    have hpeek : l.peek ≠ '#' := by
      rw [peek_of_nil hl]
      decide
    have hstored : stored (some []) [] [] = u.fragment := by
      rw [hold]
      exact stored_of_lt (by decide)
    refine ⟨l, ?_⟩
    rw [parseFragmentOpt, if_neg hpeek, Option.getD_none, hstored]
    rfl
  | some v =>
    have hcons : l.lookahead = '#' :: (v ++ []) := by rw [hl, List.append_nil]; rfl
    have hmatch := getMatch_cursor (l := (l.adv 1).recordLmatch.adv v.length)
      (lookahead_cons_adv hcons) rfl
    have hstored : getMatchInto ((l.adv 1).recordLmatch.adv v.length).recordRmatch (some []) =
        stored (some []) v [] := by
      rw [getMatchInto, hmatch, stored]
      by_cases hlt : v.length + 1 < tokenSz
      · rw [if_neg (Nat.not_le.mpr hlt), if_pos hlt]
        simp
      · rw [if_pos (Nat.not_lt.mp hlt), if_neg hlt]
        rfl
    refine ⟨((l.adv 1).recordLmatch.adv v.length).recordRmatch, ?_⟩
    rw [parseFragmentOpt, if_pos (peek_of_cons hcons), parseFragment,
      parseQueryText_eq (hv v rfl) hcons stops_nil]
    simp only [ok_bind, pure, Except.pure, hold, hstored, Option.getD_some]

end Libu.Uri
