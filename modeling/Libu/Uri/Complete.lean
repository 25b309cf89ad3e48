/-
# Which URIs are taken apart right

`Libu.Uri.Good` has what becomes of a good URI.  Here is the other direction: a URI that is not good
is refused, or is reported with other components than it has, and so being good is no more than what
is needed.  For that the ways to go astray are gone through one by one, each with what the parser
makes of such a URI.

* §1: the ways to go astray, each with what becomes of it.
* §2: a URI is accepted and its components are reported, exactly when it is good and its components
  leave room for the character behind them (`crumble_complete_iff`).
-/
import Libu.Uri.Good

namespace Libu.Uri

open Verif Lexer

variable {l l' : Lexer} {u u' : Uri} {c : Components} {v w x : List Char} {p : Char → Bool}
  {opt : Bool}

/-! ## 1. Ways to go astray -/

/-- Each parser stores its own component, and leaves the others as they are. -/
theorem parseQueryOpt_frame (h : parseQueryOpt l u = .ok (l', u')) :
    ∃ query, u' = { u with query } := by
  rw [parseQueryOpt] at h
  split at h
  · obtain ⟨l₁, -, h⟩ := bind_eq_ok.mp h
    exact ⟨_, (Prod.mk.inj (Except.ok.inj h)).2.symm⟩
  · exact ⟨u.query, (Prod.mk.inj (Except.ok.inj h)).2.symm⟩

theorem parseFragmentOpt_frame (h : parseFragmentOpt l u = .ok (l', u')) :
    ∃ fragment, u' = { u with fragment } := by
  rw [parseFragmentOpt] at h
  split at h
  · obtain ⟨l₁, -, h⟩ := bind_eq_ok.mp h
    exact ⟨_, (Prod.mk.inj (Except.ok.inj h)).2.symm⟩
  · exact ⟨u.fragment, (Prod.mk.inj (Except.ok.inj h)).2.symm⟩

/-- When a string is accepted, its scheme and its hierarchical part are. -/
theorem crumble_ok {s : List Char} (h : crumble s opt = .ok u) :
    ∃ l v x m l' u' query fragment, Scheme v ∧ cString s = v ++ ':' :: x ∧ Holds m v ∧
      l.lookahead = x ∧
      parseHierPart l (withScheme opt m) = .ok (l', u') ∧ u = { u' with query, fragment } ∧
      ∃ l'', (do let (l, u) ← parseQueryOpt l' u'
                 parseFragmentOpt l u) = .ok (l'', u) := by
  obtain ⟨⟨l₄, u₄⟩, hparser, hu⟩ := bind_eq_ok.mp h
  obtain rfl := Except.ok.inj hu
  obtain ⟨⟨l₁, u₁⟩, hscheme, hrest⟩ := bind_eq_ok.mp hparser
  obtain ⟨l₂, hcolon, hrest⟩ := bind_eq_ok.mp hrest
  obtain ⟨⟨l₃, u₃⟩, hhier, hsuffix⟩ := bind_eq_ok.mp hrest
  obtain ⟨v, x, hv, hl, hx⟩ := parseScheme_sound hscheme hcolon
  obtain ⟨l₁', hparse, -⟩ := parseScheme_eq (u := new opt) hv hl
  obtain ⟨rfl, rfl⟩ := Prod.mk.inj (Except.ok.inj (hparse.symm.trans hscheme))
  have hholds : Holds (stored (new opt).scheme v (':' :: x)) v := holds_stored short_nil _ _
  obtain ⟨⟨l₅, u₅⟩, hquery, hfragment⟩ := bind_eq_ok.mp hsuffix
  obtain ⟨query, rfl⟩ := parseQueryOpt_frame hquery
  obtain ⟨fragment, rfl⟩ := parseFragmentOpt_frame hfragment
  exact ⟨l₂, v, x, _, l₃, u₃, query, fragment, hv, hl, hholds, hx, hhier, rfl, l₄, hsuffix⟩

/-- The scheme of a string is what stands before its first colon. -/
theorem scheme_unique {v v' x x' : List Char} (hv : Scheme v) (hv' : Scheme v')
    (h : v ++ ':' :: x = v' ++ ':' :: x') : v = v' ∧ x = x' := by
  have hstop : ∀ {x : List Char}, Stops schemeChar (':' :: x) := by
    intro x
    rw [stops_cons]
    rfl
  have htake : v = v' := by
    rw [← takeWhile_append hv.allIn (hstop (x := x)), h, takeWhile_append hv'.allIn hstop]
  subst htake
  exact ⟨rfl, (List.cons.inj (List.append_cancel_left h)).2⟩

/-- When a URI is accepted, its hierarchical part is. -/
theorem crumble_hier (hv : c.Valid p) (hp : ∀ c, p c = true → portChar c = true)
    (h : crumble c.text opt = .ok u) :
    ∃ l m l' u' query fragment, Holds m c.scheme ∧ l.lookahead = c.hierText ∧
      parseHierPart l (withScheme opt m) = .ok (l', u') ∧ u = { u' with query, fragment } ∧
      ∃ l'', (do let (l, u) ← parseQueryOpt l' u'
                 parseFragmentOpt l u) = .ok (l'', u) := by
  obtain ⟨l, v, x, m, l', u', query, fragment, hscheme, htext, hm, hl, hhier, hu, hsuffix⟩ :=
    crumble_ok h
  rw [hv.cString hp] at htext
  obtain ⟨rfl, rfl⟩ := scheme_unique hv.scheme hscheme htext
  exact ⟨l, m, l', u', query, fragment, hm, hl, hhier, hu, hsuffix⟩

/-- The path `/` alone is refused. -/
theorem refuses_root (hv : c.Valid p) (hp : ∀ c, p c = true → portChar c = true)
    (ha : c.authority = none) (hpath : c.path = ['/']) : crumble c.text opt ≠ .ok u := by
  intro h
  obtain ⟨l, m, l', u', -, -, -, hl, hhier, -⟩ := crumble_hier hv hp h
  rw [Components.hierText, ha] at hl
  have htake := take_two_ne hv ha
  have hl' : l.lookahead = c.rest := hl
  have hcons : l.lookahead = '/' :: c.suffixText := by rw [hl', Components.rest, hpath]; rfl
  have hends : Ends isPchar (l.recordLmatch.adv 1).lookahead := by
    rw [lookahead_cons_adv (l := l.recordLmatch) hcons]
    exact (delimited_suffix c).stops (by decide)
  rw [parseHierPart, if_neg (hl' ▸ htake), pathFirst_eq hcons (by decide)] at hhier
  obtain ⟨l₁, hslash, hhier⟩ := bind_eq_ok.mp hhier
  obtain ⟨l₂, hnz, -⟩ := bind_eq_ok.mp hhier
  rw [skipSlash, if_pos (peek_of_cons (l := l.recordLmatch) hcons),
    nextOrErr_cons (l := l.recordLmatch) hcons] at hslash
  obtain rfl : l.recordLmatch.adv 1 = l₁ := Except.ok.inj hslash
  rw [expectSegmentNz, tests_pchar.ends hends] at hnz
  cases hnz

/-- A buffer that holds `v` does not have a longer string of more than one character. -/
theorem Holds.ne {m : Token} (h : Holds m v) (hlen : v.length < w.length) (hw : 1 < w.length) :
    m ≠ some w := by
  rintro rfl
  rw [Holds] at h
  split at h
  · obtain rfl := Option.some.inj h
    exact Nat.lt_irrefl _ hlen
  · exact absurd (h w rfl) (Nat.not_le.mpr hw)

/-- A path that starts with an escape has the second digit of it for a character of its own. -/
theorem PathRootless.tail_of_escape (hv : PathRootless v) (hpct : v.head? = some '%') :
    ∃ a b w, v = '%' :: a :: b :: w ∧ isXDigit a = true ∧ isXDigit b = true ∧
      PathRootless (b :: w) := by
  obtain ⟨s, q, hs, hne, hq, rfl⟩ := hv
  cases hs with
  | nil => exact absurd rfl hne
  | plain hc _ =>
    obtain rfl := Option.some.inj hpct
    exact absurd hc (by decide)
  | @pct a b w ha hb hw =>
    exact ⟨a, b, w ++ q, rfl, ha, hb, b :: w, q, .plain (hexy_pchar b hb) hw, List.cons_ne_nil _ _,
      hq, rfl⟩

/-- A path that starts with an escape loses its first two characters. -/
theorem path_of_escape (hv : c.Valid p) (hp : ∀ c, p c = true → portChar c = true)
    (ha : c.authority = none) (hpct : c.path.head? = some '%') (h : crumble c.text opt = .ok u) :
    u.path ≠ some c.path := by
  obtain ⟨l, m, l', u', query, fragment, -, hl, hhier, rfl, -⟩ := crumble_hier hv hp h
  rw [Components.hierText, ha] at hl
  have htake := take_two_ne hv ha
  have hl' : l.lookahead = c.path ++ c.suffixText := hl
  have hrootless : PathRootless c.path := by
    rcases hv.path ha with (hpath | ⟨w, -, hpath⟩) | hw | hpath
    · rw [hpath] at hpct
      exact absurd hpct (by decide)
    · rw [hpath] at hpct
      exact absurd (Option.some.inj hpct) (by decide)
    · exact hw
    · rw [hpath] at hpct
      exact absurd hpct (by decide)
  obtain ⟨a, b, w, hpath, hxa, hxb, hw⟩ := hrootless.tail_of_escape hpct
  rw [hpath] at hl'
  have hfirst : pathFirst l = (true, l.adv 2) := by
    rw [pathFirst, if_neg (by rw [peek_of_cons hl']; decide), tests_pchar.pct hl' hxa hxb]
  have hadv : (l.adv 2).lookahead = (b :: w) ++ c.suffixText :=
    lookahead_adv_append (t := ['%', a]) hl'
  obtain ⟨l₁, hparse, -⟩ := parsePath_eq (u := withScheme opt m) (.inl hw) hadv
    (delimited_suffix c) noBracket_slash
  rw [parseHierPart, if_neg (by rw [hl]; exact htake), hfirst] at hhier
  dsimp only at hhier
  rw [hparse] at hhier
  obtain ⟨-, rfl⟩ := Prod.mk.inj (Except.ok.inj hhier)
  have hlen : (b :: w).length < c.path.length := by
    rw [hpath]
    simp
  have htwo : 1 < c.path.length := by
    rw [hpath]
    simp
  exact (holds_stored short_slash (b :: w) c.suffixText).ne hlen htwo

/-- What is parsed as a userinfo: any character, then characters of its class. -/
theorem parseUserinfo_sound (h : parseUserinfo l u = .ok (l', u')) (hold : u.userinfo = some []) :
    ∃ d w z, l.lookahead = d :: (w ++ '@' :: z) ∧ AllIn (orPct isUserinfoChar) w ∧
      u'.userinfo = (stored (some []) (d :: w) ('@' :: z)).map trimBracket := by
  obtain ⟨l₁, hloop, h⟩ := bind_eq_ok.mp h
  obtain ⟨d, x, hx⟩ : ∃ d x, l.lookahead = d :: x := by
    cases hx : l.lookahead with
    | nil =>
      have hnext : nextOrErr l.recordLmatch = .error (.err l.recordLmatch) := by
        rw [nextOrErr, next_nil (l := l.recordLmatch) hx]
      rw [doWhile, hnext] at hloop
      cases hloop
    | cons d x => exact ⟨d, x, rfl⟩
  have hx' : l.recordLmatch.lookahead = d :: x := hx
  obtain ⟨w, y, hxy, hloop', hw⟩ := doWhile_moves tests_userinfo hx'
  obtain rfl := Except.ok.inj (hloop'.symm.trans hloop)
  have hcat : l.lookahead = (d :: w) ++ y := by rw [hx, hxy]; rfl
  have hy : (l.recordLmatch.adv (w.length + 1)).lookahead = y :=
    lookahead_adv_append (l := l.recordLmatch) (t := d :: w) hcat
  split at h
  · cases h
  · next hat =>
    obtain ⟨z, hz⟩ := exists_cons (l := l.recordLmatch.adv (w.length + 1))
      (not_not.mp hat) (by decide)
    obtain rfl := hy.symm.trans hz
    obtain ⟨⟨l₂, e⟩, -, h⟩ := bind_eq_ok.mp h
    obtain ⟨-, rfl⟩ := Prod.mk.inj (Except.ok.inj h)
    refine ⟨d, w, z, hx.trans (by rw [hxy]), hw, ?_⟩
    have hadjust := adjust_eq (l := l.recordLmatch.adv (d :: w).length) hcat rfl (some [])
    rw [← hadjust, ← hold]
    split
    · rfl
    · obtain ⟨user, pwd, hcrumble⟩ := crumbleUserPassword_eq { u with
        userinfo := adjustGreedyMatch (l.recordLmatch.adv (w.length + 1)).recordRmatch u.userinfo }
      rw [hcrumble]
      rfl

/-- When a URI with an authority is accepted, the parts of its authority are. -/
theorem crumble_authority {a : Authority} (hv : c.Valid p)
    (hp : ∀ c, p c = true → portChar c = true) (ha : c.authority = some a)
    (h : crumble c.text opt = .ok u) :
    ∃ l m l₁ u₁ l₂ u₂ l₃ u₃ l₄ u₄ l₅, Holds m c.scheme ∧
      l.lookahead = a.userText ++ (a.host ++ (behind ':' a.port ++ c.rest)) ∧
      parseUserinfoOpt l (withScheme opt m) = .ok (l₁, u₁) ∧
      parseHost l₁ u₁ = .ok (l₂, u₂) ∧ parsePortOpt l₂ u₂ = .ok (l₃, u₃) ∧
      parseAbempty l₃ u₃ = .ok (l₄, u₄) ∧
      (do let (l, u) ← parseQueryOpt l₄ u₄
          parseFragmentOpt l u) = .ok (l₅, u) := by
  obtain ⟨l, m, l₄, u₄, -, -, hm, hl, hhier, -, l₅, hsuffix⟩ := crumble_hier hv hp h
  rw [Components.hierText, ha] at hl
  have hcons : l.lookahead = '/' :: '/' :: (a.text ++ c.rest) := hl
  have h₁ := lookahead_cons_adv hcons
  have h₂ := lookahead_cons_adv h₁
  rw [Authority.text, List.append_assoc, List.append_assoc] at h₂
  rw [parseHierPart, if_pos (by rw [hcons]; rfl), parseAuthority, expectChar_eq hcons, ok_bind,
    expectChar_eq h₁, ok_bind] at hhier
  obtain ⟨⟨l₁, u₁⟩, huser, hhier⟩ := bind_eq_ok.mp hhier
  obtain ⟨⟨l₂, u₂⟩, hhost, hhier⟩ := bind_eq_ok.mp hhier
  obtain ⟨⟨l₃, u₃⟩, hport, hpath⟩ := bind_eq_ok.mp hhier
  exact ⟨_, m, l₁, u₁, l₂, u₂, l₃, u₃, l₄, u₄, l₅, hm, h₂, huser, hhost, hport, hpath, hsuffix⟩

theorem parseHost_frame (h : parseHost l u = .ok (l', u')) :
    ∃ flags host, u' = { u with flags, host } := by
  obtain ⟨⟨l₁, flags⟩, -, h⟩ := bind_eq_ok.mp h
  exact ⟨flags, _, (Prod.mk.inj (Except.ok.inj h)).2.symm⟩

theorem parsePortOpt_frame (h : parsePortOpt l u = .ok (l', u')) :
    ∃ port, u' = { u with port } := by
  rw [parsePortOpt] at h
  split at h
  · rw [parsePort] at h
    split at h
    · cases h
    · obtain ⟨⟨l₁, d⟩, -, h⟩ := bind_eq_ok.mp h
      exact ⟨_, (Prod.mk.inj (Except.ok.inj h)).2.symm⟩
  · exact ⟨u.port, (Prod.mk.inj (Except.ok.inj h)).2.symm⟩

theorem parseAbempty_frame (h : parseAbempty l u = .ok (l', u')) :
    ∃ path, u' = { u with path } := by
  obtain ⟨l₁, -, h⟩ := bind_eq_ok.mp h
  exact ⟨_, (Prod.mk.inj (Except.ok.inj h)).2.symm⟩

/-- The query and the fragment leave all that comes before them. -/
theorem parseSuffix_frame (h : (do let (l, u) ← parseQueryOpt l u
                                   parseFragmentOpt l u) = .ok (l', u')) :
    ∃ query fragment, u' = { u with query, fragment } := by
  obtain ⟨⟨l₁, u₁⟩, hquery, hfragment⟩ := bind_eq_ok.mp h
  obtain ⟨query, rfl⟩ := parseQueryOpt_frame hquery
  obtain ⟨fragment, rfl⟩ := parseFragmentOpt_frame hfragment
  exact ⟨query, fragment, rfl⟩

/-- An `@` behind characters of a userinfo is not behind a delimiter. -/
theorem no_at {z : List Char} (hx : Delimited authorityEnds x) : ∀ {v w : List Char}, '@' ∉ v →
    AllIn (orPct isUserinfoChar) w → w ++ '@' :: z ≠ v ++ x
  | [], w, _, hw => by
    rintro (rfl : w ++ '@' :: z = x)
    cases w with
    | nil => exact absurd (delimited_cons.mp hx) (by decide)
    | cons d w =>
      have hd := (allIn_cons.mp hw).1
      have hmem := delimited_cons.mp hx
      simp only [authorityEnds, List.mem_cons, List.not_mem_nil, or_false] at hmem
      rcases hmem with rfl | rfl | rfl <;> exact absurd hd (by decide)
  | d :: v, [], hv, _ => fun h => hv (by rw [← (List.cons.inj h).1]; exact List.mem_cons_self)
  | d :: v, e :: w, hv, hw => fun h =>
    no_at hx (List.not_mem_of_not_mem_cons hv) (allIn_cons.mp hw).2 (List.cons.inj h).2

/-- No `@` is in a host or a port. -/
theorem not_at_hostPort {a : Authority} (hv : a.Valid p)
    (hp : ∀ c, p c = true → portChar c = true) : '@' ∉ a.host ++ behind ':' a.port := by
  rw [List.mem_append, not_or]
  exact ⟨hv.host.not_mem (by decide) (by decide), not_at_of_port hp hv.port⟩

/-- An empty userinfo is refused. -/
theorem refuses_empty_userinfo {a : Authority} (hv : c.Valid p)
    (hp : ∀ c, p c = true → portChar c = true) (ha : c.authority = some a)
    (hinfo : a.userinfo = some []) : crumble c.text opt ≠ .ok u := by
  intro h
  obtain ⟨l, m, l₁, u₁, -, -, -, -, -, -, -, -, hl, huser, -⟩ := crumble_authority hv hp ha h
  have hcons : l.lookahead = '@' :: (a.host ++ (behind ':' a.port ++ c.rest)) := by
    rw [hl, Authority.userText, hinfo]
    rfl
  rw [parseUserinfoOpt, if_pos (by rw [hcons]; exact List.mem_cons_self)] at huser
  obtain ⟨d, w, z, hsplit, hw, -⟩ := parseUserinfo_sound huser rfl
  have htail := (List.cons.inj (hsplit.symm.trans hcons)).2
  rw [← List.append_assoc] at htail
  exact no_at (delimited_rest hv ha) (not_at_hostPort (hv.authority a ha).1 hp) hw htail

/-- An `@` behind an authority without a userinfo: the text before it is taken for a userinfo, if
the authority is empty, and else refused. -/
theorem userinfo_of_at {a : Authority} (hv : c.Valid p)
    (hp : ∀ c, p c = true → portChar c = true) (ha : c.authority = some a)
    (hinfo : a.userinfo = none) (hat : '@' ∈ c.rest) (h : crumble c.text opt = .ok u) :
    a.text = [] ∧ u.userinfo ≠ some [] := by
  obtain ⟨l, m, l₁, u₁, l₂, u₂, l₃, u₃, l₄, u₄, l₅, -, hl, huser, hhost, hport, hpath, hsuffix⟩ :=
    crumble_authority hv hp ha h
  have huserText : a.userText = [] := by rw [Authority.userText, hinfo]; rfl
  rw [huserText, List.nil_append, ← List.append_assoc] at hl
  have hrest := delimited_rest hv ha
  have hno := not_at_hostPort (hv.authority a ha).1 hp
  rw [parseUserinfoOpt, if_pos (by rw [hl]; exact List.mem_append_right _ hat)] at huser
  obtain ⟨d, w, z, hsplit, hw, hstored⟩ := parseUserinfo_sound huser rfl
  rw [hl] at hsplit
  have hnil : a.host ++ behind ':' a.port = [] := by
    cases hcat : a.host ++ behind ':' a.port with
    | nil => rfl
    | cons e v =>
      rw [hcat] at hsplit hno
      exact absurd (List.cons.inj hsplit).2.symm
        (no_at hrest (List.not_mem_of_not_mem_cons hno) hw)
  rw [hnil, List.nil_append] at hsplit
  rw [hsplit] at hrest
  refine ⟨by rw [Authority.text, huserText, hnil]; rfl, ?_⟩
  have hbracket : ']' ∉ d :: w := by
    have hd := delimited_cons.mp hrest
    rw [List.mem_cons, not_or]
    refine ⟨?_, not_bracket_of_allIn (by decide) hw⟩
    rintro rfl
    exact absurd hd (by decide)
  have huserinfo : u.userinfo = u₁.userinfo := by
    obtain ⟨flags, host, rfl⟩ := parseHost_frame hhost
    obtain ⟨port, rfl⟩ := parsePortOpt_frame hport
    obtain ⟨path, rfl⟩ := parseAbempty_frame hpath
    obtain ⟨query, fragment, rfl⟩ := parseSuffix_frame hsuffix
    rfl
  rw [huserinfo, hstored, (noBracket_some (v := []) List.not_mem_nil).stored hbracket _ |>.map,
    stored]
  split
  · exact fun h => absurd (Option.some.inj h) (List.cons_ne_nil _ _)
  · rw [if_neg (List.cons_ne_nil _ _)]
    exact fun h => by cases h

/-- At text that goes on a registered name, the parsers behind the host find nothing. -/
theorem leftover {e : Char} {l₂ l₃ l₄ l₅ : Lexer} {u₂ u₃ u₄ u₅ : Uri} (hl : l₂.lookahead = e :: x)
    (he : orPct isNameChar e = true) (hold : u₂.path = some ['/'])
    (hport : parsePortOpt l₂ u₂ = .ok (l₃, u₃)) (hpath : parseAbempty l₃ u₃ = .ok (l₄, u₄))
    (hsuffix : (do let (l, u) ← parseQueryOpt l₄ u₄
                   parseFragmentOpt l u) = .ok (l₅, u₅)) :
    u₅ = { u₂ with path := some [] } := by
  have hne : ∀ {d : Char}, orPct isNameChar d = false → e ≠ d := by
    rintro d hd rfl
    rw [he] at hd
    exact absurd hd (by decide)
  rw [parsePortOpt, if_neg (by rw [peek_of_cons hl]; exact hne (by decide))] at hport
  obtain ⟨rfl, rfl⟩ := Prod.mk.inj (Except.ok.inj hport)
  have hlmatch : l₂.recordLmatch.lookahead = e :: x := hl
  have hadjust : adjustGreedyMatch l₂.recordLmatch.recordRmatch u₂.path = some [] := by
    rw [hold]
    exact (adjust_adv (v := []) hl noBracket_slash List.not_mem_nil).trans
      (stored_of_lt (by decide))
  rw [parseAbempty, expectPathAbempty, if_pos (by rw [peek_of_cons hlmatch]; exact hne (by decide)),
    ok_bind] at hpath
  dsimp only at hpath
  rw [hadjust] at hpath
  obtain ⟨rfl, rfl⟩ := Prod.mk.inj (Except.ok.inj hpath)
  have hlook : l₂.recordLmatch.recordRmatch.lookahead = e :: x := hl
  rw [parseQueryOpt, if_neg (by rw [peek_of_cons hlook]; exact hne (by decide))] at hsuffix
  obtain ⟨⟨l, u⟩, hquery, hfragment⟩ := bind_eq_ok.mp hsuffix
  obtain ⟨rfl, rfl⟩ := Prod.mk.inj (Except.ok.inj hquery)
  dsimp only at hfragment
  rw [parseFragmentOpt, if_neg (by rw [peek_of_cons hlook]; exact hne (by decide))] at hfragment
  exact (Prod.mk.inj (Except.ok.inj hfragment)).2.symm

/-- A URI whose host is `v` and ends with it. -/
def cutAt (c : Components) (a : Authority) (v : List Char) : Components :=
  ⟨c.scheme, some ⟨a.userinfo, v, none⟩, [], none, none⟩

/-- **A host that starts with a digit and is not digits and dots** is cut off, and what follows is
left unparsed. -/
theorem host_of_digits {a : Authority} {d : Char} (hv : c.Valid p)
    (hp : ∀ c, p c = true → portChar c = true) (ha : c.authority = some a)
    (huser : a.userinfo ≠ some []) (hat : a.userinfo = none → '@' ∉ c.rest)
    (hhead : a.host.head? = some d) (hd : d.isDigit = true) (hmixed : ¬ AllIn ipv4Char a.host)
    (h : crumble c.text opt = .ok u) :
    ∃ v, v ≠ [] ∧ v.length < a.host.length ∧ RegName v ∧ Crumbled (cutAt c a v) u := by
  obtain ⟨l, m, l₁, u₁, l₂, u₂, l₃, u₃, l₄, u₄, l₅, hm, hl, hinfo, hhost, hport, hpath, hsuffix⟩ :=
    crumble_authority hv hp ha h
  have hva := (hv.authority a ha).1
  have hat' : a.userinfo = none → '@' ∉ a.host ++ (behind ':' a.port ++ c.rest) := by
    intro hnone
    rw [← List.append_assoc, List.mem_append, not_or]
    exact ⟨not_at_hostPort hva hp, hat hnone⟩
  obtain ⟨l₁', userinfo, user, pwd, hparse₁, hl₁, huserinfo, hnouser⟩ :=
    parseUserinfoOpt_eq (u := withScheme opt m) hva huser hat' hl rfl rfl
  obtain ⟨rfl, rfl⟩ := Prod.mk.inj (Except.ok.inj (hparse₁.symm.trans hinfo))
  have hname : RegName a.host := by
    rcases hva.host.cases with ⟨b, -, hb⟩ | hname
    · rw [hb] at hhead
      obtain rfl := Option.some.inj hhead
      exact absurd hd (by decide)
    · exact hname
  obtain ⟨w, hw⟩ : ∃ w, a.host = d :: w := by
    cases hh : a.host with
    | nil =>
      rw [hh] at hhead
      cases hhead
    | cons e w =>
      rw [hh] at hhead
      exact ⟨w, by rw [Option.some.inj hhead]⟩
  obtain ⟨y, hy, hsplit⟩ := exists_front ipv4Char w
  cases hz : w.dropWhile ipv4Char with
  | nil =>
    rw [hz, List.append_nil] at hsplit
    rw [hw, hsplit] at hmixed
    exact absurd (allIn_cons.mpr ⟨ipv4_of_isDigit hd, hy⟩) hmixed
  | cons e z =>
    rw [hz] at hsplit
    have hstop : Stops ipv4Char (e :: (z ++ (behind ':' a.port ++ c.rest))) := by
      have hdrop := stops_dropWhile (p := ipv4Char) (x := w)
      rw [hz] at hdrop
      exact stops_cons.mpr (stops_cons.mp hdrop)
    have he : orPct isNameChar e = true := by
      refine hname.allIn hexy_name e ?_
      rw [hw, hsplit]
      simp
    have hl₁' : l₁'.lookahead = d :: (y ++ e :: (z ++ (behind ':' a.port ++ c.rest))) := by
      rw [hl₁, hw, hsplit]
      simp
    obtain ⟨l₂', hparse₂, hl₂⟩ := parseHost_digits
      (u := { withScheme opt m with userinfo, user, pwd }) hd hy hstop hl₁' rfl
    obtain ⟨rfl, rfl⟩ := Prod.mk.inj (Except.ok.inj (hparse₂.symm.trans hhost))
    obtain rfl := leftover hl₂ he rfl hport hpath hsuffix
    have hcut : RegName (d :: y) := encoded_of_allIn (allIn_cons.mpr
      ⟨name_of_ipv4 (ipv4_of_isDigit hd), fun c hc => name_of_ipv4 (hy c hc)⟩)
    have hholds : HoldsHost ⟨true, false⟩
        (stored (some []) (d :: y) (e :: (z ++ (behind ':' a.port ++ c.rest)))) (d :: y) :=
      holdsHost_name hcut (holds_stored short_nil _ _) rfl
    refine ⟨d :: y, List.cons_ne_nil d y, ?_, hcut, hm, rfl, huserinfo, hnouser, hholds.name,
      hholds.literal, holds_nil, holds_nil, holds_nil, holds_nil⟩
    rw [hw, hsplit]
    simp

/-! ## 2. Completeness -/

/-- An IP-literal without its brackets, and any other host. -/
def bareHost : List Char → List Char
  | '[' :: a => a.dropLast
  | v => v

/-- The host of a literal is reported without its brackets. -/
theorem bareHost_literal (a : List Char) : bareHost ('[' :: (a ++ [']'])) = a := by
  simp [bareHost]

/-- A name is reported as it is. -/
theorem bareHost_name (hv : RegName v) : bareHost v = v := by
  unfold bareHost
  split
  · exact absurd List.mem_cons_self (hv.not_mem hexy_name (by decide) (by decide))
  · rfl

/-- The object has the components, the host of an IP-literal without its brackets. -/
structure Reports (u : Uri) (c : Components) : Prop where
  scheme : u.scheme = some c.scheme
  userinfo : u.userinfo = some (c.userinfo.getD [])
  host : u.host = some (bareHost c.host)
  port : u.port = some (c.port.getD [])
  path : u.path = some c.path
  query : u.query = some (c.query.getD [])
  fragment : u.fragment = some (c.fragment.getD [])

/-- Every component is shorter than the token buffer. -/
structure Fits (c : Components) : Prop where
  scheme : c.scheme.length < tokenSz
  userinfo : (c.userinfo.getD []).length < tokenSz
  host : c.host.length < tokenSz
  port : (c.port.getD []).length < tokenSz
  path : c.path.length < tokenSz
  query : (c.query.getD []).length < tokenSz
  fragment : (c.fragment.getD []).length < tokenSz

/-- Every component leaves room in the buffer for the character behind it; that of an IP-literal is
the closing bracket. -/
structure Room (c : Components) : Prop where
  scheme : c.scheme.length + 1 < tokenSz
  userinfo : (c.userinfo.getD []).length + 1 < tokenSz
  host : c.host.head? ≠ some '[' → c.host.length + 1 < tokenSz
  port : (c.port.getD []).length + 1 < tokenSz
  path : c.path.length + 1 < tokenSz
  query : (c.query.getD []).length + 1 < tokenSz
  fragment : (c.fragment.getD []).length + 1 < tokenSz

/-- A component that fits is in its buffer. -/
theorem Holds.eq {m : Token} (h : Holds m v) (hlt : v.length + 1 < tokenSz) : m = some v := by
  rwa [Holds, if_pos hlt] at h

/-- A buffer that has the component has room for it. -/
theorem Holds.lt {m : Token} (h : Holds m v) (hm : m = some v) : v.length + 1 < tokenSz := by
  rw [Holds] at h
  split at h
  · next hlt => exact hlt
  · next hlt =>
    refine absurd (Nat.lt_of_le_of_lt (Nat.succ_le_succ (h v hm)) ?_) hlt
    decide

/-- A name does not start with a bracket. -/
theorem head_of_name (hv : RegName v) : v.head? ≠ some '[' := by
  cases v with
  | nil => exact fun h => by cases h
  | cons d w =>
    intro h
    obtain rfl := Option.some.inj h
    exact hv.not_mem hexy_name (by decide) (by decide) List.mem_cons_self

/-- The host of a URI without an authority is empty, which is a name. -/
theorem Components.Valid.host (hv : c.Valid p) : Host c.host := by
  rw [Components.host]
  cases ha : c.authority with
  | none => exact .inr (.inr .nil)
  | some a => exact (hv.authority a ha).1.host

/-- After a good URI, the components are reported when they leave room. -/
theorem Crumbled.reports_iff (hv : c.Valid p) (hfits : Fits c) (h : Crumbled c u) :
    Reports u c ↔ Room c := by
  constructor
  · intro hr
    refine ⟨h.scheme.lt hr.scheme, h.holdsUserinfo.lt hr.userinfo, fun hhead => ?_,
      h.port.lt hr.port, h.path.lt hr.path, h.query.lt hr.query, h.fragment.lt hr.fragment⟩
    rcases hv.host.cases with ⟨a, -, ha⟩ | hname
    · rw [ha] at hhead
      exact absurd rfl hhead
    · exact (h.name hname).1.lt (by rw [hr.host, bareHost_name hname])
  · intro hroom
    refine ⟨h.scheme.eq hroom.scheme, h.holdsUserinfo.eq hroom.userinfo, ?_, h.port.eq hroom.port,
      h.path.eq hroom.path, h.query.eq hroom.query, h.fragment.eq hroom.fragment⟩
    rcases hv.host.cases with ⟨a, -, ha⟩ | hname
    · rw [(h.literal a ha hfits.host).1, ha, bareHost_literal]
    · rw [(h.name hname).1.eq (hroom.host (head_of_name hname)), bareHost_name hname]

/-- A URI whose components are reported is good. -/
theorem good_of_reports (hv : c.Valid p) (hp : ∀ c, p c = true → portChar c = true)
    (h : crumble c.text opt = .ok u) (hr : Reports u c) : Good c := by
  have hinfo : ∀ {a}, c.authority = some a → c.userinfo = a.userinfo := by
    intro a ha
    rw [Components.userinfo, ha]
    rfl
  have huser : c.userinfo ≠ some [] := by
    intro hnil
    cases ha : c.authority with
    | none =>
      rw [Components.userinfo, ha] at hnil
      cases hnil
    | some a => exact refuses_empty_userinfo hv hp ha ((hinfo ha).symm.trans hnil) h
  have hat : ∀ a ∈ c.authority, a.userinfo = none → '@' ∉ c.rest := by
    intro a ha hnone hmem
    refine (userinfo_of_at hv hp ha hnone hmem h).2 (hr.userinfo.trans ?_)
    rw [hinfo ha, hnone]
    rfl
  refine ⟨fun ha => ⟨fun hroot => refuses_root hv hp ha hroot h, fun hpct =>
    path_of_escape hv hp ha hpct h hr.path⟩, huser, hat, ?_⟩
  intro d hhead hd
  refine Classical.byContradiction fun hmixed => ?_
  cases ha : c.authority with
  | none =>
    rw [Components.host, ha] at hhead
    cases hhead
  | some a =>
    have hhost : c.host = a.host := by rw [Components.host, ha]; rfl
    rw [hhost] at hhead hmixed
    obtain ⟨v, -, hlen, hcut, hcrumbled⟩ := host_of_digits hv hp ha (hinfo ha ▸ huser) (hat a ha)
      hhead hd hmixed h
    have hname : RegName a.host := by
      rcases (hv.authority a ha).1.host.cases with ⟨b, -, hb⟩ | hname
      · rw [hb] at hhead
        obtain rfl := Option.some.inj hhead
        exact absurd hd (by decide)
      · exact hname
    have htwo : 1 < a.host.length := by
      refine Nat.lt_of_not_le fun hle => hmixed ?_
      cases hh : a.host with
      | nil => exact allIn_nil
      | cons e w =>
        rw [hh] at hhead hle
        obtain rfl := Option.some.inj hhead
        obtain rfl := List.length_eq_zero_iff.mp (Nat.le_zero.mp (Nat.le_of_succ_le_succ hle))
        exact allIn_cons.mpr ⟨ipv4_of_isDigit hd, allIn_nil⟩
    refine (hcrumbled.name hcut).1.ne hlen htwo ?_
    rw [hr.host, hhost, bareHost_name hname]

theorem port_of_isDigit {d : Char} (h : d.isDigit = true) : portChar d = true := by
  rw [portChar, Char.isAlphanum, h, Bool.or_true]
  rfl

/-- **Completeness.**  A URI of RFC 3986 with components shorter than the token buffer is accepted,
and its components are reported, exactly when it is good and its components leave room. -/
theorem crumble_complete_iff (c : Components) (opt : Bool) (hv : c.Valid Char.isDigit)
    (hfits : Fits c) :
    (∃ u, crumble c.text opt = .ok u ∧ Reports u c) ↔ Good c ∧ Room c := by
  have hp : ∀ c, Char.isDigit c = true → portChar c = true := fun _ => port_of_isDigit
  constructor
  · rintro ⟨u, h, hr⟩
    have hg := good_of_reports hv hp h hr
    obtain ⟨u', h', hcrumbled⟩ := crumble_good hv hp hg opt
    obtain rfl := Except.ok.inj (h.symm.trans h')
    exact ⟨hg, (hcrumbled.reports_iff hv hfits).mp hr⟩
  · rintro ⟨hg, hroom⟩
    obtain ⟨u, h, hcrumbled⟩ := crumble_good hv hp hg opt
    exact ⟨u, h, (hcrumbled.reports_iff hv hfits).mpr hroom⟩

/-- A URI with all the components. -/
def sample : Components :=
  ⟨['x'], some ⟨some ['u', ':', 'p'], ['h'], some ['8', '0']⟩, ['/', 'a'], some ['q'], some ['f']⟩

/-- What it is taken apart into. -/
def sampleUri : Uri :=
  ⟨false, ⟨false, false⟩, some ['x'], some ['u', ':', 'p'], some ['u'], some ['p'], some [],
    some ['h'], some ['8', '0'], some ['/', 'a'], some ['q'], some ['f']⟩

theorem sample_valid : sample.Valid Char.isDigit := by
  refine ⟨⟨'x', [], rfl, rfl, allIn_nil⟩, fun a ha => ?_, fun h => absurd h (by decide),
    fun q hq => ?_, fun f hf => ?_⟩
  · obtain rfl := Option.some.inj ha
    refine ⟨⟨fun u hu => ?_, .inr (.inr (.plain rfl .nil)), fun v hv => ?_⟩,
      .cons (s := ['a']) (.plain rfl .nil) .nil⟩
    · obtain rfl := Option.some.inj hu
      exact .plain rfl (.plain rfl (.plain rfl .nil))
    · obtain rfl := Option.some.inj hv
      exact allIn_cons.mpr ⟨rfl, allIn_cons.mpr ⟨rfl, allIn_nil⟩⟩
  · obtain rfl := Option.some.inj hq
    exact .plain rfl .nil
  · obtain rfl := Option.some.inj hf
    exact .plain rfl .nil

theorem sample_fits : Fits sample :=
  ⟨by decide, by decide, by decide, by decide, by decide, by decide, by decide⟩

theorem sample_room : Room sample :=
  ⟨by decide, by decide, fun _ => by decide, by decide, by decide, by decide, by decide⟩

theorem crumble_complete_sample : ∃ u, crumble sample.text false = .ok u ∧ Reports u sample := by
  refine (crumble_complete_iff sample false sample_valid sample_fits).mpr
    ⟨⟨fun h => absurd h (by decide), by decide, fun a ha hnone => ?_, fun d hd hdigit => ?_⟩,
      sample_room⟩
  · obtain rfl := Option.some.inj ha
    cases hnone
  · obtain rfl := Option.some.inj hd
    exact absurd hdigit (by decide)

/-- A URI with an `@` behind an authority without a userinfo. -/
def atInPath : Components := ⟨['x'], some ⟨none, ['h'], none⟩, ['/', 'a', '@', 'b'], none, none⟩

theorem crumble_incomplete : atInPath.Valid Char.isDigit ∧ Fits atInPath ∧
    ¬ ∃ u, crumble atInPath.text false = .ok u ∧ Reports u atInPath := by
  have hvalid : atInPath.Valid Char.isDigit := by
    refine ⟨⟨'x', [], rfl, rfl, allIn_nil⟩, fun a ha => ?_, fun h => absurd h (by decide),
      fun q hq => ?_, fun f hf => ?_⟩
    · obtain rfl := Option.some.inj ha
      refine ⟨⟨fun u hu => (by cases hu), .inr (.inr (.plain rfl .nil)), fun v hv => (by cases hv)⟩,
        .cons (s := ['a', '@', 'b']) (.plain rfl (.plain rfl (.plain rfl .nil))) .nil⟩
    · cases hq
    · cases hf
  have hfits : Fits atInPath :=
    ⟨by decide, by decide, by decide, by decide, by decide, by decide, by decide⟩
  refine ⟨hvalid, hfits, ?_⟩
  rintro ⟨u, hcrumble, -⟩
  cases (show crumble atInPath.text false = _ from rfl).symm.trans hcrumble

end Libu.Uri
