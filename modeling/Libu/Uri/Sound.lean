/-
# Which accepted strings are URIs

The parser accepts every URI (`Libu.Uri.Complete`), and a good deal more.  This module says how much
more: of an accepted string it is said, by its text alone, when it is a URI of the grammar.

* §1: encoded strings and paths, from their characters.
* §2: what the parser leaves unchecked (`Proper`).  It is satisfied with any first character of a
  userinfo, any text between brackets, any percent sign, and any text behind the last component.
* §3: an accepted string is a URI exactly when it is proper (`crumble_sound_iff`).  From the grammar
  to the text, each component has characters of its own and so ends where the text is cut.  The
  other way round the text is cut first, and what the parser has checked of each piece is enough,
  with what it has not, for the production of the grammar.
* §4: no loop of the parser runs without an end, so that a string is accepted or refused
  (`stopped_crumble`).
-/
import Libu.Uri.Complete

namespace Libu.Uri

open Verif Lexer

variable {l l' : Lexer} {u u' : Uri} {c : Components} {s v w x : List Char} {p : Char → Bool}
  {opt : Bool}

/-! ## 1. Characters and encodings -/

/-- Every percent sign is followed by two hexadecimal digits. -/
abbrev Escaped (v : List Char) : Prop := Encoded (· ≠ '%') v

/-- In an encoded string of any class without the percent sign the escapes are complete. -/
theorem Encoded.escaped (hv : Encoded p v) (hp : p '%' = false) : Escaped v := by
  refine hv.mono fun c hc => decide_eq_true ?_
  rintro rfl
  rw [hp] at hc
  exact absurd hc (by decide)

/-- The other way round: complete escapes and, besides them, characters of the class. -/
theorem encoded_of_escaped (hv : Escaped v) (h : AllIn (orPct p) v) : Encoded p v := by
  induction hv with
  | nil => exact .nil
  | plain hc _ ih =>
    obtain ⟨hor, hrest⟩ := allIn_cons.mp h
    rw [orPct, decide_eq_false (of_decide_eq_true hc), Bool.or_false] at hor
    exact .plain hor (ih hrest)
  | pct ha hb _ ih =>
    exact .pct ha hb (ih (allIn_cons.mp (allIn_cons.mp (allIn_cons.mp h).2).2).2)

/-- An escape does not go over a character that is no hexadecimal digit. -/
theorem escaped_split (hx : Stops isXDigit x) : ∀ {v : List Char}, Escaped (v ++ x) →
    Escaped v ∧ Escaped x
  | [], h => ⟨.nil, h⟩
  | [c], h => by
    cases h with
    | plain hc hrest => exact ⟨.plain hc .nil, hrest⟩
    | pct ha _ _ =>
      rw [stops_cons.mp hx] at ha
      exact absurd ha (by decide)
  | [c, d], h => by
    cases h with
    | plain hc hrest =>
      obtain ⟨hd, hx'⟩ := escaped_split hx (v := [d]) hrest
      exact ⟨.plain hc hd, hx'⟩
    | pct _ hb _ =>
      rw [stops_cons.mp hx] at hb
      exact absurd hb (by decide)
  | c :: d :: e :: v, h => by
    cases h with
    | plain hc hrest =>
      obtain ⟨hd, hx'⟩ := escaped_split hx (v := d :: e :: v) hrest
      exact ⟨.plain hc hd, hx'⟩
    | pct ha hb hrest =>
      obtain ⟨hv, hx'⟩ := escaped_split hx hrest
      exact ⟨.pct ha hb hv, hx'⟩

/-- A character of a path. -/
def pathChar (c : Char) : Bool := isPchar c || c = '/'

/-- A string of such characters is a segment and the segments behind it. -/
theorem segments_of_encoded (hv : Encoded pathChar v) :
    ∃ s q, v = s ++ q ∧ Segment s ∧ PathAbempty q := by
  induction hv with
  | nil => exact ⟨[], [], rfl, .nil, .nil⟩
  | @plain c v hc _ ih =>
    obtain ⟨s, q, rfl, hs, hq⟩ := ih
    rcases Bool.or_eq_true_iff.mp hc with hc | hc
    · exact ⟨c :: s, q, rfl, .plain hc hs, hq⟩
    · obtain rfl := of_decide_eq_true hc
      exact ⟨[], '/' :: (s ++ q), rfl, .nil, .cons hs hq⟩
  | @pct a b v ha hb _ ih =>
    obtain ⟨s, q, rfl, hs, hq⟩ := ih
    exact ⟨'%' :: a :: b :: s, q, rfl, .pct ha hb hs, hq⟩

/-- Behind an authority. -/
theorem abempty_of_encoded (hv : Encoded pathChar v) (h : Delimited ['/'] v) : PathAbempty v := by
  obtain ⟨s, q, rfl, hs, hq⟩ := segments_of_encoded hv
  cases hs with
  | nil => exact hq
  | plain hc _ =>
    obtain rfl := List.mem_singleton.mp (delimited_cons.mp h)
    exact absurd hc (by decide)
  | pct _ _ _ => exact absurd (delimited_cons.mp h) (by decide)

/-- Without an authority. -/
theorem path_of_encoded (hv : Encoded pathChar v) (h : v.take 2 ≠ ['/', '/']) :
    PathAbsolute v ∨ PathRootless v ∨ v = [] := by
  obtain ⟨s, q, rfl, hs, hq⟩ := segments_of_encoded hv
  by_cases hne : s = []
  · subst hne
    cases hq with
    | nil => exact .inr (.inr rfl)
    | @cons s q hs hq =>
      refine .inl ?_
      by_cases hne : s = []
      · subst hne
        cases hq with
        | nil => exact .inl rfl
        | cons _ _ => exact absurd rfl h
      · exact .inr ⟨s ++ q, ⟨s, q, hs, hne, hq, rfl⟩, rfl⟩
  · exact .inr (.inl ⟨s, q, hs, hne, hq, rfl⟩)

/-- The text of a path and a query, cut at the first question mark. -/
theorem split_query (hv : Encoded isQueryChar v) :
    ∃ path query, v = path ++ behind '?' query ∧ Encoded pathChar path ∧
      ∀ q ∈ query, Encoded isQueryChar q := by
  induction hv with
  | nil => exact ⟨[], none, rfl, .nil, fun q hq => by cases hq⟩
  | @plain c v hc hv ih =>
    by_cases hmark : c = '?'
    · subst hmark
      refine ⟨[], some v, rfl, .nil, fun q hq => ?_⟩
      obtain rfl := Option.some.inj hq
      exact hv
    · obtain ⟨path, query, rfl, hpath, hquery⟩ := ih
      refine ⟨c :: path, query, rfl, .plain ?_ hpath, hquery⟩
      rwa [isQueryChar, decide_eq_false hmark, Bool.or_false] at hc
  | @pct a b v ha hb _ ih =>
    obtain ⟨path, query, rfl, hpath, hquery⟩ := ih
    exact ⟨'%' :: a :: b :: path, query, rfl, .pct ha hb hpath, hquery⟩

/-! ## 2. What is not checked -/

/-- The authority in the text behind the scheme. -/
def authorityText : List Char → List Char
  | '/' :: '/' :: y => y.takeWhile (· ∉ authorityEnds)
  | _ => []

/-- What follows the authority. -/
def restText : List Char → List Char
  | '/' :: '/' :: y => y.dropWhile (· ∉ authorityEnds)
  | r => r

/-- An authority without its userinfo. -/
def hostPort (a : List Char) : List Char := if '@' ∈ a then (a.dropWhile (· ≠ '@')).tail else a

/-- Behind the scheme, every percent sign is followed by two hexadecimal digits, a userinfo starts
with one of its characters, an authority ends with a host and a port, in brackets there is an
address, and what follows the authority is characters of a path, a query and a fragment. -/
structure Proper (r : List Char) : Prop where
  escaped : Escaped r
  user : '@' ∈ authorityText r → ∀ d ∈ (authorityText r).head?, orPct isUserinfoChar d = true
  host : ∃ host port, hostPort (authorityText r) = host ++ behind ':' port ∧
    ((∃ a, Address a ∧ host = '[' :: (a ++ [']'])) ∨ AllIn (orPct isNameChar) host) ∧
    ∀ v ∈ port, AllIn portChar v
  rest : ∃ v fragment, restText r = v ++ behind '#' fragment ∧ AllIn (orPct isQueryChar) v ∧
    ∀ f ∈ fragment, AllIn (orPct isQueryChar) f

/-- The text behind the scheme. -/
def behindScheme (s : List Char) : List Char := (s.dropWhile (· ≠ ':')).tail

/-- A scheme has no colon, and so the text is cut behind it. -/
theorem behindScheme_eq (hv : Scheme v) : behindScheme (v ++ ':' :: x) = x := by
  have hne : AllIn (· ≠ ':') v := by
    intro d hd
    refine decide_eq_true ?_
    rintro rfl
    exact absurd (hv.allIn _ hd) (by decide)
  rw [behindScheme, dropWhile_append hne, Stops.dropWhile (stops_cons.mpr rfl)]
  rfl

/-- Without the two slashes there is no authority. -/
theorem authorityText_of_take (h : x.take 2 ≠ ['/', '/']) : authorityText x = [] := by
  unfold authorityText
  split
  · exact absurd rfl h
  · rfl

/-- Everything is then behind it. -/
theorem restText_of_take (h : x.take 2 ≠ ['/', '/']) : restText x = x := by
  unfold restText
  split
  · exact absurd rfl h
  · rfl

/-- A component with the character in front of it, or no component at all. -/
theorem escaped_behind {d : Char} (hd : d ≠ '%') {m : Option (List Char)}
    (hm : ∀ v ∈ m, Escaped v) : Escaped (behind d m) := by
  cases m with
  | none => exact .nil
  | some v => exact .plain (decide_eq_true hd) (hm v rfl)

/-- Characters without a percent sign have no escape to complete. -/
theorem escaped_of_allIn (hv : AllIn p v) (hp : p '%' = false) : Escaped v :=
  (encoded_of_allIn hv).escaped hp

/-- A host of the grammar has complete escapes; an address has none. -/
theorem Host.escaped (hv : Host v) : Escaped v := by
  rcases hv.cases with ⟨a, ha, rfl⟩ | hv
  · have hchars := escaped_of_allIn ha.chars rfl
    exact .plain rfl (hchars.append (.plain rfl .nil))
  · exact hv.escaped rfl

/-- All that follows an authority has complete escapes. -/
theorem Components.Valid.rest_escaped (hv : c.Valid p) : Escaped c.rest := by
  have hquery := escaped_behind (d := '?') (by decide) fun q hq => (hv.query q hq).escaped rfl
  have hfragment := escaped_behind (d := '#') (by decide) fun f hf => (hv.fragment f hf).escaped rfl
  exact (hv.path_encoded.escaped rfl).append (hquery.append hfragment)

/-- An authority as well. -/
theorem Authority.Valid.escaped {a : Authority} (hv : a.Valid portChar) : Escaped a.text := by
  have huser : Escaped a.userText := by
    rw [Authority.userText]
    cases hinfo : a.userinfo with
    | none => exact .nil
    | some w => exact ((hv.userinfo w hinfo).escaped rfl).append (.plain rfl .nil)
  have hport := escaped_behind (d := ':') (by decide) fun w hw => escaped_of_allIn
    (hv.port w hw) rfl
  exact huser.append (hv.host.escaped.append hport)

/-- A class that has no `/`, `?` and `#`, as those of the authority. -/
theorem not_ends_of_allIn (hp : authorityEnds.any p = false) (hv : AllIn p v) :
    AllIn (· ∉ authorityEnds) v := by
  intro d hd
  refine decide_eq_true fun hmem => ?_
  exact List.any_eq_false.mp hp d hmem (hv d hd)

/-- No character of an authority ends it. -/
theorem Authority.Valid.not_ends {a : Authority} (hv : a.Valid portChar) :
    AllIn (· ∉ authorityEnds) a.text := by
  have huser : AllIn (· ∉ authorityEnds) a.userText := by
    rw [Authority.userText]
    cases hinfo : a.userinfo with
    | none => exact allIn_nil
    | some w =>
      have hw := (hv.userinfo w hinfo).allIn hexy_userinfo
      exact allIn_append.mpr ⟨not_ends_of_allIn rfl hw, allIn_cons.mpr ⟨by decide, allIn_nil⟩⟩
  have hhost : AllIn (· ∉ authorityEnds) a.host := by
    rcases hv.host.cases with ⟨b, hb, heq⟩ | hname
    · rw [heq]
      simp only [allIn_cons, allIn_append]
      exact ⟨by decide, not_ends_of_allIn rfl hb.chars, by decide, allIn_nil⟩
    · exact not_ends_of_allIn rfl (hname.allIn hexy_name)
  have hport : AllIn (· ∉ authorityEnds) (behind ':' a.port) :=
    allIn_behind (by decide) fun w hw => not_ends_of_allIn rfl (hv.port w hw)
  simp only [Authority.text, allIn_append]
  exact ⟨huser, hhost, hport⟩

/-- Behind the authority there are characters of paths and queries, and behind a `#` those of a
fragment. -/
theorem Components.Valid.rest_text (hv : c.Valid p) : ∃ v fragment, c.rest =
    v ++ behind '#' fragment ∧
    AllIn (orPct isQueryChar) v ∧ ∀ f ∈ fragment, AllIn (orPct isQueryChar) f := by
  refine ⟨c.path ++ behind '?' c.query, c.fragment, ?_, allIn_append.mpr ⟨?_, ?_⟩, fun f hf => ?_⟩
  · rw [Components.rest, Components.suffixText, List.append_assoc]
  · exact hv.path_encoded.allIn hexy_query
  · exact allIn_behind rfl fun q hq => (hv.query q hq).allIn hexy_query
  · exact (hv.fragment f hf).allIn hexy_query

/-- An authority without a userinfo has no `@`, and is host and port. -/
theorem hostPort_of_none {a : Authority} (hv : a.Valid portChar) (hinfo : a.userinfo = none) :
    '@' ∉ a.text ∧ hostPort a.text = a.host ++ behind ':' a.port := by
  have htext : a.text = a.host ++ behind ':' a.port := by
    rw [Authority.text, Authority.userText, hinfo]
    rfl
  have hat := not_at_hostPort hv fun _ h => h
  rw [hostPort, htext, if_neg hat]
  exact ⟨hat, rfl⟩

/-- With a userinfo, host and port are what is behind the first `@`. -/
theorem hostPort_at (hv : AllIn (· ≠ '@') v) : hostPort (v ++ '@' :: x) = x := by
  rw [hostPort, if_pos (List.mem_append_right v List.mem_cons_self), dropWhile_append hv,
    Stops.dropWhile (stops_cons.mpr rfl)]
  rfl

/-- No `@` is inside a userinfo. -/
theorem not_at_of_userinfo (hv : AllIn (orPct isUserinfoChar) v) : AllIn (· ≠ '@') v := by
  intro d hd
  refine decide_eq_true ?_
  rintro rfl
  exact absurd (hv _ hd) (by decide)

/-- **A URI without an empty userinfo is proper** behind its scheme. -/
theorem Components.Valid.proper (hv : c.Valid portChar) (hne : c.userinfo ≠ some []) :
    Proper c.hierText := by
  cases ha : c.authority with
  | none =>
    have hrest : c.hierText = c.rest := by rw [Components.hierText, ha]; rfl
    have htake := take_two_ne hv ha
    rw [hrest]
    refine ⟨hv.rest_escaped, ?_, ⟨[], none, ?_, .inr allIn_nil, fun v h => by cases h⟩, ?_⟩
    · rw [authorityText_of_take htake]
      exact fun h => absurd h List.not_mem_nil
    · rw [authorityText_of_take htake]
      rfl
    · rw [restText_of_take htake]
      exact hv.rest_text
  | some a =>
    have hva := (hv.authority a ha).1
    have hinfo : c.userinfo = a.userinfo := by rw [Components.userinfo, ha]; rfl
    have htext : c.hierText = '/' :: '/' :: (a.text ++ c.rest) := by
      rw [Components.hierText, ha]
      rfl
    have hstops : Stops (· ∉ authorityEnds) c.rest := fun d hd =>
      decide_eq_false (not_not.mpr (delimited_rest hv ha d hd))
    have hauth : authorityText c.hierText = a.text := by
      rw [htext]
      exact takeWhile_append hva.not_ends hstops
    have hrest : restText c.hierText = c.rest := by
      rw [htext]
      exact (dropWhile_append hva.not_ends).trans hstops.dropWhile
    have hhost : (∃ b, Address b ∧ a.host = '[' :: (b ++ [']'])) ∨
      AllIn (orPct isNameChar) a.host :=
      hva.host.cases.imp_right fun h => h.allIn hexy_name
    have hsplit : ('@' ∈ a.text → ∀ d ∈ a.text.head?, orPct isUserinfoChar d = true) ∧
        hostPort a.text = a.host ++ behind ':' a.port := by
      cases hw : a.userinfo with
      | none =>
        obtain ⟨hat, hport⟩ := hostPort_of_none hva hw
        exact ⟨fun h => absurd h hat, hport⟩
      | some w =>
        have hchars := (hva.userinfo w hw).allIn hexy_userinfo
        have hcons : a.text = w ++ '@' :: (a.host ++ behind ':' a.port) := by
          rw [Authority.text, Authority.userText, hw, Option.elim_some, List.append_assoc]
          rfl
        have hwne : w ≠ [] := by
          rintro rfl
          exact hne (hinfo.trans hw)
        rw [hcons]
        refine ⟨fun _ d hd => hchars d ?_, hostPort_at (not_at_of_userinfo hchars)⟩
        obtain ⟨e, w, rfl⟩ := List.exists_cons_of_ne_nil hwne
        obtain rfl := Option.some.inj hd
        exact List.mem_cons_self
    refine ⟨?_, hauth ▸ hsplit.1, ⟨a.host, a.port, hauth ▸ hsplit.2, hhost, hva.port⟩, ?_⟩
    · rw [htext]
      exact .plain rfl (.plain rfl (hva.escaped.append hv.rest_escaped))
    · rw [hrest]
      exact hv.rest_text

/-! ## 3. Soundness -/

/-- The character in front of a component is no hexadecimal digit, and so it ends an escape. -/
theorem stops_behind {d : Char} (hd : isXDigit d = false) (m : Option (List Char)) :
    Stops isXDigit (behind d m) := by
  cases m with
  | none => exact stops_nil
  | some v => exact stops_cons.mpr hd

/-- The path, the query and the fragment in proper text. -/
theorem split_rest (hesc : Escaped x) (h : ∃ v fragment, x = v ++ behind '#' fragment ∧
      AllIn (orPct isQueryChar) v ∧ ∀ f ∈ fragment, AllIn (orPct isQueryChar) f) :
    ∃ path query fragment, x = path ++ (behind '?' query ++ behind '#' fragment) ∧
      Encoded pathChar path ∧ (∀ q ∈ query, Encoded isQueryChar q) ∧
      ∀ f ∈ fragment, Encoded isQueryChar f := by
  obtain ⟨v, fragment, rfl, hv, hf⟩ := h
  obtain ⟨hescv, hescf⟩ := escaped_split (stops_behind (by decide) fragment) hesc
  obtain ⟨path, query, rfl, hpath, hquery⟩ := split_query (encoded_of_escaped hescv hv)
  refine ⟨path, query, fragment, List.append_assoc _ _ _, hpath, hquery, fun f hmem => ?_⟩
  obtain rfl : fragment = some f := hmem
  cases hescf with
  | plain _ hesc => exact encoded_of_escaped hesc (hf f rfl)

/-- The host and the port. -/
theorem split_host (hesc : Escaped x) (h : ∃ host port, x = host ++ behind ':' port ∧
      ((∃ a, Address a ∧ host = '[' :: (a ++ [']'])) ∨ AllIn (orPct isNameChar) host) ∧
      ∀ v ∈ port, AllIn portChar v) :
    ∃ host port, x = host ++ behind ':' port ∧ Host host ∧ ∀ v ∈ port, AllIn portChar v := by
  obtain ⟨host, port, rfl, hhost, hport⟩ := h
  refine ⟨host, port, rfl, ?_, hport⟩
  rcases hhost with hliteral | hname
  · exact .inl hliteral
  · exact .inr (.inr (encoded_of_escaped (escaped_split
      (stops_behind (by decide) port) hesc).1 hname))

/-- What the parser does check of a userinfo. -/
def UserinfoRead (y : List Char) : Prop :=
  '@' ∈ y → ∃ d w z, y = d :: (w ++ '@' :: z) ∧ AllIn (orPct isUserinfoChar) w

/-- In proper text the authority is one of the grammar: its userinfo, its host and its port are
where the text is cut. -/
theorem authority_of_proper {y : List Char} (hr : Proper ('/' :: '/' :: y)) (hy : UserinfoRead y) :
    ∃ a : Authority, a.Valid portChar ∧ a.text = authorityText ('/' :: '/' :: y) := by
  have hsplit : authorityText ('/' :: '/' :: y) ++ restText ('/' :: '/' :: y) = y :=
    List.takeWhile_append_dropWhile
  have hstops : Stops isXDigit (restText ('/' :: '/' :: y)) := by
    intro d hd
    have hend := of_decide_eq_false (stops_dropWhile (p := (· ∉ authorityEnds)) (x := y) d hd)
    exact Bool.eq_false_iff.mpr
      (List.any_eq_false.mp (by decide : authorityEnds.any isXDigit = false) d (not_not.mp hend))
  have hescy : Escaped y := by
    cases hr.escaped with
    | plain _ h =>
      cases h with
      | plain _ h => exact h
  have hesca : Escaped (authorityText ('/' :: '/' :: y)) := by
    rw [← hsplit] at hescy
    exact (escaped_split hstops hescy).1
  by_cases hat : '@' ∈ authorityText ('/' :: '/' :: y)
  · obtain ⟨d, w, z, hdwz, hw⟩ := hy (by rw [← hsplit]; exact List.mem_append_left _ hat)
    have hd : orPct isUserinfoChar d = true := by
      refine hr.user hat d ?_
      obtain ⟨e, a, ha⟩ := List.exists_cons_of_ne_nil (List.ne_nil_of_mem hat)
      rw [ha, hdwz] at hsplit
      obtain rfl := (List.cons.inj hsplit).1
      rw [ha]
      rfl
    have hchars : AllIn (orPct isUserinfoChar) (d :: w) := allIn_cons.mpr ⟨hd, hw⟩
    have hauth : authorityText ('/' :: '/' :: y) =
        (d :: w) ++ '@' :: z.takeWhile (· ∉ authorityEnds) := by
      have hfront : AllIn (· ∉ authorityEnds) ((d :: w) ++ ['@']) :=
        allIn_append.mpr ⟨not_ends_of_allIn rfl hchars, allIn_cons.mpr ⟨by decide, allIn_nil⟩⟩
      have hcons : y = ((d :: w) ++ ['@']) ++ z := by rw [hdwz]; simp
      rw [authorityText, hcons, List.takeWhile_append_of_pos hfront, List.append_assoc]
      rfl
    have hhost := hr.host
    rw [hauth] at hesca hhost ⊢
    rw [hostPort_at (not_at_of_userinfo hchars)] at hhost
    obtain ⟨hescw, hesch⟩ := escaped_split (stops_cons.mpr (by decide)) hesca
    have hescz : Escaped (z.takeWhile (· ∉ authorityEnds)) := by
      cases hesch with
      | plain _ h => exact h
    obtain ⟨host, port, hz, hvalid, hport⟩ := split_host hescz hhost
    refine ⟨⟨some (d :: w), host, port⟩, ⟨fun v hv => ?_, hvalid, hport⟩, ?_⟩
    · obtain rfl := Option.some.inj hv
      exact encoded_of_escaped hescw hchars
    · rw [Authority.text, Authority.userText, Option.elim_some, hz]
      simp
  · have hhost := hr.host
    rw [hostPort, if_neg hat] at hhost
    obtain ⟨host, port, hz, hvalid, hport⟩ := split_host hesca hhost
    exact ⟨⟨none, host, port⟩, ⟨fun v hv => (by cases hv), hvalid, hport⟩, hz.symm⟩

/-- **Proper text behind a scheme makes a URI**, if its userinfo was read. -/
theorem isUri_of_proper (hv : Scheme v) (hr : Proper x)
    (huser : ∀ y, x = '/' :: '/' :: y → UserinfoRead y) : IsUri portChar (v ++ ':' :: x) := by
  by_cases htake : x.take 2 = ['/', '/']
  · obtain ⟨y, rfl⟩ : ∃ y, x = '/' :: '/' :: y :=
      ⟨x.drop 2, by rw [← List.take_append_drop 2 x, htake]; rfl⟩
    obtain ⟨a, hva, ha⟩ := authority_of_proper hr (huser y rfl)
    have hsplit : authorityText ('/' :: '/' :: y) ++ restText ('/' :: '/' :: y) = y :=
      List.takeWhile_append_dropWhile
    have hends : Delimited authorityEnds (restText ('/' :: '/' :: y)) := fun d hd =>
      not_not.mp (of_decide_eq_false (stops_dropWhile (p := (· ∉ authorityEnds)) (x := y) d hd))
    have hesc : Escaped (restText ('/' :: '/' :: y)) := by
      have hesc := hr.escaped
      have hcons : '/' :: '/' :: y =
          ('/' :: '/' :: authorityText ('/' :: '/' :: y)) ++ restText ('/' :: '/' :: y) := by
        rw [List.cons_append, List.cons_append, hsplit]
      rw [hcons] at hesc
      exact (escaped_split (hends.stops (by decide)) hesc).2
    obtain ⟨path, query, fragment, hrest, hpath, hquery, hfragment⟩ := split_rest hesc hr.rest
    have hslash : Delimited ['/'] path := by
      intro d hd
      obtain ⟨w, rfl⟩ := List.head?_eq_some_iff.mp hd
      rw [hrest] at hends
      have hmem := delimited_cons.mp hends
      have hchar := (allIn_cons.mp
        (hpath.allIn fun c hc => by rw [pathChar, hexy_pchar c hc]; rfl)).1
      simp only [authorityEnds, List.mem_cons, List.not_mem_nil, or_false] at hmem
      rcases hmem with rfl | rfl | rfl
      · exact List.mem_cons_self
      · exact absurd hchar (by decide)
      · exact absurd hchar (by decide)
    refine ⟨⟨v, some a, path, query, fragment⟩, ⟨hv, fun b hb => ?_, fun h => (by cases h), hquery,
      hfragment⟩, ?_⟩
    · obtain rfl := Option.some.inj hb
      exact ⟨hva, abempty_of_encoded hpath hslash⟩
    · change v ++ ':' :: ('/' :: '/' :: y) = v ++ ':' :: (('/' :: '/' :: a.text) ++
        (path ++ (behind '?' query ++ behind '#' fragment)))
      rw [ha, ← hrest, List.cons_append, List.cons_append, hsplit]
  · have hrest := hr.rest
    rw [restText_of_take htake] at hrest
    obtain ⟨path, query, fragment, rfl, hpath, hquery, hfragment⟩ := split_rest hr.escaped hrest
    refine ⟨⟨v, none, path, query, fragment⟩, ⟨hv, fun b hb => (by cases hb),
      fun _ => path_of_encoded hpath fun hpath => htake ?_, hquery, hfragment⟩, rfl⟩
    rw [List.take_append_of_le_length, hpath]
    have hlen : min 2 path.length = 2 := List.length_take.symm.trans (congrArg List.length hpath)
    exact Nat.le_trans (Nat.le_of_eq hlen.symm) (Nat.min_le_right _ _)

/-- The userinfo of an accepted string was read. -/
theorem userinfo_of_crumble (h : crumble s opt = .ok u) : ∃ v x, Scheme v ∧
    cString s = v ++ ':' :: x ∧ ∀ y, x = '/' :: '/' :: y → UserinfoRead y := by
  obtain ⟨l, v, x, m, l', u', -, -, hv, htext, -, hl, hhier, -⟩ := crumble_ok h
  refine ⟨v, x, hv, htext, ?_⟩
  rintro y rfl hat
  have h₁ := lookahead_cons_adv hl
  have h₂ := lookahead_cons_adv h₁
  rw [parseHierPart, if_pos (by rw [hl]; rfl), parseAuthority, expectChar_eq hl, ok_bind,
    expectChar_eq h₁, ok_bind] at hhier
  obtain ⟨⟨l₁, u₁⟩, huser, -⟩ := bind_eq_ok.mp hhier
  rw [parseUserinfoOpt, if_pos (by rw [h₂]; exact hat)] at huser
  obtain ⟨d, w, z, hsplit, hw, -⟩ := parseUserinfo_sound huser rfl
  exact ⟨d, w, z, h₂.symm.trans hsplit, hw⟩

/-- No URI with a userinfo that is empty is accepted: the first character of the userinfo is taken
unseen, here the `@`, and then no other ends it. -/
theorem not_empty_of_crumble (hv : c.Valid portChar) (h : crumble c.text opt = .ok u) :
    c.userinfo ≠ some [] := by
  intro hnil
  cases ha : c.authority with
  | none =>
    rw [Components.userinfo, ha] at hnil
    cases hnil
  | some a =>
    rw [Components.userinfo, ha] at hnil
    exact refuses_empty_userinfo hv (fun _ h => h) ha hnil h

theorem cString_cString (s : List Char) : cString (cString s) = cString s :=
  List.takeWhile_eq_self_iff.mpr fun _ hd => List.mem_takeWhile_imp (p := (· ≠ '\x00')) hd

/-- **Soundness.**  An accepted string is a URI of RFC 3986, with service names for ports, exactly
when it is proper behind its scheme.  The scheme needs no condition: what the parser takes for one
always is. -/
theorem crumble_sound_iff (s : List Char) (opt : Bool) (u : Uri) (h : crumble s opt = .ok u) :
    IsUri portChar (cString s) ↔ Proper (behindScheme (cString s)) := by
  obtain ⟨v, x, hv, htext, huser⟩ := userinfo_of_crumble h
  constructor
  · rintro ⟨c, hc, hct⟩
    have hcrumble : crumble c.text opt = .ok u := by
      rwa [← hct, crumble, Lexer.new, cString_cString, ← Lexer.new, ← crumble]
    rw [hct, Components.text, behindScheme_eq hc.scheme]
    exact hc.proper (not_empty_of_crumble hc hcrumble)
  · intro hproper
    rw [htext, behindScheme_eq hv] at hproper
    rw [htext]
    exact isUri_of_proper hv hproper huser

theorem crumble_sound_sample : IsUri portChar sample.text := by
  have hvalid : sample.Valid portChar := by
    refine ⟨sample_valid.scheme, fun a ha => ?_, sample_valid.path, sample_valid.query,
      sample_valid.fragment⟩
    obtain ⟨⟨huser, hhost, hport⟩, hpath⟩ := sample_valid.authority a ha
    exact ⟨⟨huser, hhost, fun v hv d hd => port_of_isDigit (hport v hv d hd)⟩, hpath⟩
  exact (crumble_sound_iff sample.text false sampleUri rfl).mpr (hvalid.proper (by decide))

theorem crumble_unsound : (∃ u, crumble ['a', ':', ' '] false = .ok u) ∧
    ¬ IsUri portChar (cString ['a', ':', ' ']) := by
  refine ⟨⟨{ new false with scheme := some ['a'], path := some [] }, rfl⟩, ?_⟩
  rintro ⟨c, hc, htext⟩
  have hspace : uriChar ' ' = true := hc.allIn (fun _ h => h) ' ' (by rw [← htext]; decide)
  exact absurd hspace (by decide)

/-! ## 4. The loops stop -/

/-- The parser did not run out of fuel. -/
def Stopped {α : Type} (r : Res α) : Prop := r ≠ .error .fuel

theorem stopped_ok {α : Type} (a : α) : Stopped (.ok a) := fun h => (by cases h)

theorem stopped_err {α : Type} (l : Lexer) : Stopped (.error (.err l) : Res α) :=
  fun h => (by cases h)

/-- Two computations in a row stop if both do. -/
theorem Stopped.bind {α β : Type} {r : Res α} {f : α → Res β} (hr : Stopped r)
    (hf : ∀ a, Stopped (f a)) : Stopped (r >>= f) := by
  cases r with
  | ok a => exact hf a
  | error e =>
    cases e with
    | err l => exact stopped_err l
    | fuel => exact absurd rfl hr

theorem stopped_nextOrErr (l : Lexer) : Stopped (nextOrErr l) := by
  rw [nextOrErr]
  split
  · exact stopped_ok _
  · exact stopped_err _

/-- A loop over a matcher has a character less before it at each turn. -/
theorem stopped_whileMatch {m : Lexer → Bool × Lexer} (h : Tests m p) (l : Lexer) :
    Stopped (whileMatch m (l.slen + 1) l) := by
  obtain ⟨w, x, -, hloop, -⟩ := whileMatch_moves h (Nat.lt_succ_of_le (lookahead_length_le_slen l))
  rw [hloop]
  exact stopped_ok _

theorem stopped_doWhile {m : Lexer → Bool × Lexer} (h : Tests m p) (l : Lexer) :
    Stopped (doWhile m l) :=
  (stopped_nextOrErr l).bind fun a => stopped_whileMatch h a.1

/-- Every turn of the loop over the segments takes a character. -/
theorem stopped_segmentLoop : ∀ {n : Nat} {l : Lexer}, l.lookahead.length < n → l.peek = '/' →
    Stopped (segmentLoop n l)
  | 0, _, hn, _ => absurd hn (Nat.not_lt_zero _)
  | n + 1, l, hn, hpeek => by
    obtain ⟨x, hx⟩ := exists_cons hpeek (by decide)
    obtain ⟨w, y, hxy, hloop, -⟩ := doWhile_moves tests_pchar hx
    have hcat : l.lookahead = ('/' :: w) ++ y := by rw [hx, hxy]; rfl
    have hlook : (l.adv (w.length + 1)).lookahead = y := lookahead_adv_append (t := '/' :: w) hcat
    rw [segmentLoop, expectSegment, hloop]
    dsimp only
    split
    · next hnext =>
      refine stopped_segmentLoop ?_ hnext
      rw [hlook]
      rw [hcat, List.length_append, List.length_cons] at hn
      omega
    · exact stopped_ok _

theorem stopped_expectPathAbempty (l : Lexer) : Stopped (expectPathAbempty l) := by
  rw [expectPathAbempty]
  split
  · exact stopped_ok l
  · next hpeek =>
    exact stopped_segmentLoop (Nat.lt_succ_of_le (lookahead_length_le_slen l)) (not_not.mp hpeek)

theorem stopped_expectChar (l : Lexer) (c : Char) : Stopped (expectChar l c) := by
  rw [expectChar]
  split
  · exact (stopped_nextOrErr l).bind fun _ => stopped_ok _
  · exact stopped_err l

theorem stopped_parseScheme (l : Lexer) (u : Uri) : Stopped (parseScheme l u) := by
  rw [parseScheme]
  split
  · exact stopped_err _
  · exact (stopped_nextOrErr _).bind fun _ => stopped_ok _

/-- Of the parsers each stops: they are loops in a row, with the fuel of the text. -/
theorem stopped_parseUserinfoOpt (l : Lexer) (u : Uri) : Stopped (parseUserinfoOpt l u) := by
  rw [parseUserinfoOpt]
  split
  · refine (stopped_doWhile tests_userinfo _).bind fun l => ?_
    split
    · exact stopped_err l
    · exact (stopped_nextOrErr _).bind fun _ => stopped_ok _
  · exact stopped_ok _

theorem stopped_parseIpliteral (l : Lexer) : Stopped (parseIpliteral l) := by
  rw [parseIpliteral]
  split
  · exact stopped_err l
  · refine (stopped_nextOrErr l).bind fun a => (stopped_whileMatch tests_literal _).bind fun l => ?_
    split
    · exact stopped_err l
    · exact (stopped_nextOrErr l).bind fun _ => stopped_ok _

theorem stopped_parseHost (l : Lexer) (u : Uri) : Stopped (parseHost l u) := by
  refine Stopped.bind ?_ fun _ => stopped_ok _
  rw [parseHostCases]
  split
  · exact ((stopped_nextOrErr _).bind fun _ => stopped_ok _).bind fun _ => stopped_ok _
  · split
    · exact (stopped_doWhile tests_ups _).bind fun _ => stopped_ok _
    · split
      · exact (stopped_parseIpliteral _).bind fun _ => stopped_ok _
      · exact stopped_ok _

theorem stopped_parsePortOpt (l : Lexer) (u : Uri) : Stopped (parsePortOpt l u) := by
  rw [parsePortOpt, parsePort]
  split
  · split
    · exact stopped_err l
    · exact (stopped_nextOrErr l).bind fun _ => stopped_ok _
  · exact stopped_ok _

theorem stopped_parsePath (l : Lexer) (u : Uri) : Stopped (parsePath l u) := by
  have hskip : ∀ l, Stopped (skipSlash l) := by
    intro l
    rw [skipSlash]
    split
    · exact (stopped_nextOrErr l).bind fun _ => stopped_ok _
    · exact stopped_ok l
  have hnz : ∀ l, Stopped (expectSegmentNz l) := by
    intro l
    rw [expectSegmentNz]
    split
    · exact stopped_err _
    · exact stopped_doWhile tests_pchar _
  exact (hskip _).bind fun l => (hnz l).bind fun l =>
    (stopped_expectPathAbempty l).bind fun _ => stopped_ok _

theorem stopped_parseHierPart (l : Lexer) (u : Uri) : Stopped (parseHierPart l u) := by
  rw [parseHierPart]
  split
  · refine (stopped_expectChar l '/').bind fun l => (stopped_expectChar l '/').bind fun l => ?_
    refine (stopped_parseUserinfoOpt l u).bind fun a => (stopped_parseHost a.1 a.2).bind fun a => ?_
    exact (stopped_parsePortOpt a.1 a.2).bind fun a =>
      (stopped_expectPathAbempty _).bind fun _ => stopped_ok _
  · split
    · exact stopped_parsePath _ u
    · exact stopped_ok _

theorem stopped_parseQueryText (first : Char) (l : Lexer) : Stopped (parseQueryText first l) := by
  rw [parseQueryText]
  split
  · exact stopped_err l
  · exact (stopped_nextOrErr l).bind fun _ =>
      (stopped_whileMatch tests_query _).bind fun _ => stopped_ok _

/-- **Every string is accepted or refused.** -/
theorem stopped_crumble (s : List Char) (opt : Bool) : Stopped (crumble s opt) := by
  refine Stopped.bind ?_ fun _ => stopped_ok _
  refine (stopped_parseScheme _ _).bind fun a => (stopped_expectChar a.1 ':').bind fun l => ?_
  refine (stopped_parseHierPart l a.2).bind fun a => Stopped.bind ?_ fun a => ?_
  · rw [parseQueryOpt]
    split
    · exact (stopped_parseQueryText '?' _).bind fun _ => stopped_ok _
    · exact stopped_ok _
  · obtain ⟨l, u⟩ := a
    dsimp only
    rw [parseFragmentOpt]
    split
    · exact (stopped_parseQueryText '#' _).bind fun _ => stopped_ok _
    · exact stopped_ok _

end Libu.Uri
