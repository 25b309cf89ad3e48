/-
# URIs that are parsed right

What the buffers have after a URI of the grammar on which the parser does not go astray (`Good`):
the components of the URI, as far as they fit (`crumble_good`).

Where the parser goes astray is in the definition of `Good`.  It takes a userinfo for granted where
an `@` follows anywhere in the text, it has no userinfo that is empty, it reads a name that starts
with a digit as an address, and where there is no authority it finds no path in `/` alone or at an
escape.  On all the other URIs each parser finds at its cursor the component that the grammar has
there, followed by a character that ends it, and so its loop stops at the end of the component.

* §1: what a buffer has: the text of its component (`Holds`), or nothing where it did not fit.
* §2: the characters of hosts.
* §3: the parsers on the text of a URI, from the last component to the first.
* §4: the whole URI (`crumble_good`).
-/
import Libu.Uri.Parse

namespace Libu.Uri

open Verif Lexer

variable {l l' : Lexer} {u u' : Uri} {c : Components} {v w x : List Char} {p : Char → Bool}
  {opt : Bool}

/-! ## 1. Good URIs and their buffers -/

/-- The userinfo, where there is an authority with one. -/
def Components.userinfo (c : Components) : Option (List Char) := c.authority.bind (·.userinfo)

/-- The host, which is empty where there is no authority. -/
def Components.host (c : Components) : List Char := c.authority.elim [] (·.host)

/-- The port, where there is one. -/
def Components.port (c : Components) : Option (List Char) := c.authority.bind (·.port)

/-- The parser does not go astray: where there is no authority, the path is not `/` alone and does
not start with an escape; where there is one, its userinfo is not empty, without a userinfo no `@`
follows, and a host that starts with a digit is digits and dots. -/
structure Good (c : Components) : Prop where
  path : c.authority = none → c.path ≠ ['/'] ∧ c.path.head? ≠ some '%'
  userinfo : c.userinfo ≠ some []
  noAt : ∀ a ∈ c.authority, a.userinfo = none → '@' ∉ c.rest
  host : ∀ d ∈ c.host.head?, d.isDigit = true → AllIn ipv4Char c.host

/-- The buffer has the component, or something short when the component does not fit. -/
def Holds (m : Token) (v : List Char) : Prop :=
  if v.length + 1 < tokenSz then m = some v else ∀ w ∈ m, w.length ≤ 1

theorem holds_nil : Holds (some []) [] := by
  rw [Holds, if_pos (by decide)]

/-- Cutting off a character makes nothing longer. -/
theorem chop_length {m : Token} {n : Nat} (h : ∀ w ∈ m, w.length ≤ n) :
    ∀ w ∈ chop m, w.length ≤ n := by
  intro w hw
  cases m with
  | none => cases hw
  | some v =>
    rw [chop, Option.bind_some] at hw
    split at hw
    · cases hw
    · obtain rfl := Option.some.inj hw
      rw [List.length_dropLast]
      exact Nat.le_trans (Nat.sub_le _ _) (h v rfl)

/-- A match over a buffer that is nearly empty leaves the match, or what was there if it does not
fit. -/
theorem holds_stored {old : Token} (hold : ∀ w ∈ old, w.length ≤ 1) (v x : List Char) :
    Holds (stored old v x) v := by
  rw [Holds]
  split
  · next hlt => exact stored_of_lt hlt
  · next hlt =>
    rw [stored, if_neg hlt]
    split
    · exact hold
    · exact chop_length hold

/-- A component that has text behind it, and its buffer when nothing was there before. -/
def held (v : List Char) : Token := if v.length + 1 < tokenSz then some v else none

/-- A match with a character behind it is stored where it fits with that character. -/
theorem stored_cons (v : List Char) (d : Char) (x : List Char) :
    stored (some []) v (d :: x) = held v := rfl

theorem holds_held (v : List Char) : Holds (held v) v := by
  rw [Holds, held]
  split
  · rfl
  · exact fun w hw => by cases hw

theorem short_nil : ∀ w ∈ (some [] : Token), w.length ≤ 1 := by
  intro w hw
  obtain rfl := Option.some.inj hw
  decide

/-- The buffers after the components `c`. -/
structure Crumbled (c : Components) (u : Uri) : Prop where
  scheme : Holds u.scheme c.scheme
  authority : u.authority = some []
  userinfo : u.userinfo = held (c.userinfo.getD [])
  user : c.userinfo = none → u.user = some []
  name : RegName c.host → Holds u.host c.host ∧ u.flags.hostIsIpliteral = false
  literal : ∀ a, c.host = '[' :: (a ++ [']']) → c.host.length < tokenSz →
    u.host = some a ∧ u.flags.hostIsIpliteral = true
  port : Holds u.port (c.port.getD [])
  path : Holds u.path c.path
  query : Holds u.query (c.query.getD [])
  fragment : Holds u.fragment (c.fragment.getD [])

/-- The userinfo is stored like the other components. -/
theorem Crumbled.holdsUserinfo (h : Crumbled c u) : Holds u.userinfo (c.userinfo.getD []) := by
  rw [h.userinfo]
  exact holds_held _

/-! ## 2. Characters of hosts -/

/-- The groups of an address are digits and colons. -/
theorem Groups.chars {n : Nat} (h : Groups n v) : AllIn isUserinfoChar v := by
  induction h with
  | zero => exact allIn_nil
  | succ ha _ ih =>
    exact allIn_append.mpr ⟨fun c hc => hexy_userinfo c (ha.2.2 c hc), allIn_cons.mpr ⟨rfl, ih⟩⟩

/-- The characters of an address. -/
theorem Address.chars (h : Address v) : AllIn isUserinfoChar v := by
  have hh16 : ∀ {v : List Char}, H16 v → AllIn isUserinfoChar v :=
    fun hv c hc => hexy_userinfo c (hv.2.2 c hc)
  have hcolon : isUserinfoChar ':' = true := rfl
  have hls : ∀ {v : List Char}, Ls32 v → AllIn isUserinfoChar v := by
    rintro v (⟨a, b, ha, hb, rfl⟩ | hv)
    · exact allIn_append.mpr ⟨hh16 ha, allIn_cons.mpr ⟨hcolon, hh16 hb⟩⟩
    · obtain ⟨d, w, rfl, hd, hw⟩ := hv.chars
      exact allIn_cons.mpr ⟨userinfo_of_name (name_of_ipv4 (ipv4_of_isDigit hd)),
        fun c hc => userinfo_of_name (name_of_ipv4 (hw c hc))⟩
  have hlead : ∀ {n : Nat} {v : List Char}, Lead n v → AllIn isUserinfoChar v := by
    rintro n v (rfl | ⟨m, g, a, -, hg, ha, rfl⟩)
    · exact allIn_nil
    · exact allIn_append.mpr ⟨hg.chars, hh16 ha⟩
  rcases h with (⟨g, l, hg, hl, rfl⟩ | ⟨g, l, hg, hl, rfl⟩ | ⟨n, a, g, l, -, ha, hg, hl, rfl⟩ |
    ⟨a, b, ha, hb, rfl⟩ | ⟨a, ha, rfl⟩) | ⟨d, x, y, hd, -, hx, -, hy, rfl⟩
  · exact allIn_append.mpr ⟨hg.chars, hls hl⟩
  · simp only [allIn_append, allIn_cons]
    exact ⟨hcolon, hcolon, hg.chars, hls hl⟩
  · simp only [allIn_append, allIn_cons]
    exact ⟨hlead ha, hcolon, hcolon, hg.chars, hls hl⟩
  · simp only [allIn_append, allIn_cons]
    exact ⟨hlead ha, hcolon, hcolon, hh16 hb⟩
  · simp only [allIn_append, allIn_cons]
    exact ⟨hlead ha, hcolon, hcolon, allIn_nil⟩
  · simp only [allIn_append, allIn_cons]
    refine ⟨?_, fun c hc => hexy_userinfo c (hx c hc), by decide, hy⟩
    rcases hd with rfl | rfl <;> decide

/-- A host is an IP-literal or a registered name. -/
theorem Host.cases (h : Host v) : (∃ a, Address a ∧ v = '[' :: (a ++ [']'])) ∨ RegName v := by
  rcases h with h | h | h
  · exact .inl h
  · exact .inr h.regName
  · exact .inr h

/-- No character of a host is foreign to names, addresses and brackets. -/
theorem Host.not_mem (h : Host v) {d : Char} (hd : isUserinfoChar d = false)
    (hds : d ∉ ['%', '[', ']']) : d ∉ v := by
  simp only [List.mem_cons, List.not_mem_nil, or_false, not_or] at hds
  rcases h.cases with ⟨a, ha, rfl⟩ | h
  · simp only [List.mem_cons, List.mem_append, List.not_mem_nil, or_false, not_or]
    refine ⟨hds.2.1, fun hmem => ?_, hds.2.2⟩
    rw [ha.chars d hmem] at hd
    exact absurd hd (by decide)
  · exact (h.mono fun _ => userinfo_of_name).not_mem hexy_userinfo hd hds.1

/-! ## 3. The parts of a URI -/

/-- The buffers after the query and the fragment. -/
def withSuffix (u : Uri) (c : Components) : Uri :=
  { u with
    query := stored (some []) (c.query.getD []) (behind '#' c.fragment)
    fragment := stored (some []) (c.fragment.getD []) [] }

/-- The query and the fragment, which are parsed last. -/
theorem parseSuffix_eq (hv : c.Valid p) (hl : l.lookahead = c.suffixText) (hq : u.query = some [])
    (hf : u.fragment = some []) :
    ∃ l', (do let (l, u) ← parseQueryOpt l u
              parseFragmentOpt l u) = .ok (l', withSuffix u c) := by
  have hsharp : Delimited ['#'] (behind '#' c.fragment) := by
    cases c.fragment with
    | none => exact delimited_nil
    | some f => exact delimited_cons.mpr List.mem_cons_self
  obtain ⟨l₁, hparse, hl₁⟩ := parseQueryOpt_eq hv.query hsharp hl hq
  have hquery := parseFragmentOpt_eq (l := l₁)
    (u := { u with query := stored (some []) (c.query.getD []) (behind '#' c.fragment) })
    hv.fragment hl₁ hf
  obtain ⟨l₂, hparse₂⟩ := hquery
  refine ⟨l₂, ?_⟩
  rw [hparse, ok_bind]
  exact hparse₂

/-- Behind a path comes a query, a fragment, or the end. -/
theorem delimited_suffix (c : Components) : Delimited pathEnds c.suffixText := by
  rw [Components.suffixText]
  cases c.query with
  | some q => exact delimited_cons.mpr (by decide)
  | none =>
    cases c.fragment with
    | some f => exact delimited_cons.mpr (by decide)
    | none => exact delimited_nil

/-- `parseUserinfoOpt` when it does not go astray. -/
theorem parseUserinfoOpt_eq {a : Authority} (hv : a.Valid p) (hne : a.userinfo ≠ some [])
    (hat : a.userinfo = none → '@' ∉ x) (hl : l.lookahead = a.userText ++ x)
    (hu : u.userinfo = some []) (huser : u.user = some []) :
    ∃ l' userinfo user pwd, parseUserinfoOpt l u = .ok (l', { u with userinfo, user, pwd }) ∧
      l'.lookahead = x ∧ userinfo = held (a.userinfo.getD []) ∧
      (a.userinfo = none → user = some []) := by
  cases hinfo : a.userinfo with
  | none =>
    rw [Authority.userText, hinfo] at hl
    have hl' : l.lookahead = x := hl
    refine ⟨l, u.userinfo, u.user, u.pwd, ?_, hl', hu, fun _ => huser⟩
    rw [parseUserinfoOpt, if_neg (hl' ▸ hat hinfo)]
    rfl
  | some v =>
    have hvne : v ≠ [] := by
      rintro rfl
      exact hne hinfo
    have hl' : l.lookahead = v ++ '@' :: x := by
      rw [hl, Authority.userText, hinfo, Option.elim_some, List.append_assoc]
      rfl
    obtain ⟨l', user, pwd, hparse, hlook⟩ := parseUserinfo_eq (hv.userinfo v hinfo) hvne hl' hu
    refine ⟨l', _, user, pwd, ?_, hlook, stored_cons v '@' x, fun h => by cases h⟩
    rw [parseUserinfoOpt, if_pos (by rw [hl']; simp)]
    exact hparse

/-- What the host buffer and the flags have to be for the host `v`. -/
structure HoldsHost (flags : UriFlags) (m : Token) (v : List Char) : Prop where
  name : RegName v → Holds m v ∧ flags.hostIsIpliteral = false
  literal : ∀ a, v = '[' :: (a ++ [']']) → v.length < tokenSz →
    m = some a ∧ flags.hostIsIpliteral = true

/-- The host of a registered name is the name, without brackets. -/
theorem holdsHost_name {flags : UriFlags} {m : Token} (hv : RegName v) (hm : Holds m v)
    (hflags : flags.hostIsIpliteral = false) : HoldsHost flags m v := by
  refine ⟨fun _ => ⟨hm, hflags⟩, ?_⟩
  rintro a rfl
  exact absurd List.mem_cons_self (hv.not_mem hexy_name (by decide) (by decide))

/-- The host of a literal is the address without its brackets, with the flags that tell. -/
theorem holdsHost_literal (a x : List Char) :
    HoldsHost ⟨true, true⟩ ((stored (some []) (a ++ [']']) x).map trimBracket)
    ('[' :: (a ++ [']'])) := by
  refine ⟨fun hv => absurd List.mem_cons_self (hv.not_mem hexy_name (by decide) (by decide)), ?_⟩
  intro a' ha' hlen
  obtain ⟨-, ha'⟩ := List.cons.inj ha'
  obtain rfl := List.append_cancel_right ha'
  rw [stored_of_lt hlen, Option.map_some, trimBracket_append]
  exact ⟨rfl, rfl⟩

/-- `parseHost` when it does not go astray. -/
theorem parseHost_eq (hv : Host v) (hgood : ∀ d ∈ v.head?, d.isDigit = true → AllIn ipv4Char v)
    (hx : Delimited hostEnds x) (hl : l.lookahead = v ++ x) (hold : u.host = some [])
    (hflags : u.flags = ⟨false, false⟩) :
    ∃ l' flags host, parseHost l u = .ok (l', { u with flags, host }) ∧ l'.lookahead = x ∧
      HoldsHost flags host v := by
  rcases hv.cases with ⟨a, ha, rfl⟩ | hname
  · have hl' : l.lookahead = '[' :: (a ++ ']' :: x) := by
      rw [hl, List.cons_append, List.append_assoc]
      rfl
    obtain ⟨l', hparse, hlook⟩ := parseHost_literal ha.chars hl' hold
    exact ⟨l', _, _, hparse, hlook, holdsHost_literal a x⟩
  · obtain ⟨l', flags, hparse, hlook, hflag⟩ := parseHost_name hname hgood hx hl hold
    refine ⟨l', flags, _, hparse, hlook, holdsHost_name hname (holds_stored short_nil v x) ?_⟩
    rw [hflag, hflags]

/-- Behind an authority comes a path, a query, a fragment, or the end. -/
theorem delimited_rest {a : Authority} (hv : c.Valid p) (ha : c.authority = some a) :
    Delimited authorityEnds c.rest :=
  pathEnds_of_abempty (hv.authority a ha).2 (delimited_suffix c)

/-- Behind a host comes a port, or what may follow an authority. -/
theorem delimited_port {a : Authority} (hx : Delimited authorityEnds x) :
    Delimited hostEnds (behind ':' a.port ++ x) := by
  cases a.port with
  | none => exact hx.mono (by decide)
  | some v => exact delimited_cons.mpr (by decide)

/-- The object after the scheme. -/
def withScheme (opt : Bool) (scheme : Token) : Uri := { new opt with scheme }

/-- The buffers after an authority, or none, and a path. -/
structure HoldsHier (c : Components) (scheme : Token) (u : Uri) : Prop where
  scheme : u.scheme = scheme
  authority : u.authority = some []
  query : u.query = some []
  fragment : u.fragment = some []
  userinfo : u.userinfo = held (c.userinfo.getD [])
  user : c.userinfo = none → u.user = some []
  host : HoldsHost u.flags u.host c.host
  port : Holds u.port (c.port.getD [])
  path : Holds u.path c.path

theorem short_slash : ∀ w ∈ (some ['/'] : Token), w.length ≤ 1 := by
  intro w hw
  obtain rfl := Option.some.inj hw
  decide

theorem noBracket_slash : NoBracket (some ['/']) := noBracket_some (by decide)

/-- A port has no `@`. -/
theorem not_at_of_port (hp : ∀ c, p c = true → portChar c = true) {port : Option (List Char)}
    (hv : ∀ v ∈ port, AllIn p v) : '@' ∉ behind ':' port := by
  cases port with
  | none => exact List.not_mem_nil
  | some v =>
    refine fun hmem => ?_
    rcases List.mem_cons.mp hmem with h | h
    · exact absurd h (by decide)
    · exact absurd (hp '@' (hv v rfl '@' h)) (by decide)

/-- Userinfo, host, port and path, one after the other: each one is at the cursor, and is followed
by a character that ends it. -/
theorem parseAuthority_eq {a : Authority} (hv : c.Valid p)
    (hp : ∀ c, p c = true → portChar c = true) (hg : Good c) (ha : c.authority = some a) (m : Token)
    (hl : l.lookahead = '/' :: '/' :: (a.text ++ c.rest)) :
    ∃ l' u, parseAuthority l (withScheme opt m) = .ok (l', u) ∧ l'.lookahead = c.suffixText ∧
      HoldsHier c m u := by
  have hva := (hv.authority a ha).1
  have hinfo : c.userinfo = a.userinfo := by rw [Components.userinfo, ha]; rfl
  have hhost : c.host = a.host := by rw [Components.host, ha]; rfl
  have hport : c.port = a.port := by rw [Components.port, ha]; rfl
  have hrest := delimited_rest hv ha
  have h₁ := lookahead_cons_adv hl
  have h₂ := lookahead_cons_adv h₁
  rw [Authority.text, List.append_assoc, List.append_assoc] at h₂
  have hat : a.userinfo = none → '@' ∉ a.host ++ (behind ':' a.port ++ c.rest) := by
    intro hnone
    simp only [List.mem_append, not_or]
    exact ⟨hva.host.not_mem (by decide) (by decide), not_at_of_port hp hva.port,
      hg.noAt a ha hnone⟩
  obtain ⟨l₁, userinfo, user, pwd, hparse₁, hl₁, huserinfo, huser⟩ :=
    parseUserinfoOpt_eq (u := withScheme opt m) hva (hinfo ▸ hg.userinfo) hat h₂ rfl rfl
  obtain ⟨l₂, flags, host, hparse₂, hl₂, hholds⟩ :=
    parseHost_eq (u := { withScheme opt m with userinfo, user, pwd }) hva.host (hhost ▸ hg.host)
      (delimited_port hrest) hl₁ rfl rfl
  obtain ⟨l₃, hparse₃, hl₃⟩ :=
    parsePortOpt_eq (u := { withScheme opt m with userinfo, user, pwd, flags, host })
      (fun v hvm c hc => hp c (hva.port v hvm c hc)) hrest hl₂ rfl
  have hpath := parseAbempty_eq (u := { withScheme opt m with
      userinfo, user, pwd, flags, host, port := stored (some []) (a.port.getD []) c.rest })
    (hv.authority a ha).2 hl₃ (delimited_suffix c) noBracket_slash
  obtain ⟨l₄, hparse₄, hl₄⟩ := hpath
  have hholdsPort : Holds (stored (some []) (a.port.getD []) c.rest) (c.port.getD []) := by
    rw [hport]
    exact holds_stored short_nil _ _
  refine ⟨l₄, { withScheme opt m with
    userinfo, user, pwd, flags, host, port := stored (some []) (a.port.getD []) c.rest
    path := stored (some ['/']) c.path c.suffixText }, ?_, hl₄, ⟨rfl, rfl, rfl, rfl,
    hinfo ▸ huserinfo, hinfo ▸ huser, hhost ▸ hholds, hholdsPort, holds_stored short_slash _ _⟩⟩
  rw [parseAuthority, expectChar_eq hl, ok_bind, expectChar_eq h₁, ok_bind, hparse₁, ok_bind]
  dsimp only
  rw [hparse₂, ok_bind]
  dsimp only
  rw [hparse₃, ok_bind]
  exact hparse₄

theorem holdsHost_nil : HoldsHost ⟨false, false⟩ (some []) [] := holdsHost_name .nil holds_nil rfl

/-- Without an authority, the text of a URI starts with at most one slash. -/
theorem take_two_ne (hv : c.Valid p) (ha : c.authority = none) :
    c.rest.take 2 ≠ ['/', '/'] := by
  have hsuffix := delimited_suffix c
  have hrootless : ∀ {w : List Char}, PathRootless w → w.head? ≠ some '/' ∧ w ≠ [] := by
    rintro w ⟨s, q, hs, hne, -, rfl⟩
    cases hs with
    | nil => exact absurd rfl hne
    | plain hc _ =>
      refine ⟨fun h => ?_, List.cons_ne_nil _ _⟩
      obtain rfl := Option.some.inj h
      exact absurd hc (by decide)
    | pct _ _ _ =>
      refine ⟨fun h => ?_, List.cons_ne_nil _ _⟩
      exact absurd (Option.some.inj h) (by decide)
  intro htake
  rw [Components.rest] at htake
  rcases hv.path ha with (hpath | ⟨w, hw, hpath⟩) | hw | hpath
  · rw [hpath] at htake
    cases hx : c.suffixText with
    | nil =>
      rw [hx] at htake
      exact absurd htake (by decide)
    | cons d y =>
      rw [hx] at htake hsuffix
      obtain rfl := (List.cons.inj (List.cons.inj htake).2).1
      exact absurd (delimited_cons.mp hsuffix) (by decide)
  · obtain ⟨hhead, hne⟩ := hrootless hw
    obtain ⟨d, w, rfl⟩ := List.exists_cons_of_ne_nil hne
    rw [hpath] at htake
    obtain rfl := (List.cons.inj (List.cons.inj htake).2).1
    exact hhead rfl
  · obtain ⟨hhead, hne⟩ := hrootless hw
    obtain ⟨d, w, hpath⟩ := List.exists_cons_of_ne_nil hne
    rw [hpath] at htake hhead
    obtain rfl := (List.cons.inj htake).1
    exact hhead rfl
  · rw [hpath] at htake
    cases hx : c.suffixText with
    | nil =>
      rw [hx] at htake
      exact absurd htake (by decide)
    | cons d y =>
      rw [hx] at htake hsuffix
      obtain rfl := (List.cons.inj htake).1
      exact absurd (delimited_cons.mp hsuffix) (by decide)

/-- What `pathFirst` finds at a path. -/
theorem pathFirst_eq {c : Char} (hl : l.lookahead = c :: x) (hpct : c ≠ '%') :
    pathFirst l = (c = '/' || isPchar c, l) := by
  rw [pathFirst, peek_of_cons hl, tests_pchar.plain hl hpct]
  split
  · next h => simp [h]
  · next h => simp [h]

/-- The three cases of the hierarchical part of a URI that is parsed right. -/
theorem parseHierPart_eq (hv : c.Valid p) (hp : ∀ c, p c = true → portChar c = true)
    (hg : Good c) (m : Token) (hl : l.lookahead = c.hierText) :
    ∃ l' u, parseHierPart l (withScheme opt m) = .ok (l', u) ∧ l'.lookahead = c.suffixText ∧
      HoldsHier c m u := by
  cases ha : c.authority with
  | some a =>
    rw [Components.hierText, ha] at hl
    have hl' : l.lookahead = '/' :: '/' :: (a.text ++ c.rest) := hl
    rw [parseHierPart, if_pos (by rw [hl']; rfl)]
    exact parseAuthority_eq hv hp hg ha m hl'
  | none =>
    rw [Components.hierText, ha] at hl
    have hl' : l.lookahead = c.path ++ c.suffixText := hl
    have hempty : c.userinfo = none ∧ c.host = [] ∧ c.port = none := by
      rw [Components.userinfo, Components.host, Components.port, ha]
      exact ⟨rfl, rfl, rfl⟩
    have hholds : ∀ {path : Token}, Holds path c.path →
        HoldsHier c m { withScheme opt m with path } := by
      intro path hpath
      refine ⟨rfl, rfl, rfl, rfl, ?_, fun _ => rfl, ?_, ?_, hpath⟩
      · rw [hempty.1]
        rfl
      · rw [hempty.2.1]
        exact holdsHost_nil
      · rw [hempty.2.2]
        exact holds_nil
    have hsuffix := delimited_suffix c
    rw [parseHierPart, if_neg (by rw [hl']; exact take_two_ne hv ha)]
    by_cases hnil : c.path = []
    · have hends : pathFirst l = (false, l) := by
        rw [hnil] at hl'
        have hl'' : l.lookahead = c.suffixText := hl'
        rw [← hl''] at hsuffix
        rw [pathFirst, if_neg (hsuffix.peek_ne (by decide) (by decide)),
          tests_pchar.ends (hsuffix.stops (by decide))]
      rw [hends]
      refine ⟨l, { withScheme opt m with path := some [] }, rfl, hl'.trans (by rw [hnil]; rfl), ?_⟩
      exact hholds (hnil ▸ holds_nil)
    · have hpath : PathRootless c.path ∨ ∃ w, PathRootless w ∧ c.path = '/' :: w := by
        rcases hv.path ha with (h | h) | h | h
        · exact absurd h (hg.path ha).1
        · exact .inr h
        · exact .inl h
        · exact absurd h hnil
      obtain ⟨l', hparse, hlook⟩ := parsePath_eq (u := withScheme opt m) hpath hl' hsuffix
        noBracket_slash
      have hfirst : pathFirst l = (true, l) := by
        obtain ⟨d, w, hcons⟩ := List.exists_cons_of_ne_nil hnil
        have hpct : d ≠ '%' := by
          rintro rfl
          exact (hg.path ha).2 (by rw [hcons]; rfl)
        rw [hcons] at hl'
        rw [pathFirst_eq hl' hpct]
        rcases hpath with ⟨s, q, hs, hne, -, heq⟩ | ⟨w', -, heq⟩
        · rw [hcons] at heq
          cases hs with
          | nil => exact absurd rfl hne
          | plain hc _ =>
            obtain rfl := (List.cons.inj heq).1
            rw [hc, Bool.or_true]
          | pct _ _ _ => exact absurd (List.cons.inj heq).1 hpct
        · obtain rfl := (List.cons.inj (hcons.symm.trans heq)).1
          rfl
      rw [hfirst]
      exact ⟨l', _, hparse, hlook, hholds (holds_stored short_slash _ _)⟩

/-! ## 4. The whole URI -/

/-- Paths are encoded strings of the characters of queries. -/
theorem PathAbempty.encoded (hv : PathAbempty v) : Encoded isQueryChar v := by
  induction hv with
  | nil => exact .nil
  | cons hs _ ih => exact .plain rfl ((hs.mono fun _ => query_of_pchar).append ih)

theorem PathRootless.encoded (hv : PathRootless v) : Encoded isQueryChar v := by
  obtain ⟨s, w, hs, -, hw, rfl⟩ := hv
  exact (hs.mono fun _ => query_of_pchar).append hw.encoded

/-- Whichever of the forms a path has. -/
theorem Components.Valid.path_encoded (hv : c.Valid p) : Encoded isQueryChar c.path := by
  cases ha : c.authority with
  | some a => exact (hv.authority a ha).2.encoded
  | none =>
    rcases hv.path ha with (h | ⟨w, hw, h⟩) | h | h
    · rw [h]
      exact .plain rfl .nil
    · rw [h]
      exact .plain rfl hw.encoded
    · exact h.encoded
    · rw [h]
      exact .nil

/-- The characters of a URI. -/
def uriChar (c : Char) : Bool := orPct isQueryChar c || c ∈ ['#', '[', ']']

theorem uriChar_of {d : Char} (hq : isQueryChar d = true) : uriChar d = true := by
  rw [uriChar, orPct_of hq]
  rfl

theorem allIn_uriChar (h : Encoded isQueryChar v) : AllIn uriChar v := by
  intro c hc
  rw [uriChar, h.allIn hexy_query c hc]
  rfl

theorem query_of_name {d : Char} (h : isNameChar d = true) : isQueryChar d = true :=
  query_of_pchar (pchar_of_userinfo (userinfo_of_name h))

theorem allIn_behind {d : Char} {q : Char → Bool} {m : Option (List Char)} (hd : q d = true)
    (h : ∀ v ∈ m, AllIn q v) : AllIn q (behind d m) := by
  cases m with
  | none => exact allIn_nil
  | some v => exact allIn_cons.mpr ⟨hd, h v rfl⟩

/-- The characters of a host, with the brackets of a literal. -/
theorem Host.allIn (hv : Host v) : AllIn uriChar v := by
  rcases hv.cases with ⟨a, ha, rfl⟩ | hv
  · have haddress : AllIn uriChar a := fun c hc =>
      uriChar_of (query_of_pchar (pchar_of_userinfo (ha.chars c hc)))
    simp only [allIn_cons, allIn_append]
    exact ⟨by decide, haddress, by decide, allIn_nil⟩
  · exact allIn_uriChar (hv.mono fun _ => query_of_name)

theorem name_of_scheme {d : Char} (h : schemeChar d = true) : isNameChar d = true := by
  simp only [schemeChar, Bool.or_eq_true, decide_eq_true_eq] at h
  rcases h with ((h | rfl) | rfl) | rfl
  · exact name_of_isAlphanum h
  · decide
  · decide
  · decide

theorem name_of_port {d : Char} (h : portChar d = true) : isNameChar d = true := by
  simp only [portChar, Bool.or_eq_true, decide_eq_true_eq] at h
  rcases h with ((h | rfl) | rfl) | rfl
  · exact name_of_isAlphanum h
  · decide
  · decide
  · decide

/-- The characters of a scheme. -/
theorem Scheme.allIn (hv : Scheme v) : AllIn schemeChar v := by
  obtain ⟨a, w, rfl, ha, hw⟩ := hv
  exact allIn_cons.mpr ⟨schemeChar_of_isAlpha ha, hw⟩

theorem Components.Valid.allIn (hv : c.Valid p) (hp : ∀ c, p c = true → portChar c = true) :
    AllIn uriChar c.text := by
  have hscheme : AllIn uriChar c.scheme := fun d hd =>
    uriChar_of (query_of_name (name_of_scheme (hv.scheme.allIn d hd)))
  have hrest : AllIn uriChar c.rest := by
    simp only [Components.rest, Components.suffixText, allIn_append]
    exact ⟨allIn_uriChar hv.path_encoded, allIn_behind rfl fun q hq => allIn_uriChar
      (hv.query q hq), allIn_behind (by decide) fun f hf => allIn_uriChar (hv.fragment f hf)⟩
  have hauth : AllIn uriChar (c.authority.elim [] fun a => '/' :: '/' :: a.text) := by
    cases ha : c.authority with
    | none => exact allIn_nil
    | some a =>
      have hva := (hv.authority a ha).1
      have huser : AllIn uriChar a.userText := by
        rw [Authority.userText]
        cases hinfo : a.userinfo with
        | none => exact allIn_nil
        | some w =>
          have hw := (hva.userinfo w hinfo).mono fun _ h => query_of_pchar (pchar_of_userinfo h)
          exact allIn_append.mpr ⟨allIn_uriChar hw, allIn_cons.mpr ⟨by decide, allIn_nil⟩⟩
      have hport : AllIn uriChar (behind ':' a.port) :=
        allIn_behind rfl fun v hvm d hd =>
          uriChar_of (query_of_name (name_of_port (hp d (hva.port v hvm d hd))))
      simp only [Option.elim_some, Authority.text, allIn_cons, allIn_append]
      exact ⟨by decide, by decide, huser, hva.host.allIn, hport⟩
  simp only [Components.text, Components.hierText, allIn_append, allIn_cons]
  exact ⟨hscheme, by decide, hauth, hrest⟩

/-- No character of a URI is NUL. -/
theorem Components.Valid.cString (hv : c.Valid p) (hp : ∀ c, p c = true → portChar c = true) :
    cString c.text = c.text := by
  refine List.takeWhile_eq_self_iff.mpr fun d hd => decide_eq_true ?_
  rintro rfl
  exact absurd (hv.allIn hp _ hd) (by decide)

/-- A lexer on the text of a URI has the scheme, a colon and the rest before it. -/
theorem lookahead_new (hv : c.Valid p) (hp : ∀ c, p c = true → portChar c = true) :
    (Lexer.new c.text).lookahead = c.scheme ++ ':' :: c.hierText := by
  rw [lookahead, Lexer.new, hv.cString hp]
  rfl

/-- **A good URI is accepted, and the buffers have its components.** -/
theorem crumble_good (hv : c.Valid p) (hp : ∀ c, p c = true → portChar c = true) (hg : Good c)
    (opt : Bool) : ∃ u, crumble c.text opt = .ok u ∧ Crumbled c u := by
  obtain ⟨l₁, hparse₁, hl₁⟩ := parseScheme_eq (u := new opt) hv.scheme (lookahead_new hv hp)
  obtain ⟨l₂, u₂, hparse₂, hl₂, hholds⟩ := parseHierPart_eq hv hp hg
    (stored (some []) c.scheme (':' :: c.hierText)) (lookahead_cons_adv hl₁)
  obtain ⟨l₃, hparse₃⟩ := parseSuffix_eq hv hl₂ hholds.query hholds.fragment
  refine ⟨withSuffix u₂ c, ?_, ?_⟩
  · rw [crumble, parser, hparse₁, ok_bind]
    dsimp only
    rw [expectChar_eq hl₁, ok_bind]
    change (do
      let (_, u) ← (do
        let (l, u) ← parseHierPart (l₁.adv 1)
          (withScheme opt (stored (some []) c.scheme (':' :: c.hierText)))
        let (l, u) ← parseQueryOpt l u
        parseFragmentOpt l u)
      pure u) = _
    rw [hparse₂, ok_bind]
    dsimp only
    rw [hparse₃]
    rfl
  · exact ⟨hholds.scheme ▸ holds_stored short_nil _ _, hholds.authority, hholds.userinfo,
      hholds.user, hholds.host.name, hholds.host.literal, hholds.port, hholds.path,
      holds_stored short_nil _ _, holds_stored short_nil _ _⟩

end Libu.Uri
