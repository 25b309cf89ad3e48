/-
# Network addresses (`toolbox/net.c`)

An address is a URI, `scheme://host:port`; what is between its delimiters goes to `getaddrinfo`, a
`*` as NULL.

An address has five forms of hosts (a name, an address of version 4, one of version 6 in brackets,
and a `*`, in brackets or not) and three of ports.  The parser is the general one for URIs, and what
becomes of an address is what that one makes of its text; the conditions are therefore its
conditions, written out for hosts and ports.

* §1 is the code, with TCP, UDP and SCTP over IPv4 and IPv6, and with UNIX sockets; `u_uri_crumble`
  is that of `Libu/Uri/Basic.lean`.  Memory does not run out.
* §2 is the purpose: the addresses of the documentation, and what is to be asked for (`Asks`).
* §3: the parsers on an address.
* §4: an address does its purpose exactly when the port has only the characters that the parser
  knows, and some lesser conditions hold (`asks_iff`).
-/
import Libu.Uri.Complete

namespace Libu.Net

open Verif Lexer Uri

/-! ## 1. The code -/

inductive AddrFamily
  | inet | inet6 | unix
  deriving DecidableEq

inductive SockType
  | stream | dgram
  deriving DecidableEq

/-- The protocols, and 0. -/
inductive Proto
  | tcp | udp | sctp | zero
  deriving DecidableEq

/-- `u_net_scheme_map_t` -/
structure SchemeMap where
  addrFamily : AddrFamily
  sockType : SockType
  proto : Proto
  deriving DecidableEq

/-- `!strcasecmp` -/
def sameCase (s t : List Char) : Bool := s.map Char.toLower = t.map Char.toLower

/-- `scheme_mapper` -/
def schemeMapper (scheme : List Char) : Option SchemeMap :=
  if sameCase scheme ['t', 'c', 'p', '4'] || sameCase scheme ['t', 'c', 'p'] then
    some ⟨.inet, .stream, .tcp⟩
  else if sameCase scheme ['u', 'd', 'p', '4'] || sameCase scheme ['u', 'd', 'p'] then
    some ⟨.inet, .dgram, .udp⟩
  else if sameCase scheme ['s', 'c', 't', 'p', '4'] || sameCase scheme ['s', 'c', 't', 'p'] then
    some ⟨.inet, .stream, .sctp⟩
  else if sameCase scheme ['u', 'n', 'i', 'x'] then some ⟨.unix, .stream, .zero⟩
  else if sameCase scheme ['t', 'c', 'p', '6'] then some ⟨.inet6, .stream, .tcp⟩
  else if sameCase scheme ['u', 'd', 'p', '6'] then some ⟨.inet6, .dgram, .udp⟩
  else if sameCase scheme ['s', 'c', 't', 'p', '6'] then some ⟨.inet6, .stream, .sctp⟩
  else none

/-- `u_net_mode_t` -/
inductive Mode
  | ssock | csock
  deriving DecidableEq

/-- The arguments of `getaddrinfo`: a host name and a service name, `none` for NULL, and hints. -/
structure Query where
  hostname : Option (List Char)
  servname : Option (List Char)
  passive : Bool
  canonname : Bool
  hints : SchemeMap
  deriving DecidableEq

/-- What resolves an address. -/
inductive Resolver
  | getaddrinfo (q : Query)
  | sun (path : List Char)
  deriving DecidableEq

/-- `*` is NULL. -/
def wildcard (s : List Char) : Option (List Char) := if s = ['*'] then none else some s

/-- `ai_resolv` -/
def aiResolv (host port path : Token) (m : SchemeMap) (passive : Bool) : Option Resolver :=
  if m.addrFamily = .unix then path.map .sun
  else do
    let host ← host
    let port ← port
    let hostname := wildcard host
    let servname := wildcard port
    some (.getaddrinfo ⟨hostname, servname, passive, hostname.isSome, m⟩)

/-- `uri2addr` -/
def uri2addr (u : Uri) (m : SchemeMap) (mode : Mode) : Option Resolver :=
  aiResolv u.host u.port u.path m (mode = .ssock)

/-- `u_net_uri2addr`: the call that it makes to resolve the address, if it comes to one. -/
def uNetUri2addr (uri : List Char) (mode : Mode) : Option Resolver := do
  let u ← (crumble uri false).toOption
  let s ← u.scheme
  let smap ← schemeMapper s
  uri2addr u smap mode

/-! ## 2. Addresses -/

/-- The schemes, `unix` apart. -/
def Internet (scheme : List Char) : Prop :=
  ∃ m, schemeMapper scheme = some m ∧ m.addrFamily ≠ .unix

/-- A name, an IPv4 address, an IPv6 address in brackets, or a wildcard, in brackets or not. -/
inductive IsHost : List Char → Prop
  | name {v : List Char} : RegName v → v ≠ [] → IsHost v
  | ipv4 {v : List Char} : IPv4address v → IsHost v
  | ipv6 {a : List Char} : IPv6address a → IsHost ('[' :: (a ++ [']']))
  | any : IsHost ['*']
  | anyLiteral : IsHost ['[', '*', ']']

/-- The name of a service, a number, or a wildcard. -/
inductive IsPort : List Char → Prop
  | service {v : List Char} : AllIn isNameChar v → v ≠ [] → IsPort v
  | number {v : List Char} : AllIn Char.isDigit v → v ≠ [] → IsPort v
  | any : IsPort ['*']

/-- `scheme://host:port` -/
def addressText (scheme host port : List Char) : List Char :=
  scheme ++ ':' :: '/' :: '/' :: (host ++ ':' :: port)

/-- `getaddrinfo` is called for the host, without its brackets, and the port of the address. -/
def Asks (mode : Mode) (scheme host port : List Char) : Prop :=
  ∃ q, uNetUri2addr (addressText scheme host port) mode = some (.getaddrinfo q) ∧
    q.hostname = wildcard (bareHost host) ∧ q.servname = wildcard port

/-- The parsers know the characters of the port, a host that starts with a digit is digits and dots,
and there is room for both. -/
structure Plain (host port : List Char) : Prop where
  portChars : AllIn portChar port
  digits : ∀ d ∈ host.head?, d.isDigit = true → AllIn ipv4Char host
  hostRoom : host.length < tokenSz ∧ (host.head? ≠ some '[' → host.length + 1 < tokenSz)
  portRoom : port.length + 1 < tokenSz

/-! ## 3. Parsing an address -/

variable {mode : Mode} {scheme host port s t v w x : List Char} {c d : Char} {u : Uri} {l : Lexer}
  {m : SchemeMap}

theorem wildcard_inj : wildcard s = wildcard t ↔ s = t := by
  constructor
  · intro h
    unfold wildcard at h
    split at h
    · next hs =>
      split at h
      · next ht => rw [hs, ht]
      · cases h
    · split at h
      · cases h
      · exact Option.some.inj h
  · rintro rfl
    rfl

/-- A letter that `toLower` changes is a capital one. -/
theorem toLower_cases (c : Char) : c.isUpper = true ∨ c.toLower = c := by
  unfold Char.toLower
  split
  · next hupper => exact .inl (decide_eq_true hupper)
  · exact .inr rfl

theorem isAlpha_toLower (h : c.toLower.isAlpha = true) : c.isAlpha = true := by
  rcases toLower_cases c with hupper | hsame
  · exact Bool.or_eq_true_iff.mpr (.inl hupper)
  · rwa [hsame] at h

theorem isAlphanum_toLower (h : c.toLower.isAlphanum = true) : c.isAlphanum = true := by
  rcases toLower_cases c with hupper | hsame
  · exact Bool.or_eq_true_iff.mpr (.inl (Bool.or_eq_true_iff.mpr (.inl hupper)))
  · rwa [hsame] at h

/-- The names of the schemes, in the case that they are compared in. -/
def schemeNames : List (List Char) :=
  [['t', 'c', 'p', '4'], ['t', 'c', 'p'], ['u', 'd', 'p', '4'], ['u', 'd', 'p'],
    ['s', 'c', 't', 'p', '4'], ['s', 'c', 't', 'p'], ['u', 'n', 'i', 'x'], ['t', 'c', 'p', '6'],
    ['u', 'd', 'p', '6'], ['s', 'c', 't', 'p', '6']]

theorem exists_name (h : schemeMapper s = some m) : ∃ n ∈ schemeNames, sameCase s n = true := by
  by_contra hnone
  have hno : ∀ n ∈ schemeNames, sameCase s n = false := fun n hn =>
    Bool.eq_false_iff.mpr fun hsame => hnone ⟨n, hn, hsame⟩
  simp only [schemeNames, List.forall_mem_cons] at hno
  simp [schemeMapper, hno] at h

/-- What is spelled like a name is a scheme, and has a place in its buffer. -/
theorem scheme_of_mapper (h : schemeMapper s = some m) : Scheme s ∧ s.length + 1 < tokenSz := by
  obtain ⟨n, hn, hsame⟩ := exists_name h
  have hmap : s.map Char.toLower = n.map Char.toLower := of_decide_eq_true hsame
  have hlen : s.length = n.length := by
    have hlen := congrArg List.length hmap
    rwa [List.length_map, List.length_map] at hlen
  have hnames : ∀ n ∈ schemeNames, n ≠ [] ∧ n.length + 1 < tokenSz ∧
      AllIn Char.isAlphanum (n.map Char.toLower) ∧
      (n.map Char.toLower).head?.all Char.isAlpha = true := by decide
  obtain ⟨hne, hroom, halnum, halpha⟩ := hnames n hn
  rw [← hmap] at halnum halpha
  refine ⟨?_, hlen ▸ hroom⟩
  cases s with
  | nil => exact absurd (List.eq_nil_of_length_eq_zero hlen.symm) hne
  | cons a w =>
    refine ⟨a, w, rfl, isAlpha_toLower halpha, fun d hd => ?_⟩
    have hmem := halnum d.toLower (List.mem_map_of_mem (List.mem_cons_of_mem a hd))
    rw [schemeChar, isAlphanum_toLower hmem]
    rfl

/-- What a host is made of: a name, or characters of a userinfo in brackets. -/
theorem host_cases (h : IsHost host) : RegName host ∧ host ≠ [] ∨
    ∃ a, AllIn isUserinfoChar a ∧ host = '[' :: (a ++ [']']) := by
  cases h with
  | name hv hne => exact .inl ⟨hv, hne⟩
  | ipv4 hv =>
    obtain ⟨d, w, rfl, -⟩ := hv.chars
    exact .inl ⟨hv.regName, List.cons_ne_nil d w⟩
  | @ipv6 a ha => exact .inr ⟨a, Address.chars (.inl ha), rfl⟩
  | any => exact .inl ⟨.plain rfl .nil, List.cons_ne_nil _ _⟩
  | anyLiteral => exact .inr ⟨['*'], by decide, rfl⟩

theorem port_chars (h : IsPort port) : port ≠ [] ∧ AllIn isNameChar port := by
  cases h with
  | service hv hne => exact ⟨hne, hv⟩
  | number hv hne => exact ⟨hne, fun d hd => name_of_ipv4 (ipv4_of_isDigit (hv d hd))⟩
  | any => exact ⟨List.cons_ne_nil _ _, by decide⟩

/-- No character of a host and a port is foreign to them. -/
theorem not_mem_address (hh : IsHost host) (hp : IsPort port) (hd : isUserinfoChar d = false)
    (hds : d ∉ ['%', '[', ']', ':']) : d ∉ host ++ ':' :: port := by
  simp only [List.mem_cons, List.not_mem_nil, or_false, not_or] at hds
  rw [List.mem_append, List.mem_cons, not_or, not_or]
  refine ⟨?_, hds.2.2.2, fun hmem => ?_⟩
  · rcases host_cases hh with ⟨hv, -⟩ | ⟨a, ha, rfl⟩
    · exact (hv.mono fun _ => userinfo_of_name).not_mem hexy_userinfo hd hds.1
    · simp only [List.mem_cons, List.mem_append, List.not_mem_nil, or_false, not_or]
      refine ⟨hds.2.1, fun hmem => ?_, hds.2.2.1⟩
      rw [ha d hmem] at hd
      exact absurd hd (by decide)
  · rw [userinfo_of_name ((port_chars hp).2 d hmem)] at hd
    exact absurd hd (by decide)

/-- What follows the port. -/
def parseRest (l : Lexer) (u : Uri) : Uri.Res Uri := do
  let (l, u) ← parseAbempty l u
  let (l, u) ← parseQueryOpt l u
  let (_, u) ← parseFragmentOpt l u
  pure u

/-- **An address is parsed from its host on.** -/
theorem crumble_address (hs : Scheme scheme) (hroom : scheme.length + 1 < tokenSz)
    (hh : IsHost host) (hp : IsPort port) :
    ∃ l, l.lookahead = host ++ ':' :: port ∧ crumble (addressText scheme host port) false = (do
      let (l, u) ← parseHost l (withScheme false (some scheme))
      let (l, u) ← parsePortOpt l u
      parseRest l u) := by
  have hat := not_mem_address hh hp (d := '@') (by decide) (by decide)
  have hnul : cString (addressText scheme host port) = addressText scheme host port := by
    refine List.takeWhile_eq_self_iff.mpr fun d hd => decide_eq_true ?_
    rintro rfl
    rw [addressText, List.mem_append] at hd
    rcases hd with hd | hd
    · exact absurd (hs.allIn _ hd) (by decide)
    · simp only [List.mem_cons] at hd
      rcases hd with hd | hd | hd | hd
      · exact absurd hd (by decide)
      · exact absurd hd (by decide)
      · exact absurd hd (by decide)
      · exact not_mem_address hh hp (by decide) (by decide) hd
  have hnew : (Lexer.new (addressText scheme host port)).lookahead = scheme ++ ':' ::
      ('/' :: '/' :: (host ++ ':' :: port)) := by
    rw [lookahead, Lexer.new, hnul]
    rfl
  obtain ⟨l₁, hparse₁, hl₁⟩ := parseScheme_eq (u := new false) hs hnew
  have h₂ := lookahead_cons_adv hl₁
  have h₃ := lookahead_cons_adv h₂
  have h₄ := lookahead_cons_adv h₃
  have hstored : stored (new false).scheme scheme (':' :: '/' :: '/' :: (host ++ ':' :: port)) =
      some scheme := stored_of_lt hroom
  refine ⟨((l₁.adv 1).adv 1).adv 1, h₄, ?_⟩
  rw [crumble, parser, hparse₁, ok_bind]
  dsimp only
  rw [expectChar_eq hl₁, ok_bind, parseHierPart, if_pos (by rw [h₂]; rfl), parseAuthority,
    expectChar_eq h₂, ok_bind, expectChar_eq h₃, ok_bind, parseUserinfoOpt,
    if_neg (by rw [h₄]; exact hat), hstored]
  simp only [parseRest, bind_assoc, pure_bind]
  rfl

/-- The text ends with the port. -/
theorem parseRest_nil (hl : l.lookahead = []) (hpath : u.path = some ['/']) :
    ∃ path, parseRest l u = .ok { u with path } := by
  have hpath' := parseAbempty_eq (u := u) .nil hl delimited_nil (hpath ▸ noBracket_slash)
  obtain ⟨l₁, hparse₁, hl₁⟩ := hpath'
  have hp : l₁.peek = '\x00' := peek_of_nil hl₁
  refine ⟨stored u.path [] [], ?_⟩
  rw [parseRest, hparse₁, ok_bind]
  dsimp only
  rw [parseQueryOpt, if_neg (by rw [hp]; decide), pure_bind]
  dsimp only
  rw [parseFragmentOpt, if_neg (by rw [hp]; decide)]
  rfl

/-- The parsers behind the port, one by one. -/
theorem parseRest_ok {u' : Uri} (h : parseRest l u = .ok u') : ∃ l₁ u₁ l₂ u₂ l₃,
    parseAbempty l u = .ok (l₁, u₁) ∧ parseQueryOpt l₁ u₁ = .ok (l₂, u₂) ∧
      parseFragmentOpt l₂ u₂ = .ok (l₃, u') := by
  obtain ⟨⟨l₁, u₁⟩, habempty, h⟩ := bind_eq_ok.mp h
  obtain ⟨⟨l₂, u₂⟩, hquery, h⟩ := bind_eq_ok.mp h
  obtain ⟨⟨l₃, u₃⟩, hfragment, h⟩ := bind_eq_ok.mp h
  obtain rfl := Except.ok.inj h
  exact ⟨l₁, u₁, l₂, u₂, l₃, habempty, hquery, hfragment⟩

/-- At a character of a name, there is no port. -/
theorem parsePortOpt_name (hl : l.lookahead = c :: x) (hc : orPct isNameChar c = true) :
    parsePortOpt l u = .ok (l, u) := by
  refine if_neg ?_
  rw [peek_of_cons hl]
  rintro rfl
  exact absurd hc (by decide)

/-- At a character of a name, the parsers behind the port find nothing. -/
theorem parseRest_name {u' : Uri} (hl : l.lookahead = c :: x) (hc : orPct isNameChar c = true)
    (hpath : u.path = some ['/']) (h : parseRest l u = .ok u') : u'.port = u.port := by
  obtain ⟨l₁, u₁, l₂, u₂, l₃, habempty, hquery, hfragment⟩ := parseRest_ok h
  have hsuffix : (do let (l, u) ← parseQueryOpt l₁ u₁
                     parseFragmentOpt l u) = .ok (l₃, u') := bind_eq_ok.mpr ⟨_, hquery, hfragment⟩
  rw [leftover hl hc hpath (parsePortOpt_name hl hc) habempty hsuffix]

theorem held_eq_some : held v = some v ↔ v.length + 1 < tokenSz := by
  unfold held
  split
  · next hlt => exact iff_of_true rfl hlt
  · next hlt => exact iff_of_false (fun h => by cases h) hlt

/-- A host that is found has a place in its buffer, or not. -/
theorem parseHost_found (hh : IsHost host)
    (hdigits : ∀ d ∈ host.head?, d.isDigit = true → AllIn ipv4Char host)
    (hl : l.lookahead = host ++ ':' :: x) (hold : u.host = some []) :
    ∃ l' flags m, parseHost l u = .ok (l', { u with flags, host := m }) ∧ l'.lookahead = ':' :: x ∧
      (m = some (bareHost host) ↔
        host.length < tokenSz ∧ (host.head? ≠ some '[' → host.length + 1 < tokenSz)) := by
  rcases host_cases hh with ⟨hv, hne⟩ | ⟨a, ha, rfl⟩
  · obtain ⟨l', flags, hparse, hl', -⟩ :=
      parseHost_name hv hdigits (delimited_cons.mpr (by decide)) hl hold
    refine ⟨l', flags, _, hparse, hl', ?_⟩
    rw [bareHost_name hv, stored_cons, held_eq_some]
    constructor
    · exact fun hroom => ⟨Nat.lt_of_succ_lt hroom, fun _ => hroom⟩
    · exact fun hroom => hroom.2 (head_of_name hv)
  · have hl₁ : l.lookahead = '[' :: (a ++ ']' :: ':' :: x) := by
      rw [hl, List.cons_append, List.append_assoc]
      rfl
    obtain ⟨l', hparse, hl'⟩ := parseHost_literal ha hl₁ hold
    refine ⟨l', _, _, hparse, hl', ?_⟩
    have hlen : (a ++ [']']).length + 1 = ('[' :: (a ++ [']'])).length := rfl
    rw [bareHost_literal, stored_cons, held, hlen]
    split
    · next hlt =>
      rw [Option.map_some, trimBracket_append]
      exact iff_of_true rfl ⟨hlt, fun hne => absurd rfl hne⟩
    · next hlt => exact iff_of_false (fun h => by cases h) fun hroom => hlt hroom.1

/-! ## 4. What is asked for -/

theorem parseRest_frame {u' : Uri} (h : parseRest l u = .ok u') :
    ∃ path query fragment, u' = { u with path, query, fragment } := by
  obtain ⟨l₁, u₁, l₂, u₂, l₃, habempty, hquery, hfragment⟩ := parseRest_ok h
  obtain ⟨path, rfl⟩ := parseAbempty_frame habempty
  obtain ⟨query, rfl⟩ := parseQueryOpt_frame hquery
  obtain ⟨fragment, rfl⟩ := parseFragmentOpt_frame hfragment
  exact ⟨path, query, fragment, rfl⟩

/-- The resolver is asked for what the buffers of host and port have. -/
theorem asks_iff_buffers (hs : Internet scheme) (hh : IsHost host) (hp : IsPort port) :
    Asks mode scheme host port ↔ ∃ u, crumble (addressText scheme host port) false = .ok u ∧
      u.host = some (bareHost host) ∧ u.port = some port := by
  obtain ⟨m, hm, hfamily⟩ := hs
  obtain ⟨hscheme, hroom⟩ := scheme_of_mapper hm
  obtain ⟨l, -, hcrumble⟩ := crumble_address hscheme hroom hh hp
  have hkept : ∀ {u}, crumble (addressText scheme host port) false = .ok u →
      u.scheme = some scheme := by
    intro u h
    rw [hcrumble] at h
    obtain ⟨⟨l₁, u₁⟩, hhost, h⟩ := bind_eq_ok.mp h
    obtain ⟨⟨l₂, u₂⟩, hport, h⟩ := bind_eq_ok.mp h
    obtain ⟨flags, host', rfl⟩ := parseHost_frame hhost
    obtain ⟨port', rfl⟩ := parsePortOpt_frame hport
    obtain ⟨path, query, fragment, rfl⟩ := parseRest_frame h
    rfl
  constructor
  · rintro ⟨q, hrun, hhost, hport⟩
    rw [uNetUri2addr] at hrun
    cases hu : crumble (addressText scheme host port) false with
    | error e =>
      rw [hu] at hrun
      cases hrun
    | ok u =>
      rw [hu] at hrun
      simp only [Except.toOption, Option.bind_eq_bind, Option.bind_some, hkept hu, hm, uri2addr,
        aiResolv, if_neg hfamily, Option.bind_eq_some_iff, Option.some_inj] at hrun
      obtain ⟨h, hh', p, hp', heq⟩ := hrun
      obtain rfl := Resolver.getaddrinfo.inj heq
      refine ⟨u, rfl, ?_, ?_⟩
      · rw [hh', wildcard_inj.mp hhost]
      · rw [hp', wildcard_inj.mp hport]
  · rintro ⟨u, hu, hhost, hport⟩
    refine ⟨⟨wildcard (bareHost host), wildcard port, mode = .ssock,
      (wildcard (bareHost host)).isSome, m⟩, ?_, rfl, rfl⟩
    rw [uNetUri2addr, hu]
    simp only [Except.toOption, Option.bind_eq_bind, Option.bind_some, hkept hu, hm, uri2addr,
      aiResolv, if_neg hfamily, hhost, hport]

theorem stored_nil_eq_some (hne : v ≠ []) :
    stored (some []) v [] = some v ↔ v.length + 1 < tokenSz := by
  unfold stored
  split
  · next hlt => exact iff_of_true rfl hlt
  · next hlt =>
    rw [if_pos rfl]
    exact iff_of_false (fun h => hne (Option.some.inj h).symm) hlt

/-- A port with other characters is cut off before the first of them. -/
theorem port_of_other {u' : Uri} (hv : AllIn portChar v) (he : portChar d = false)
    (hname : isNameChar d = true) (hl : l.lookahead = ':' :: (v ++ d :: x))
    (hold : u.port = some []) (hpath : u.path = some ['/'])
    (h : (do let (l, u) ← parsePortOpt l u
             parseRest l u) = .ok u') : u'.port ≠ some (v ++ d :: x) := by
  obtain ⟨l', hparse, hl'⟩ := parsePort_eq hv (stops_cons.mpr he) hl hold
  rw [hparse, ok_bind] at h
  have hport := parseRest_name (u := { u with port := stored (some []) v (d :: x) }) hl'
    (orPct_of hname) hpath h
  rw [hport, stored_cons, held]
  split
  · intro heq
    have hlen := congrArg List.length (Option.some.inj heq)
    rw [List.length_append, List.length_cons] at hlen
    omega
  · exact fun heq => by cases heq

/-- Behind a host that is cut off, no port is found. -/
theorem port_of_digits {u' : Uri} (hh : IsHost host) (hhead : host.head? = some d)
    (hd : d.isDigit = true) (hmixed : ¬ AllIn ipv4Char host)
    (hl : l.lookahead = host ++ x) (hhost : u.host = some []) (hpath : u.path = some ['/'])
    (h : (do let (l, u) ← parseHost l u
             let (l, u) ← parsePortOpt l u
             parseRest l u) = .ok u') : u'.port = u.port := by
  rcases host_cases hh with ⟨hname, -⟩ | ⟨a, -, rfl⟩
  · obtain ⟨w, rfl⟩ := List.head?_eq_some_iff.mp hhead
    obtain ⟨y, hy, hsplit⟩ := exists_front ipv4Char w
    cases hz : w.dropWhile ipv4Char with
    | nil =>
      rw [hz, List.append_nil] at hsplit
      subst hsplit
      exact absurd (allIn_cons.mpr ⟨ipv4_of_isDigit hd, hy⟩) hmixed
    | cons e z =>
      have hstop := stops_dropWhile (p := ipv4Char) (x := w)
      rw [hz, stops_cons] at hstop
      rw [hz] at hsplit
      have he : orPct isNameChar e = true := by
        refine hname.allIn hexy_name e ?_
        rw [hsplit]
        simp
      have hl₁ : l.lookahead = d :: (y ++ e :: (z ++ x)) := by
        rw [hl, hsplit]
        simp
      obtain ⟨l', hparse, hl'⟩ := parseHost_digits hd hy (stops_cons.mpr hstop) hl₁ hhost
      rw [hparse, ok_bind] at h
      dsimp only at h
      rw [parsePortOpt_name hl' he, ok_bind] at h
      exact parseRest_name (u := { u with
        flags := { u.flags with hostIsIpaddress := true }
        host := stored (some []) (d :: y) (e :: (z ++ x)) }) hl' he hpath h
  · obtain rfl := Option.some.inj hhead
    exact absurd hd (by decide)

/-- **A host and a port are handed on as they are written, a `*` as unspecified, exactly when the
address is plain.**  A host that begins with a digit is cut where its digits and dots end, a port
where a character comes that is not one of ports, the `*` included, and neither may be longer than
its buffer. -/
theorem asks_iff (mode : Mode) (hs : Internet scheme) (hh : IsHost host) (hp : IsPort port) :
    Asks mode scheme host port ↔ Plain host port := by
  rw [asks_iff_buffers hs hh hp]
  obtain ⟨m, hm, -⟩ := hs
  obtain ⟨hscheme, hroom⟩ := scheme_of_mapper hm
  obtain ⟨l, hl, hcrumble⟩ := crumble_address hscheme hroom hh hp
  obtain ⟨hne, hchars⟩ := port_chars hp
  rw [hcrumble]
  by_cases hdigits : ∀ d ∈ host.head?, d.isDigit = true → AllIn ipv4Char host
  · obtain ⟨l₁, flags, token, hparse₁, hl₁, htoken⟩ :=
      parseHost_found (u := withScheme false (some scheme)) hh hdigits hl rfl
    rw [hparse₁, ok_bind]
    dsimp only
    obtain ⟨v, hv, hsplit⟩ := exists_front portChar port
    cases hrest : port.dropWhile portChar with
    | nil =>
      rw [hrest, List.append_nil] at hsplit
      subst hsplit
      obtain ⟨l₂, hparse₂, hl₂⟩ := parsePort_eq
        (u := { withScheme false (some scheme) with flags, host := token }) hv stops_nil
        (by rw [List.append_nil]; exact hl₁) rfl
      obtain ⟨path, hparse₃⟩ := parseRest_nil
        (u := { withScheme false (some scheme) with
          flags, host := token, port := stored (some []) port [] }) hl₂ rfl
      rw [hparse₂, ok_bind]
      dsimp only
      rw [hparse₃]
      constructor
      · rintro ⟨u, hu, hhost, hport⟩
        obtain rfl := Except.ok.inj hu
        exact ⟨hv, hdigits, htoken.mp hhost, (stored_nil_eq_some hne).mp hport⟩
      · intro h
        exact ⟨_, rfl, htoken.mpr h.hostRoom, (stored_nil_eq_some hne).mpr h.portRoom⟩
    | cons e x =>
      have hstop := stops_dropWhile (p := portChar) (x := port)
      rw [hrest, stops_cons] at hstop
      rw [hrest] at hsplit
      have he : e ∈ port := by
        rw [hsplit]
        simp
      constructor
      · rintro ⟨u, hu, -, hport⟩
        rw [hsplit] at hl₁ hport
        exact absurd hport (port_of_other hv hstop (hchars e he) hl₁ rfl rfl hu)
      · intro h
        rw [h.portChars e he] at hstop
        cases hstop
  · constructor
    · rintro ⟨u, hu, -, hport⟩
      simp only [not_forall, exists_prop] at hdigits
      obtain ⟨d, hhead, hd, hmixed⟩ := hdigits
      rw [port_of_digits hh hhead hd hmixed hl rfl rfl hu] at hport
      exact absurd (Option.some.inj hport).symm hne
    · exact fun h => absurd h.digits hdigits

/-- `"tcp://www.kame.net:http"` -/
theorem asks_kame : Asks .csock ['t', 'c', 'p'] "www.kame.net".toList "http".toList := by
  refine (asks_iff .csock ⟨⟨.inet, .stream, .tcp⟩, by decide, by decide⟩ (.name ?_ (by decide))
    (.service (by decide) (by decide))).mpr
    ⟨by decide, fun d hd hdigit => ?_, ⟨by decide, fun _ => by decide⟩, by decide⟩
  · exact encoded_of_allIn (by decide)
  · obtain rfl := Option.some.inj hd
    exact absurd hdigit (by decide)

/-- `"tcp4://192.168.0.1:*"` -/
theorem not_asks_any : Internet "tcp4".toList ∧ IsHost "192.168.0.1".toList ∧ IsPort ['*'] ∧
    ¬ Asks .csock "tcp4".toList "192.168.0.1".toList ['*'] := by
  have hrun : uNetUri2addr (addressText "tcp4".toList "192.168.0.1".toList ['*']) .csock =
      some (.getaddrinfo ⟨some "192.168.0.1".toList, some [], false, true,
        ⟨.inet, .stream, .tcp⟩⟩) := by decide
  have hhost : IPv4address "192.168.0.1".toList :=
    ⟨['1', '9', '2'], ['1', '6', '8'], ['0'], ['1'], .oneHundred rfl rfl, .oneHundred rfl rfl,
      .one rfl, .one rfl, rfl⟩
  refine ⟨⟨⟨.inet, .stream, .tcp⟩, by decide, by decide⟩, .ipv4 hhost, .any, ?_⟩
  rintro ⟨q, hasked, -, hport⟩
  obtain rfl := Resolver.getaddrinfo.inj (Option.some.inj (hrun.symm.trans hasked))
  cases hport

end Libu.Net
