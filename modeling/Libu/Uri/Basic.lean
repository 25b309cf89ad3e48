/-
# URI strings, taking apart and putting together (`toolbox/uri.c`)

* §1 is the object: a `struct u_uri_s` is a record of string buffers.
* §2 is the matchers.  A matcher that tests the character under the cursor (`match_ups` and those
  built on it) returns a flag and the lexer, since a percent sign makes it MOVE the cursor, also
  when what follows is no escape and the flag is false.
* §3 is the parsers of the components, §4 the two interfaces.

A buffer whose string was written out of its bounds has no contents (`none`).  This is what becomes
of a match that does not fit its buffer: `u_lexer_get_match` leaves the buffer alone, no caller
looks at its result, and the last character of the empty string is then cut off.
-/
import Libu.Lexer

namespace Libu

open Verif Lexer

/-! ## 1. Objects -/

/-- `U_URI_STRMAX` -/
def uriStrMax : Nat := 4096

/-- The string in a buffer of `U_TOKEN_SZ` bytes. -/
abbrev Token := Option (List Char)

/-- `u_uri_flags_t` -/
structure UriFlags where
  hostIsIpaddress : Bool
  hostIsIpliteral : Bool
  deriving DecidableEq

/-- `struct u_uri_s`; of the options, `U_URI_OPT_DONT_PARSE_USERINFO` is the only one. -/
structure Uri where
  dontParseUserinfo : Bool
  flags : UriFlags
  scheme : Token
  userinfo : Token
  user : Token
  pwd : Token
  authority : Token
  host : Token
  port : Token
  path : Token
  query : Token
  fragment : Token
  deriving DecidableEq

namespace Uri

/-- `u_uri_new`: path is mandatory, and has a default. -/
def new (dontParseUserinfo : Bool) : Uri :=
  ⟨dontParseUserinfo, ⟨false, false⟩, some [], some [], some [], some [], some [], some [], some [],
    some ['/'], some [], some []⟩

/-- How a parser fails: with the lexer as it leaves it, or out of `fuel`, which bounds the loops
here and in no run is used up. -/
inductive Fail
  | err (l : Lexer)
  | fuel
  deriving DecidableEq

abbrev Res := Except Fail

/-- `U_LEXER_NEXT` -/
def nextOrErr (l : Lexer) : Res (Lexer × Char) :=
  match l.next with
  | (some c, l) => .ok (l, c)
  | (none, l) => .error (.err l)

/-- Cut the last character off; of the empty string, the byte before the buffer. -/
def chop (m : Token) : Token := m.bind fun m => if m = [] then none else some m.dropLast

/-- The buffer after `u_lexer_get_match`. -/
def getMatchInto (l : Lexer) (match_ : Token) : Token := l.getMatch.or match_

/-- The closing bracket of an IP-literal is no part of it. -/
def trimBracket (m : List Char) : List Char := if m.getLast? = some ']' then m.dropLast else m

/-- `u_uri_adjust_greedy_match` -/
def adjustGreedyMatch (l : Lexer) (match_ : Token) : Token :=
  let m := getMatchInto l match_
  (if l.eot then m else chop m).map trimBracket

/-! ## 2. The matchers -/

/-- The loop of `u_uri_expect_pct_encoded`, with the hexadecimal digits still to come. -/
def hexLoop : Nat → Lexer → Bool × Lexer
  | 0, l => (true, l)
  | n + 1, l =>
    match l.next with
    | (none, l) => (false, l)
    | (some c, l) => if !isXDigit c then (false, l) else hexLoop n l

def expectPctEncoded (l : Lexer) : Bool × Lexer := if l.peek ≠ '%' then (false, l) else hexLoop 2 l

/-- The cases of `u_uri_match_ups`, letters and digits apart. -/
def upsMarks : List Char :=
  ['-', '.', '_', '~', '!', '$', '&', '\x27', '(', ')', '*', '+', ',', ';', '=']

/-- "unreserved / pct-encoded / sub-delims" -/
def matchUps (l : Lexer) : Bool × Lexer :=
  if l.peek = '%' then expectPctEncoded l else (l.peek ∈ upsMarks || l.peek.isAlphanum, l)

def matchPcharMinusAtSign (l : Lexer) : Bool × Lexer :=
  if l.peek = ':' then (true, l) else matchUps l

def matchPchar (l : Lexer) : Bool × Lexer :=
  if l.peek = '@' then (true, l) else matchPcharMinusAtSign l

/-- The test of the loops over a query and a fragment. -/
def matchQueryChar (l : Lexer) : Bool × Lexer :=
  if l.peek = '/' || l.peek = '?' then (true, l) else matchPchar l

/-- The test of the loop over an IP-literal. -/
def matchLiteralChar (l : Lexer) : Bool × Lexer :=
  match matchPchar l with
  | (b, l') => (b && l.peek ≠ ']', l')

/-- `while (m(l)) U_LEXER_NEXT(l, &c)` -/
def whileMatch (m : Lexer → Bool × Lexer) : Nat → Lexer → Res Lexer
  | 0, _ => .error .fuel
  | n + 1, l =>
    match m l with
    | (false, l) => .ok l
    | (true, l) => do
      let (l, _) ← nextOrErr l
      whileMatch m n l

/-- `do U_LEXER_NEXT(l, &c); while (m(l))` -/
def doWhile (m : Lexer → Bool × Lexer) (l : Lexer) : Res Lexer := do
  let (l, _) ← nextOrErr l
  whileMatch m (l.slen + 1) l

/-! ## 3. The parsers -/

def schemeChar (c : Char) : Bool := c.isAlphanum || c = '+' || c = '-' || c = '.'

def parseScheme (l : Lexer) (u : Uri) : Res (Lexer × Uri) :=
  let l := l.recordLmatch
  if !l.peek.isAlpha then .error (.err l)
  else do
    let (l, _) ← nextOrErr l
    let l := (l.nextWhile schemeChar).recordRmatch
    -- the match includes the first character behind the scheme
    pure (l, { u with scheme := chop (getMatchInto l u.scheme) })

/-- `u_lexer_expect_char` -/
def expectChar (l : Lexer) (expected : Char) : Res Lexer :=
  if l.peek = expected then do
    let (l, _) ← nextOrErr l
    pure l
  else .error (.err l)

/-- `u_uri_crumble_user_password`.  Its loops stop at the end of the userinfo, like `nextWhile`. -/
def crumbleUserPassword (u : Uri) : Uri :=
  match u.userinfo with
  | none => { u with user := none, pwd := none }
  | some userinfo =>
    if userinfo = [] then u
    else
      let l := (Lexer.new userinfo).recordLmatch
      let l := (l.next.2.nextWhile (· ≠ ':')).recordRmatch
      let u := { u with user := adjustGreedyMatch l u.user }
      if l.eot then u
      else
        let l := l.next.2.recordLmatch
        let l := (l.nextWhile fun _ => true).recordRmatch
        { u with pwd := adjustGreedyMatch l u.pwd }

def parseUserinfo (l : Lexer) (u : Uri) : Res (Lexer × Uri) := do
  let l ← doWhile matchPcharMinusAtSign l.recordLmatch
  if l.peek ≠ '@' then .error (.err l)
  else
    let l := l.recordRmatch
    let u := { u with userinfo := adjustGreedyMatch l u.userinfo }
    let u := if u.dontParseUserinfo then u else crumbleUserPassword u
    let (l, _) ← nextOrErr l
    pure (l, u)

def parseIpliteral (l : Lexer) : Res Lexer :=
  if l.peek ≠ '[' then .error (.err l)
  else do
    let (l, _) ← nextOrErr l
    let l := l.recordLmatch
    let l ← whileMatch matchLiteralChar (l.slen + 1) l
    if l.peek ≠ ']' then .error (.err l)
    else
      let (l, _) ← nextOrErr l
      pure l

def ipv4Char (c : Char) : Bool := c.isDigit || c = '.'

def parseIpv4address (l : Lexer) : Res Lexer := do
  let (l, _) ← nextOrErr l
  pure (l.nextWhile ipv4Char)

def parseRegname (l : Lexer) : Res Lexer := doWhile matchUps l

/-- The three cases of `u_uri_parse_host`, each with the flags it sets. -/
def parseHostCases (l : Lexer) (flags : UriFlags) : Res (Lexer × UriFlags) :=
  if l.peek.isDigit then do
    let l ← parseIpv4address l
    pure (l, { flags with hostIsIpaddress := true })
  else
    match matchUps l with
    | (true, l) => do
      let l ← parseRegname l
      pure (l, flags)
    | (false, l) =>
      if l.peek = '[' then do
        let l ← parseIpliteral l
        pure (l, ⟨true, true⟩)
      else pure (l, flags)

def parseHost (l : Lexer) (u : Uri) : Res (Lexer × Uri) := do
  let (l, flags) ← parseHostCases l.recordLmatch u.flags
  let l := l.recordRmatch
  pure (l, { u with flags, host := adjustGreedyMatch l u.host })

/-- "We want to let service names, not just port numbers." -/
def portChar (c : Char) : Bool := c.isAlphanum || c = '_' || c = '-' || c = '.'

def parsePort (l : Lexer) (u : Uri) : Res (Lexer × Uri) :=
  if l.peek ≠ ':' then .error (.err l)
  else do
    let (l, _) ← nextOrErr l
    let l := (l.recordLmatch.nextWhile portChar).recordRmatch
    pure (l, { u with port := adjustGreedyMatch l u.port })

def expectSegment (l : Lexer) : Res Lexer := doWhile matchPchar l

/-- The loop of `u_uri_expect_path_abempty`, which does not look at what `u_uri_expect_segment`
returns. -/
def segmentLoop : Nat → Lexer → Res Lexer
  | 0, _ => .error .fuel
  | n + 1, l =>
    match expectSegment l with
    | .ok l => if l.peek = '/' then segmentLoop n l else .ok l
    | .error (.err l) => if l.peek = '/' then segmentLoop n l else .ok l
    | .error .fuel => .error .fuel

/-- `*("/" segment)` -/
def expectPathAbempty (l : Lexer) : Res Lexer :=
  if l.peek ≠ '/' then .ok l else segmentLoop (l.slen + 1) l

/-- `1*pchar` -/
def expectSegmentNz (l : Lexer) : Res Lexer :=
  match matchPchar l with
  | (false, l) => .error (.err l)
  | (true, l) => doWhile matchPchar l

def parseAbempty (l : Lexer) (u : Uri) : Res (Lexer × Uri) := do
  let l ← expectPathAbempty l.recordLmatch
  let l := l.recordRmatch
  pure (l, { u with path := adjustGreedyMatch l u.path })

/-- The `/` that an absolute path starts with. -/
def skipSlash (l : Lexer) : Res Lexer :=
  if l.peek = '/' then do
    let (l, _) ← nextOrErr l
    pure l
  else pure l

/-- `['/'] segment-nz path-abempty` -/
def parsePath (l : Lexer) (u : Uri) : Res (Lexer × Uri) := do
  let l ← skipSlash l.recordLmatch
  let l ← expectSegmentNz l
  let l ← expectPathAbempty l
  let l := l.recordRmatch
  pure (l, { u with path := adjustGreedyMatch l u.path })

/-- "[userinfo "@"]" -/
def parseUserinfoOpt (l : Lexer) (u : Uri) : Res (Lexer × Uri) :=
  if '@' ∈ l.lookahead then parseUserinfo l u else pure (l, u)

def parsePortOpt (l : Lexer) (u : Uri) : Res (Lexer × Uri) :=
  if l.peek = ':' then parsePort l u else pure (l, u)

/-- `"//" authority path-abempty` -/
def parseAuthority (l : Lexer) (u : Uri) : Res (Lexer × Uri) := do
  let l ← expectChar l '/'
  let l ← expectChar l '/'
  let (l, u) ← parseUserinfoOpt l u
  let (l, u) ← parseHost l u
  let (l, u) ← parsePortOpt l u
  parseAbempty l u

/-- Check for both absolute and rootless paths. -/
def pathFirst (l : Lexer) : Bool × Lexer := if l.peek = '/' then (true, l) else matchPchar l

def parseHierPart (l : Lexer) (u : Uri) : Res (Lexer × Uri) :=
  if l.lookahead.take 2 = ['/', '/'] then parseAuthority l u
  else
    match pathFirst l with
    | (true, l) => parsePath l u
    | (false, l) => pure (l, { u with path := some [] })

/-- The text of a query or a fragment behind its first character, which is `first`. -/
def parseQueryText (first : Char) (l : Lexer) : Res Lexer :=
  if l.peek ≠ first then .error (.err l)
  else do
    let (l, _) ← nextOrErr l
    let l := l.recordLmatch
    let l ← whileMatch matchQueryChar (l.slen + 1) l
    pure l.recordRmatch

def parseQuery (l : Lexer) (u : Uri) : Res (Lexer × Uri) := do
  let l ← parseQueryText '?' l
  pure (l, { u with query := adjustGreedyMatch l u.query })

/-- As for the query, but the match is not adjusted. -/
def parseFragment (l : Lexer) (u : Uri) : Res (Lexer × Uri) := do
  let l ← parseQueryText '#' l
  pure (l, { u with fragment := getMatchInto l u.fragment })

def parseQueryOpt (l : Lexer) (u : Uri) : Res (Lexer × Uri) :=
  if l.peek = '?' then parseQuery l u else pure (l, u)

def parseFragmentOpt (l : Lexer) (u : Uri) : Res (Lexer × Uri) :=
  if l.peek = '#' then parseFragment l u else pure (l, u)

/-- `u_uri_parser` -/
def parser (l : Lexer) (dontParseUserinfo : Bool) : Res (Lexer × Uri) := do
  let (l, u) ← parseScheme l (new dontParseUserinfo)
  let l ← expectChar l ':'
  let (l, u) ← parseHierPart l u
  let (l, u) ← parseQueryOpt l u
  parseFragmentOpt l u

/-! ## 4. Taking apart and putting together -/

/-- `u_uri_crumble` -/
def crumble (uri : List Char) (dontParseUserinfo : Bool) : Res Uri := do
  let (_, u) ← parser (Lexer.new uri) dontParseUserinfo
  pure u

/-- `u_strlcat` to a string of at most `U_URI_STRMAX` bytes. -/
def strlcat (s src : List Char) : Option (List Char) :=
  if s.length + src.length < uriStrMax then some (s ++ src) else none

/-- Append a string that is not empty, between its delimiters. -/
def catAtom (s before atom after : List Char) : Option (List Char) :=
  if atom = [] then some s
  else do
    let s ← strlcat s before
    let s ← strlcat s atom
    strlcat s after

def kneadUser (u : Uri) (s : List Char) : Option (List Char) := do
  let user ← u.user
  if user = [] then some s
  else
    let s ← strlcat s user
    let pwd ← u.pwd
    let s ← catAtom s [':'] pwd []
    strlcat s ['@']

/-- The userinfo, as one string or as user and password. -/
def kneadUserinfo (u : Uri) (s : List Char) : Option (List Char) := do
  let userinfo ← u.userinfo
  if userinfo = [] then kneadUser u s else catAtom s [] userinfo ['@']

/-- `u_uri_knead_authority`; it takes a host with a colon in it for an IP-literal. -/
def kneadAuthority (u : Uri) (s : List Char) : Option (List Char) := do
  let host ← u.host
  if host = [] then none
  else
    let literal := u.flags.hostIsIpliteral || ':' ∈ host
    let s ← strlcat s ['/', '/']
    let s ← kneadUserinfo u s
    let s ← catAtom s (if literal then ['['] else []) host (if literal then [']'] else [])
    let port ← u.port
    catAtom s [':'] port []

/-- The authority as it was set, or else from its atoms. -/
def catAuthority (u : Uri) (s : List Char) : Option (List Char) := do
  let authority ← u.authority
  if authority = [] then kneadAuthority u s else catAtom s ['/', '/'] authority []

/-- `u_uri_knead` -/
def knead (u : Uri) : Option (List Char) := do
  let scheme ← u.scheme
  let s ← catAtom [] [] scheme [':']
  let s ← catAuthority u s
  let path ← u.path
  let s ← strlcat s path
  let query ← u.query
  let s ← catAtom s ['?'] query []
  let fragment ← u.fragment
  catAtom s ['#'] fragment []

end Uri

end Libu
