/-
# The grammar of URIs

RFC 3986, as predicates on strings under the names of its productions.  `Components` is a URI taken
apart, `Components.Valid` says that every component is in the language of its production, and
`Components.text` puts them together again (section 5.3 of the RFC).  The port is a parameter: the
RFC has digits there, the parser wants service names too.
-/
import Libu.Uri.Basic

namespace Libu.Uri

open Verif

/-! ## 1. Characters -/

/-- `unreserved` -/
def isUnreserved (c : Char) : Bool := c.isAlphanum || c ∈ ['-', '.', '_', '~']

/-- `sub-delims` -/
def isSubDelim (c : Char) : Bool :=
  c ∈ ['!', '$', '&', '\x27', '(', ')', '*', '+', ',', ';', '=']

/-- A character of a registered name. -/
def isNameChar (c : Char) : Bool := isUnreserved c || isSubDelim c

/-- A character of a userinfo, an escape apart. -/
def isUserinfoChar (c : Char) : Bool := isNameChar c || c = ':'

/-- `pchar`, an escape apart. -/
def isPchar (c : Char) : Bool := isUserinfoChar c || c = '@'

/-- A character of a query or of a fragment, an escape apart. -/
def isQueryChar (c : Char) : Bool := isPchar c || c = '/' || c = '?'

/-- `*( p / pct-encoded )` -/
inductive Encoded (p : Char → Bool) : List Char → Prop
  | nil : Encoded p []
  | plain {c : Char} {v : List Char} : p c = true → Encoded p v → Encoded p (c :: v)
  | pct {a b : Char} {v : List Char} : isXDigit a = true → isXDigit b = true → Encoded p v →
      Encoded p ('%' :: a :: b :: v)

/-! ## 2. Hosts -/

/-- `dec-octet`, a number up to 255 without leading zeros. -/
inductive DecOctet : List Char → Prop
  | one {a : Char} : a.isDigit = true → DecOctet [a]
  | two {a b : Char} : a.isDigit = true → a ≠ '0' → b.isDigit = true → DecOctet [a, b]
  | oneHundred {a b : Char} : a.isDigit = true → b.isDigit = true → DecOctet ['1', a, b]
  | twoHundred {a b : Char} : a ∈ ['0', '1', '2', '3', '4'] → b.isDigit = true →
    DecOctet ['2', a, b]
  | fifty {a : Char} : a ∈ ['0', '1', '2', '3', '4', '5'] → DecOctet ['2', '5', a]

/-- `IPv4address` -/
def IPv4address (v : List Char) : Prop :=
  ∃ a b c d, DecOctet a ∧ DecOctet b ∧ DecOctet c ∧ DecOctet d ∧
    v = a ++ '.' :: (b ++ '.' :: (c ++ '.' :: d))

/-- `h16`, one to four hexadecimal digits. -/
def H16 (v : List Char) : Prop := 1 ≤ v.length ∧ v.length ≤ 4 ∧ AllIn isXDigit v

/-- `ls32`, the last 32 bits of an address. -/
def Ls32 (v : List Char) : Prop :=
  (∃ a b, H16 a ∧ H16 b ∧ v = a ++ ':' :: b) ∨ IPv4address v

/-- `n( h16 ":" )` -/
inductive Groups : Nat → List Char → Prop
  | zero : Groups 0 []
  | succ {n : Nat} {a v : List Char} : H16 a → Groups n v → Groups (n + 1) (a ++ ':' :: v)

/-- `[ *n( h16 ":" ) h16 ]` -/
def Lead (n : Nat) (v : List Char) : Prop :=
  v = [] ∨ ∃ m g a, m ≤ n ∧ Groups m g ∧ H16 a ∧ v = g ++ a

/-- The nine forms of the RFC, of which the third to the seventh are one here. -/
def IPv6address (v : List Char) : Prop :=
  (∃ g l, Groups 6 g ∧ Ls32 l ∧ v = g ++ l) ∨
  (∃ g l, Groups 5 g ∧ Ls32 l ∧ v = ':' :: ':' :: (g ++ l)) ∨
  (∃ n a g l, n ≤ 4 ∧ Lead n a ∧ Groups (4 - n) g ∧ Ls32 l ∧ v = a ++ ':' :: ':' :: (g ++ l)) ∨
  (∃ a b, Lead 5 a ∧ H16 b ∧ v = a ++ ':' :: ':' :: b) ∨
  ∃ a, Lead 6 a ∧ v = a ++ [':', ':']

/-- `IPvFuture` -/
def IPvFuture (v : List Char) : Prop :=
  ∃ d x y, (d = 'v' ∨ d = 'V') ∧ x ≠ [] ∧ AllIn isXDigit x ∧ y ≠ [] ∧ AllIn isUserinfoChar y ∧
    v = d :: (x ++ '.' :: y)

/-- What stands between the brackets of an IP-literal. -/
def Address (v : List Char) : Prop := IPv6address v ∨ IPvFuture v

/-- `IP-literal`, an address in brackets. -/
def IPLiteral (v : List Char) : Prop := ∃ a, Address a ∧ v = '[' :: (a ++ [']'])

/-- `reg-name`, which may be empty. -/
def RegName (v : List Char) : Prop := Encoded isNameChar v

/-- `host` -/
def Host (v : List Char) : Prop := IPLiteral v ∨ IPv4address v ∨ RegName v

/-! ## 3. Paths -/

/-- `segment` -/
def Segment (v : List Char) : Prop := Encoded isPchar v

/-- `*( "/" segment )` -/
inductive PathAbempty : List Char → Prop
  | nil : PathAbempty []
  | cons {s p : List Char} : Segment s → PathAbempty p → PathAbempty ('/' :: (s ++ p))

/-- `segment-nz *( "/" segment )` -/
def PathRootless (v : List Char) : Prop :=
  ∃ s p, Segment s ∧ s ≠ [] ∧ PathAbempty p ∧ v = s ++ p

/-- `"/" [ segment-nz *( "/" segment ) ]` -/
def PathAbsolute (v : List Char) : Prop := v = ['/'] ∨ ∃ p, PathRootless p ∧ v = '/' :: p

/-! ## 4. URIs -/

/-- `scheme`, a letter and then letters, digits, `+`, `-` and `.`. -/
def Scheme (v : List Char) : Prop :=
  ∃ a w, v = a :: w ∧ a.isAlpha = true ∧ AllIn schemeChar w

/-- `authority`, taken apart. -/
structure Authority where
  userinfo : Option (List Char)
  host : List Char
  port : Option (List Char)
  deriving DecidableEq

/-- A URI taken apart, with the components that it need not have as options. -/
structure Components where
  scheme : List Char
  authority : Option Authority
  path : List Char
  query : Option (List Char)
  fragment : Option (List Char)
  deriving DecidableEq

/-- An optional component with the delimiter in front of it. -/
def behind (d : Char) (v : Option (List Char)) : List Char := v.elim [] (d :: ·)

/-- The userinfo with its `@`, where there is one. -/
def Authority.userText (a : Authority) : List Char := a.userinfo.elim [] (· ++ ['@'])

/-- The text of an authority. -/
def Authority.text (a : Authority) : List Char := a.userText ++ (a.host ++ behind ':' a.port)

/-- The query and the fragment, with their delimiters. -/
def Components.suffixText (c : Components) : List Char :=
  behind '?' c.query ++ behind '#' c.fragment

/-- What follows the authority. -/
def Components.rest (c : Components) : List Char := c.path ++ c.suffixText

/-- The `hier-part` with what follows it. -/
def Components.hierText (c : Components) : List Char :=
  c.authority.elim [] (fun a => '/' :: '/' :: a.text) ++ c.rest

/-- The text of a URI, by section 5.3 of the RFC. -/
def Components.text (c : Components) : List Char := c.scheme ++ ':' :: c.hierText

/-- The components of an authority are in the languages of their productions. -/
structure Authority.Valid (port : Char → Bool) (a : Authority) : Prop where
  userinfo : ∀ u ∈ a.userinfo, Encoded isUserinfoChar u
  host : Host a.host
  port : ∀ p ∈ a.port, AllIn port p

/-- The components of a URI are in the languages of their productions, and the path is one that may
stand behind such an authority, or behind none. -/
structure Components.Valid (port : Char → Bool) (c : Components) : Prop where
  scheme : Scheme c.scheme
  authority : ∀ a ∈ c.authority, a.Valid port ∧ PathAbempty c.path
  path : c.authority = none → PathAbsolute c.path ∨ PathRootless c.path ∨ c.path = []
  query : ∀ q ∈ c.query, Encoded isQueryChar q
  fragment : ∀ f ∈ c.fragment, Encoded isQueryChar f

/-- The string is a URI, with ports from the class `port`. -/
def IsUri (port : Char → Bool) (s : List Char) : Prop := ∃ c : Components, c.Valid port ∧ s = c.text

end Libu.Uri
