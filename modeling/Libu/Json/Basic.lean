/-
# JSON objects, decoding and encoding (`toolbox/json.c`)

The decoder is a recursive descent over the lexer.  It runs in two modes: with a tree under
construction (`u_json_decode`) and without one (`u_json_validate`), which are one code path here as
they are in the source; `jo : Option Json` is the pointer that may be NULL.

* §1 is the object: `struct u_json_s` without its links, and a node with its children.  The fields
  of the name cache (`fqn`, `icur`, `map`) are not read by anything translated here; the nodes of
  a tree that was never indexed have a NULL `map`, so that the guards on it never fire.
* §2 is the matchers.  The array and object matchers are one loop; they differ in their brackets
  and in what they match between the commas.
* §3 is the parser and its two interfaces, §4 the encoder, §5 the constructors.

A matcher fails with the lexer's error string (`err`), or stops at a read of a match buffer that was
never written (`unwritten`): `u_lexer_get_match` leaves the buffer alone when the match does not fit
it, and no caller looks at its result.  Without a tree the buffer's contents are dropped, and the
read has no effect.
-/
import Libu.Lexer
import Libu.Verif.Forest
import Mathlib.Algebra.Group.Nat.Defs

namespace Libu

open Verif

/-! ## 1. Objects -/

/-- `u_json_type_t` -/
inductive JsonType
  | unknown | string | number | object | array | true | false | null
  deriving DecidableEq, Repr

/-- `U_JSON_MAX_DEPTH` -/
def jsonMaxDepth : Nat := 16

/-- `struct u_json_s` without its links. -/
structure JsonNode where
  type : JsonType
  key : List Char
  val : List Char
  depth : Nat
  count : Nat
  deriving DecidableEq

/-- A node and its children. -/
structure Json extends JsonNode where
  children : Forest JsonNode
  deriving DecidableEq

/-- How a matcher fails. -/
inductive Fail
  | err (status : List Char)
  | unwritten
  | fuel
  deriving DecidableEq

abbrev Res := Except Fail

/-- `dbg_err_if (e)`, where `e` leaves no message in the lexer. -/
def orErr {α : Type} : Option α → Res α
  | some a => .ok a
  | none => .error (.err [])

namespace Json

/-- `u_json_new` -/
def new : Json := ⟨⟨.unknown, [], [], 0, 0⟩, .nil⟩

def isContainer (type : JsonType) : Bool := type = .object || type = .array

/-- The forest a pointer to this node reaches when it has no siblings. -/
def root (jo : Json) : Forest JsonNode := .node jo.toJsonNode jo.children .nil

def setType (jo : Json) (type : JsonType) : Json := { jo with type }

/-- `u_strlcpy` into a buffer of `U_TOKEN_SZ` bytes. -/
def strlcpy (src : List Char) : Option (List Char) :=
  if src.length < tokenSz then some src else none

def setKey (jo : Json) (key : Option (List Char)) : Option Json := do
  let key ← strlcpy (key.getD [])
  return { jo with key }

/-- `u_json_set_val`, that is `u_json_set_val_ex` without the syntax check. -/
def setVal (jo : Json) (val : List Char) : Option Json :=
  match jo.type with
  | .string | .number => do
    let val ← strlcpy val
    return { jo with val }
  | _ => some jo

def setDepth (jo : Json) (depth : Nat) : Option Json :=
  if jsonMaxDepth ≤ depth then none else some { jo with depth }

/-- `u_json_add` -/
def add (head jo : Json) : Option Json :=
  if !isContainer head.type then none
  else
    some { head with
      children := head.children.append jo.root
      count := if head.type = .array then (head.count + 1) % 2 ^ 32 else head.count }

end Json

/-! ## 2. The matchers -/

namespace Lexer

/-- The text that error messages print: `u_lexer_lookahead`. -/
def rest (l : Lexer) : String := String.ofList l.lookahead

/-- `U_LEXER_ERR` -/
def err {α : Type} (msg : String) : Res α := .error (.err (errText msg))

/-- `U_LEXER_NEXT` -/
def nextOrErr (l : Lexer) : Res (Lexer × Char) :=
  match l.next with
  | (some c, l) => .ok (l, c)
  | (none, l) => err s!"EOT at offset {l.pos}"

/-- `U_LEXER_SKIP` -/
def skipOrErr (l : Lexer) : Res (Lexer × Char) :=
  match l.skip with
  | (some c, l) => .ok (l, c)
  | (none, l) => err s!"EOT at offset {l.pos}"

end Lexer

namespace Json

open Lexer

/-- A matcher: the lexer and the object to fill (NULL when validating) as they are afterwards. -/
abbrev Matcher := Lexer → Option Json → Res (Lexer × Option Json)

/-- `u_json_match_string_first`, with the left match it records. -/
def matchStringFirst (l : Lexer) : Option Lexer :=
  if l.peek = '"' then some l.recordLmatch else none

def matchNumberFirst (l : Lexer) : Option Lexer :=
  if l.peek = '-' || l.peek.isDigit then some l.recordLmatch else none

/-- The match without its last character, as a value that is looked at only when there is an object
to put it in. -/
def trimMatch (l : Lexer) : Res (List Char) :=
  match l.getMatch with
  | some m => .ok m.dropLast
  | none => .error .unwritten

/-- `u_json_match_int` after the optional minus sign, at the character `c`. -/
def matchDigits (l : Lexer) (c : Char) : Res Lexer :=
  if c = '0' then do
    let (l, _) ← l.nextOrErr
    pure l
  else if '0' ≤ c && c ≤ '9' then do
    -- the first turn of `do ... while (isdigit(c))`, then the others
    let (l, _) ← l.nextOrErr
    pure (l.nextWhile Char.isDigit)
  else err s!"bad int syntax at {l.rest}"

def matchInt (l : Lexer) : Res Lexer :=
  if l.peek = '-' then do
    let (l, c) ← l.nextOrErr
    matchDigits l c
  else matchDigits l l.peek

def matchFrac (l : Lexer) : Res Lexer :=
  if l.peek ≠ '.' then err s!"bad frac syntax at {l.rest}"
  else do
    let (l, c) ← l.nextOrErr
    if !c.isDigit then err s!"bad frac syntax at {l.rest}"
    else pure (l.nextWhile Char.isDigit)

/-- `u_json_match_exp` after the optional sign, at the character `c`. -/
def matchExpDigits (l : Lexer) (c : Char) : Res Lexer :=
  if !c.isDigit then err s!"bad exp syntax at {l.rest}"
  else pure (l.nextWhile Char.isDigit)

def matchExp (l : Lexer) : Res Lexer :=
  if l.peek ≠ 'e' && l.peek ≠ 'E' then err s!"bad exp syntax at {l.rest}"
  else do
    let (l, c) ← l.nextOrErr
    if c = '+' || c = '-' then do
      let (l, c) ← l.nextOrErr
      matchExpDigits l c
    else matchExpDigits l c

/-- "c IN first(FRAC)" -/
def matchFracOpt (l : Lexer) : Res Lexer := if l.peek = '.' then matchFrac l else pure l

/-- "c IN first(EXP)" -/
def matchExpOpt (l : Lexer) : Res Lexer :=
  if l.peek = 'e' || l.peek = 'E' then matchExp l else pure l

/-- Push the match, less its last character, into the object. -/
def store (l : Lexer) (jo : Json) (type : JsonType) : Res (Lexer × Option Json) := do
  let m ← trimMatch l
  let jo ← orErr ((jo.setType type).setVal m)
  pure (l, some jo)

def matchNumber : Matcher := fun l jo => do
  let l ← matchInt l
  let l ← matchFracOpt l
  let l ← matchExpOpt l
  let l := l.recordRmatch
  match jo with
  | none => pure (l, none)
  | some jo => store l jo .number

/-- The loop of `u_json_match_seq` over the letters after the first one. -/
def matchSeqLoop : List Char → Lexer → Res Lexer
  | [], l => pure l
  | x :: rem, l => do
    let (l, c) ← l.skipOrErr
    if c ≠ x then err s!"expect '{x}', got {c} at {l.rest}"
    else matchSeqLoop rem l

def matchSeq (type : JsonType) (first : Char) (rem : List Char) : Matcher := fun l jo =>
  if l.peek ≠ first then err s!"expect '{first}', got {l.peek} at {l.rest}"
  else do
    let l ← matchSeqLoop rem l
    let (l, _) ← l.skipOrErr
    pure (l, jo.map (·.setType type))

def matchNull : Matcher := matchSeq .null 'n' ['u', 'l', 'l']

def matchTrue : Matcher := matchSeq .true 't' ['r', 'u', 'e']

def matchFalse : Matcher := matchSeq .false 'f' ['a', 'l', 's', 'e']

/-- The loop of `u_json_match_escaped_unicode`, with the hexadecimal digits still to come. -/
def matchHexLoop : Nat → Lexer → Res Lexer
  | 0, l => pure l
  | n + 1, l => do
    let (l, c) ← l.nextOrErr
    if !isXDigit c then err s!"non hex digit {c} in escaped unicode"
    else matchHexLoop n l

def matchEscapedUnicode (l : Lexer) : Res Lexer := matchHexLoop 4 l

/-- What may follow a backslash, `u` apart. -/
def escapes : List Char := ['"', '\\', '/', 'b', 'f', 'n', 'r', 't']

/-- The loop of `u_json_match_string`.  `c` is its variable of that name: the character under the
cursor, except after an escaped unicode, where it is still the `u`. -/
def matchStringLoop : Nat → Lexer → Char → Res Lexer
  | 0, _, _ => .error .fuel
  | n + 1, l, c =>
    if c = '"' then pure l
    else if c = '\\' then do
      let (l, c) ← l.nextOrErr
      if c = 'u' then
        let l ← matchEscapedUnicode l
        matchStringLoop n l c
      else if c ∈ escapes then
        let (l, c) ← l.nextOrErr
        matchStringLoop n l c
      else err s!"invalid char {c} in escape"
    else if isCntrl c then err "control character in string"
    else do
      let (l, c) ← l.nextOrErr
      matchStringLoop n l c

def matchString : Matcher := fun l jo =>
  if l.peek ≠ '"' then err s!"expect \", got {l.peek} at {l.rest}"
  else do
    let (l, c) ← l.nextOrErr
    let l := l.recordLmatch
    let l ← matchStringLoop (l.slen + 1) l c
    let l := l.recordRmatch
    let (l, _) ← l.nextOrErr
    match jo with
    | none => pure (l, none)
    | some jo => store l jo .string

/-- "Consume any trailing white spaces." -/
def trailingWs (l : Lexer) : Res Lexer :=
  if isSpace l.peek then do
    let (l, _) ← l.skipOrErr
    pure l
  else pure l

/-- A new node one level below `jo`. -/
def newBelow (jo : Option Json) : Res (Option Json) :=
  match jo with
  | none => pure none
  | some jo => do
    let elem ← orErr (new.setDepth (jo.depth + 1))
    pure (some elem)

/-- Push the new node to its parent. -/
def addTo (jo elem : Option Json) : Res (Option Json) :=
  match jo, elem with
  | some jo, some elem => do
    let jo ← orErr (jo.add elem)
    pure (some jo)
  | _, _ => pure jo

/-- One element of an array: a turn of the loop of `u_json_match_array`. -/
def matchElem (value : Matcher) : Matcher := fun l jo => do
  let elem ← newBelow jo
  let (l, elem) ← value l elem
  let jo ← addTo jo elem
  pure (l, jo)

/-- The matched name, less its closing quote, into the new node. -/
def setName (l : Lexer) (pair : Option Json) : Res (Option Json) :=
  match pair with
  | none => pure none
  | some pair => do
    let m ← trimMatch l
    let pair ← orErr (pair.setKey (some m))
    pure (some pair)

def matchPair (value : Matcher) : Matcher := fun l jo => do
  let (l, _) ← matchString l none
  let pair ← newBelow jo
  let pair ← setName l pair
  let l ← trailingWs l
  if l.peek ≠ ':' then err s!"expect ':', got {l.peek} at {l.rest}"
  else do
    let (l, _) ← l.skipOrErr
    let (l, pair) ← value l pair
    let jo ← addTo jo pair
    pure (l, jo)

/-- One member of an object: a turn of the loop of `u_json_match_object`. -/
def matchMember (value : Matcher) : Matcher := fun l jo =>
  match matchStringFirst l with
  | none => .error (.err [])
  | some l => matchPair value l jo

/-- The loop of the array and object matchers. -/
def containerLoop (closing : Char) (entry : Matcher) : Nat → Matcher
  | 0, _, _ => .error .fuel
  | n + 1, l, jo => do
    let (l, c) ← l.skipOrErr
    if c = closing then pure (l, jo)
    else do
      let (l, jo) ← entry l jo
      let l ← trailingWs l
      if l.peek = ',' then containerLoop closing entry n l jo else pure (l, jo)

def matchContainer (type : JsonType) (opening closing : Char) (entry : Matcher) : Matcher :=
  fun l jo =>
    if l.peek ≠ opening then err s!"expect '{opening}', got {l.peek} at {l.rest}"
    else do
      let (l, jo) ← containerLoop closing entry (l.slen + 1) l (jo.map (·.setType type))
      if l.peek ≠ closing then err s!"expect '{closing}', got {l.peek} at {l.rest}"
      else
        -- the end of the text is ignored here
        pure (l.skip.2, jo)

def matchArray (value : Matcher) : Matcher := matchContainer .array '[' ']' (matchElem value)

def matchObject (value : Matcher) : Matcher :=
  matchContainer .object '\x7b' '\x7d' (matchMember value)

/-- `u_json_match_value`; the recursion is bounded by the nesting of the text. -/
def matchValue : Nat → Matcher
  | 0, _, _ => .error .fuel
  | n + 1, l, jo =>
    match matchStringFirst l with
    | some l => matchString l jo
    | none =>
      match matchNumberFirst l with
      | some l => matchNumber l jo
      | none =>
        if l.peek = '\x7b' then matchObject (matchValue n) l jo
        else if l.peek = '[' then matchArray (matchValue n) l jo
        else if l.peek = 't' then matchTrue l jo
        else if l.peek = 'f' then matchFalse l jo
        else if l.peek = 'n' then matchNull l jo
        else err s!"value not found at '{l.rest}'"

/-! ## 3. The parser -/

/-- `u_json_do_parse`: with a tree when `jo` is a new object, validating only when it is NULL. -/
def doParse (json : List Char) (jo : Option Json) : Res (Option Json) :=
  match (Lexer.new json).eatWs with
  | (false, _) => err "Empty JSON text !"
  | (true, l) =>
    if l.peek = '\x7b' then do
      let (_, jo) ← matchObject (matchValue l.slen) l jo
      pure jo
    else if l.peek = '[' then do
      let (_, jo) ← matchArray (matchValue l.slen) l jo
      pure jo
    else err s!"Expect '\x7b' or '[', got '{l.peek}'."

/-- `u_json_decode` -/
def decode (json : List Char) : Res Json := do
  let jo ← doParse json (some new)
  orErr jo

/-- `u_json_validate`; the failure carries the string copied to `status`. -/
def validate (json : List Char) : Res Unit := do
  let _ ← doParse json none
  pure ()

/-! ## 4. The encoder -/

/-- The text printed for the value itself, before its children. -/
def openText (jo : JsonNode) : Option (List Char) :=
  match jo.type with
  | .string => some ('"' :: (jo.val ++ ['"']))
  | .number => some jo.val
  | .object => some ['\x7b', ' ']
  | .array => some ['[', ' ']
  | .true => some ['t', 'r', 'u', 'e']
  | .false => some ['f', 'a', 'l', 's', 'e']
  | .null => some ['n', 'u', 'l', 'l']
  | .unknown => none

/-- The text printed after the children. -/
def closeText (jo : JsonNode) : List Char :=
  match jo.type with
  | .array => [' ', ']']
  | .object => [' ', '\x7d']
  | _ => []

def keyText (jo : JsonNode) : List Char :=
  if jo.key ≠ [] then '"' :: (jo.key ++ ['"', ':', ' ']) else []

/-- `u_json_do_encode` -/
def doEncode : Forest JsonNode → Option (List Char)
  | .nil => some []
  | .node jo children siblings => do
    let value ← openText jo
    let inner ← doEncode children
    let next ← doEncode siblings
    let comma := if siblings ≠ .nil then [',', ' '] else []
    return keyText jo ++ value ++ inner ++ closeText jo ++ comma ++ next

/-- `u_json_encode` of a node without siblings. -/
def encode (jo : Json) : Option (List Char) := doEncode jo.root

/-! ## 5. Constructors -/

/-- `u_json_set_val_ex` with the syntax check. -/
def setValChecked (jo : Json) (val : List Char) : Option Json :=
  match jo.type with
  | .string =>
    match matchString (Lexer.new ('"' :: (val ++ ['"']))) none with
    | .ok _ => jo.setVal val
    | .error _ => none
  | .number =>
    match matchNumber (Lexer.new val) none with
    | .ok _ => jo.setVal val
    | .error _ => none
  | _ => some jo

/-- `u_json_new_container` -/
def newContainer (type : JsonType) (key : Option (List Char)) : Option Json :=
  (new.setType type).setKey key

def newArray (key : Option (List Char)) : Option Json := newContainer .array key

def newObject (key : Option (List Char)) : Option Json := newContainer .object key

/-- `u_json_new_atom`; `val` is NULL for the types that have no value. -/
def newAtom (type : JsonType) (key val : Option (List Char)) (check : Bool) : Option Json := do
  let jo ← (new.setType type).setKey key
  match type with
  | .number | .string =>
    let val ← val
    if check then jo.setValChecked val else jo.setVal val
  | _ => some jo

def newString (key val : Option (List Char)) : Option Json := newAtom .string key val .true

def newNumber (key val : Option (List Char)) : Option Json := newAtom .number key val .true

/-- `u_json_new_real`; `sval` is the text `printf` gives for a finite number under `%g`. -/
def newReal (key : Option (List Char)) (sval : List Char) : Option Json :=
  newAtom .number key (some sval) .false

def newInt (key : Option (List Char)) (val : Int) : Option Json :=
  newAtom .number key (some (toString val).toList) .false

def newNull (key : Option (List Char)) : Option Json := newAtom .null key none .false

def newBool (key : Option (List Char)) (val : Bool) : Option Json :=
  newAtom (if val then .true else .false) key none .false

end Json

end Libu
