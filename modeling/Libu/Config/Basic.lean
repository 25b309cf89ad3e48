/-
# Configuration trees (`toolbox/config.c`)

A configuration is read line by line.  A line sets a key, opens the section that the line before it
has named, or closes the section that is being read.

* §1 is the functions on one line of text.
* §2 is the tree.  A `u_config_t *` is the path from the root to the node, so that parents and the
  root are found as the links of the source find them.
* §3 is where lines come from.  A source is what its `gets` callback returns, call after call;
  `u_config_buf_gets` is the one of a buffer.
* §4 is the loader.  A section and an included file are read by calls of it; `fuel` bounds the lines
  and the calls, and `load_total` (in `Load`) says how much of it a buffer needs.
* §5 writes a tree to a buffer.

Memory never runs out.  `crash` is a NULL pointer that is followed.
-/
import Libu.Verif.Forest
import Mathlib.Data.List.DropRight

namespace Libu

open Verif

namespace Config

/-! ## 1. Lines -/

/-- `u_isblank` -/
def isblank (c : Char) : Bool := c = ' ' || c = '\t'

/-- `u_isnl` -/
def isnl (c : Char) : Bool := c = '\n' || c = '\r'

/-- `u_isblank_str` -/
def isblankStr (s : List Char) : Bool := s.all isblank

/-- `u_string_trim` -/
def trim (s : List Char) : List Char := (s.rdropWhile isblank).dropWhile isblank

/-- The loop of `u_config_remove_comment`: what it has gone over, last character first, and
`last`. -/
def scanComment (seen : List Char) (last : Char) : List Char → List Char
  | [] => seen.reverse
  | c :: s =>
    if c = '#' then
      if last ≠ '\\' then seen.reverse
      -- the rest of the line moves onto the backslash
      else scanComment (c :: seen.tail) c s
    else scanComment (c :: seen) c s

/-- `u_config_remove_comment`; a line must fit the buffer on the stack. -/
def removeComment (line : List Char) : Option (List Char) :=
  if 2048 ≤ line.length then none else some (scanComment [] '\x00' line)

/-- What a line says. -/
inductive Line
  | empty
  | opening (alone : Bool)
  | closing (alone : Bool)
  | assign (key value : List Char)
  deriving DecidableEq

/-- A line of `u_config_do_load_drv`, up to where it depends on the lines before. -/
def parseLine (line : List Char) : Option Line := do
  let line ← removeComment line
  let line := (trim line).rdropWhile isnl
  if line = [] then some .empty
  else
    match line.dropWhile isblank with
    | '{' :: ln => some (.opening (isblankStr ln))
    | '}' :: ln => some (.closing (isblankStr ln))
    | ln =>
      some (.assign (ln.takeWhile fun c => !isblank c) (trim (ln.dropWhile fun c => !isblank c)))

/-! ## 2. The tree -/

/-- `key` and `value` of a node below the root. -/
structure Item where
  key : List Char
  value : Option (List Char)
  deriving DecidableEq

end Config

/-- A tree of `u_config_t`s.  The root has no key. -/
structure Config where
  value : Option (List Char)
  children : Forest Config.Item
  deriving DecidableEq

namespace Config

/-- A `u_config_t *`. -/
abbrev Path := List Nat

inductive Ret
  | ok | err | crash
  deriving DecidableEq

/-- `u_config_create` -/
def create : Config := ⟨none, .nil⟩

/-- The pieces of a dotted key. -/
def splitDots : List Char → List (List Char)
  | [] => [[]]
  | c :: s =>
    if c = '.' then [] :: splitDots s
    else
      match splitDots s with
      | [] => [[c]]
      | k :: ks => (c :: k) :: ks

/-- `u_config_get_child_n`; any key will do where `key` is NULL. -/
def getChildN (key : Option (List Char)) : Nat → Forest Item → Option Nat
  | _, .nil => none
  | n, .node item _ items =>
    if key = none ∨ key = some item.key then
      match n with
      | 0 => some 0
      | n + 1 => (getChildN key n items).map (· + 1)
    else (getChildN key n items).map (· + 1)

/-- `u_config_get_subkey_nth` from the node with these children, on the pieces of the key. -/
def getSubkeyNth (n : Nat) : List (List Char) → Forest Item → Option Path
  | [], _ => none
  | [key], f => (getChildN (some key) n f).map fun i => [i]
  | key :: subkey, f => do
    let i ← getChildN (some key) 0 f
    let child ← f.inside [i]
    let pc ← getSubkeyNth 0 subkey child
    some (i :: pc)

/-- `u_config_get_subkey` -/
def getSubkey (subkey : List Char) (f : Forest Item) : Option Path :=
  getSubkeyNth 0 (splitDots subkey) f

/-- `u_config_get_subkey_value` -/
def getSubkeyValue (subkey : List Char) (f : Forest Item) : Option (List Char) := do
  let skey ← getSubkey subkey f
  let item ← f.label skey
  item.value

/-- The loop of `u_config_set_value`: `var` is the name that is being read, between `${` and `}`. -/
def expand (lookup : List Char → Except Ret (List Char)) :
    Option (List Char) → List Char → Except Ret (List Char)
  | none, [] => .ok []
  | none, '$' :: '{' :: val => expand lookup (some []) val
  | none, c :: val => do
    let value ← expand lookup none val
    .ok (c :: value)
  -- closing bracket missing
  | some _, [] => .error .err
  | some var, c :: val =>
    if c = '}' then do
      let varval ← lookup var
      let value ← expand lookup none val
      .ok (varval ++ value)
    else expand lookup (some (var ++ [c])) val

/-- The text that a `${var}` in the value of the node at `p` stands for. -/
def lookup (c : Config) (p : Path) (var : List Char) : Except Ret (List Char) :=
  -- the parent of the root
  if p = [] then .error .crash
  else
    let parent := (c.children.inside p.dropLast).getD .nil
    let root := if (getSubkey var parent).isSome then parent else c.children
    .ok ((getSubkeyValue var root).getD [])

/-- The node with this value. -/
def putValue (c : Config) (p : Path) (val : Option (List Char)) : Config :=
  if p = [] then { c with value := val }
  else { c with children := c.children.relabel (fun item => { item with value := val }) p }

/-- `u_config_set_value` -/
def setValue (c : Config) (p : Path) (val : Option (List Char)) : Ret × Config :=
  let c := c.putValue p none
  match val with
  | none => (.ok, c)
  | some val =>
    match expand (c.lookup p) none val with
    | .error ret => (ret, c)
    | .ok value => (.ok, c.putValue p (some (trim value)))

/-- `u_config_add_child`: the tree, and the index of the new child. -/
def addChild (c : Config) (p : Path) (key : List Char) : Config × Nat :=
  ({ c with children := c.children.alter (·.append (.node ⟨key, none⟩ .nil .nil)) p },
    ((c.children.inside p).getD .nil).length)

/-- The child with the key, or a new one if there is none or none is wanted. -/
def childFor (c : Config) (p : Path) (key : List Char) (overwrite : Bool) : Config × Nat :=
  match if overwrite then getChildN (some key) 0 ((c.children.inside p).getD .nil) else none with
  | some i => (c, i)
  | none => c.addChild p key

/-- `u_config_do_set_key` on the pieces of the key; the path is that of `*pchild`. -/
def doSetKey (val : Option (List Char)) (overwrite : Bool) :
    List (List Char) → Config → Path → Ret × Config × Path
  | [], c, p => (.err, c, p)
  | [key], c, p =>
    let (c, i) := c.childFor p key overwrite
    let (ret, c) := c.setValue (p ++ [i]) val
    (ret, c, p ++ [i])
  | key :: keys, c, p =>
    let (c, i) := c.childFor p key true
    doSetKey val overwrite keys c (p ++ [i])

/-- `u_config_set_key` on the node at `p`. -/
def setKey (c : Config) (p : Path) (key : List Char) (val : Option (List Char)) : Ret × Config :=
  let (ret, c, _) := doSetKey val true (splitDots key) c p
  (ret, c)

/-! ## 3. Sources -/

/-- What is left of a source: what `gets` returns until it returns NULL. -/
abbrev Source := List (List Char)

/-- `cs_getline` behind what it has of the line. -/
def csGetline (ln : List Char) : Source → Option (List Char × Source)
  | [] => none
  | buf :: src =>
    -- the chunk as a C string
    let buf := buf.takeWhile (· ≠ '\x00')
    match buf.getLast? with
    | none => some (ln, src)
    | some c =>
      if isnl c then some (ln ++ buf.dropLast, src) else csGetline (ln ++ buf.dropLast) src

/-- `BUFSZ` of `cs_getline`. -/
def bufsz : Nat := 1024

/-- The loop of `u_config_buf_gets`. -/
def bufChunk : Nat → List Char → List Char × List Char
  | 0, data => ([], data)
  | _ + 1, [] => ([], [])
  | size + 1, c :: data =>
    if c = '\n' then ([c], data)
    else
      let (s, data) := bufChunk size data
      (c :: s, data)

/-- `u_config_buf_gets`; `data` is what is left of the buffer. -/
def bufGets (size : Nat) (data : List Char) : Option (List Char × List Char) :=
  if size = 0 then none
  else
    match data with
    | [] => none
    | c :: _ => if c = '\x00' then none else some (bufChunk (size - 1) data)

/-- The buffer as a source; no more calls are made than it has characters. -/
def bufSource : Nat → List Char → Source
  | 0, _ => []
  | calls + 1, data =>
    match bufGets bufsz data with
    | none => []
    | some (chunk, data) => chunk :: bufSource calls data

/-! ## 4. Loading -/

/-- `u_config_driver_t`: a missing callback is NULL.  What `close` returns is told by the name of
the file. -/
structure Driver where
  opens : Option (List Char → Option Source)
  closes : Option (List Char → Bool)
  gets : Bool
  resolv : Option (List Char → Option (List Char))

/-- `U_CONFIG_DRIVER` of `u_config_load_from_buf`. -/
def bufDriver : Driver := ⟨none, none, true, none⟩

/-- `include` -/
def includeKey : List Char := ['i', 'n', 'c', 'l', 'u', 'd', 'e']

/-- `-include` -/
def optIncludeKey : List Char := '-' :: includeKey

/-- The first loop of `u_config_include`, over the children by their indices. -/
def circular (path : List Char) (inckey : Nat) : List (Item × Nat) → Ret
  | [] => .ok
  | (subkey, i) :: items =>
    if subkey.key = includeKey ∧ i ≠ inckey then
      match subkey.value with
      | none => .crash
      | some value => if path = value then .err else circular path inckey items
    else circular path inckey items

/-- What a call of the loader comes to: what it returns, the tree, and what is left of the
source. -/
abbrev Loaded := Ret × Config × Source

/-- `u_config_include`, where `load` is `u_config_do_load_drv`. -/
def doInclude (load : Config → Path → List Char → Source →
    Option Loaded) (drv : Driver) (c : Config) (p : Path) (inckey : Nat) : Option (Ret × Config) :=
  let items := ((c.children.inside p).getD .nil).heads.map Prod.fst
  match items[inckey]?.bind Item.value with
  | none => some (.err, c)
  | some path =>
    match circular path inckey items.zipIdx with
    | .ok =>
      match drv.opens with
      | none => some (.err, c)
      | some opens =>
        match (drv.resolv.getD some) (path.dropWhile isblank) with
        | none => some (.err, c)
        | some uri =>
          match opens uri with
          | none => some (.err, c)
          | some src => do
            let (ret, c, _) ← load c p [] src
            let closed := (drv.closes.getD fun _ => true) uri
            some (if ret = .ok ∧ !closed then .err else ret, c)
    | ret => some (ret, c)

/-- An `include` or `-include` line, up to where the loader goes on with it as with any other. -/
def directive (load : Config → Path → List Char → Source →
    Option Loaded) (drv : Driver) (c : Config)
    (p : Path) (key value : List Char) : Option (Ret × Config) :=
  if key = includeKey ∨ key = optIncludeKey then
    if value = [] then some (.err, c)
    else
      match doSetKey (some value) false (splitDots key) c p with
      | (.ok, c, subkey) => do
        let (ret, c) ← doInclude load drv c p (subkey.getLast?.getD 0)
        -- failure is not critical
        some (if key = optIncludeKey ∧ ret = .err then .ok else ret, c)
      | (ret, c, _) => some (ret, c)
  else some (.ok, c)

/-- A line `key value`; the loader goes on with `load`. -/
def assign (load : Config → Path → List Char → Source → Option Loaded) (drv : Driver)
    (overwrite : Bool)
    (c : Config) (p : Path) (lastkey : List Char) (src : Source) (key value : List Char) :
    Option Loaded :=
  match directive load drv c p key value with
  | none => none
  | some (.ok, c) =>
    if value = [] then load c p key src
    else
      match doSetKey (some value) overwrite (splitDots key) c p with
      | (.ok, c, _) => load c p lastkey src
      | (ret, c, _) => some (ret, c, src)
  | some (ret, c) => some (ret, c, src)

/-- A line `{`; the section is read by `load`, and the loader goes on with it. -/
def openSection (load : Config → Path → List Char → Source →
    Option Loaded) (overwrite : Bool) (c : Config)
    (p : Path) (lastkey : List Char) (src : Source) : Option Loaded :=
  let (c, i) := c.childFor p lastkey overwrite
  match load c (p ++ [i]) [] src with
  | some (.ok, c, src) => load c p [] src
  | r => r

/-- A round of the loop of `u_config_do_load_drv`. -/
def loadLine (load : Config → Path → List Char → Source → Option Loaded) (drv : Driver)
    (overwrite : Bool)
    (c : Config) (p : Path) (lastkey : List Char) (src : Source) : Option Loaded :=
  match csGetline [] src with
  | none => some (.ok, c, [])
  | some (line, src) =>
    match parseLine line with
    | none => some (.err, c, src)
    | some .empty => load c p lastkey src
    | some (.opening alone) =>
      if lastkey = [] ∨ alone = false then some (.err, c, src)
        else openSection load overwrite c p lastkey src
    | some (.closing alone) =>
      if p = [] ∨ alone = false then some (.err, c, src) else some (.ok, c, src)
    | some (.assign key value) => assign load drv overwrite c p lastkey src key value

/-- The loop of `u_config_do_load_drv`. -/
def load (drv : Driver) (overwrite : Bool) : Nat → Config → Path → List Char →
    Source → Option Loaded
  | 0 => fun _ _ _ _ => none
  | fuel + 1 => loadLine (load drv overwrite fuel) drv overwrite

/-- `u_config_do_load_drv` -/
def doLoadDrv (fuel : Nat) (c : Config) (drv : Driver) (src : Source) (overwrite : Bool) :
    Option Loaded :=
  if drv.gets then load drv overwrite fuel c [] [] src else some (.err, c, src)

/-- `u_config_load_from_buf` -/
def loadFromBuf (buf : List Char) : Option Config :=
  match doLoadDrv (buf.length + 1) create bufDriver (bufSource buf.length buf) false with
  | some (.ok, c, _) => some c
  | _ => none

/-! ## 5. Saving -/

/-- The line of a node in `u_config_to_str`. -/
def Item.toStr (item : Item) : List Char :=
  if item.key = includeKey then [] else item.key ++ ' ' :: (item.value.getD [] ++ ['\n'])

/-- `u_config_to_str` on the children of a node, one after the other. -/
def childrenToStr : Forest Item → List Char
  | .nil => []
  | .node item children items =>
    let block :=
      if children = .nil then [] else ['{', '\n'] ++ childrenToStr children ++ ['}', '\n']
    item.toStr ++ block ++ childrenToStr items

/-- `u_config_to_str` on the root. -/
def toStr (c : Config) : List Char := childrenToStr c.children

/-- `u_config_save_to_buf` on the root. -/
def saveToBuf (c : Config) (size : Nat) : Option (List Char) :=
  if size ≤ c.toStr.length then none else some c.toStr

end Config

end Libu
