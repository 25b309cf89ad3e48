/-
# The JSON parser under watch (`toolbox/json.c`)

The matchers of `Libu.Json.Basic` once more, statement by statement over the lexer under watch: each
loop takes its characters one at a time, and each `u_lexer_peek`, each error message and each match
that is copied out is in the log.

A match that does not fit its buffer leaves it unwritten, and the code trims the buffer all the
same, in both modes, which is logged as `stale`.  What strlen then finds there is `junk`, for the
mode and the lexer at that point: any string, or `none` where no NUL is in the buffer.  The NUL that
trims the match goes before the buffer if the string is empty.  Without a string, and with the empty
one, the run fails as `unwritten`: the code is out of its buffer, and what it does is not defined.

* §1 is the matchers, §2 the parser.
* §3: the outcome is that of `Libu.Json.Basic`, when a run that builds a tree finds no junk and one
  that validates finds some (`noJunk`).
-/
import Libu.Json.Lexeme
import Libu.Lexer.Watch

namespace Libu

open Verif Logged

namespace Json.Watch

open Watched hiding next skip

/-! ## 1. The matchers -/

/-- A routine of the parser: it works on the lexer, with a log, and fails as the parser does. -/
abbrev Parser (α : Type) := Watched Fail α

/-- `U_LEXER_ERR`: the message is printed into the lexer, as much of it as fits. -/
def err {α : Type} (msg : String) : Parser α := fail (.err (errText msg))

/-- `U_LEXER_ERR` with the text at the cursor in the message, for which all of it is looked at. -/
def errAt {α : Type} (msg : String → String) : Parser α := do
  let t ← lookahead
  err (msg (String.ofList t))

/-- What `U_LEXER_NEXT` and `U_LEXER_SKIP` make of the end of the text: an error. -/
def orEot (c : Option Char) : Parser Char :=
  match c with
  | some c => pure c
  | none => do
    let l ← get
    err s!"EOT at offset {l.pos}"

/-- `U_LEXER_NEXT`: the next character, or an error. -/
def next : Parser Char := do
  let c ← Watched.next .fuel
  orEot c

/-- `U_LEXER_SKIP`: the next character behind white space, or an error. -/
def skip : Parser Char := do
  let c ← Watched.skip .fuel
  orEot c

/-- `dbg_err_if (e)`, where `e` leaves no message in the lexer.  It looks at nothing. -/
def lift {α : Type} (r : Res α) : Parser α := fun l => ([], r.map fun a => (l, a))

/-- `while (p(c)) U_LEXER_NEXT(jl, &c);` with a fuel, where `c` is the character at the cursor. -/
def whileNext (p : Char → Bool) : Nat → Char → Parser Char
  | 0, _ => fail .fuel
  | n + 1, c =>
    if p c then do
      let c ← next
      whileNext p n c
    else pure c

/-- `u_json_match_string_first`: a match starts at a double quote. -/
def matchStringFirst : Parser Bool := do
  let c ← peek
  if c = '"' then do
    recordLmatch
    pure true
  else pure false

/-- `u_json_match_number_first`: a match starts at a minus sign or a digit. -/
def matchNumberFirst : Parser Bool := do
  let c ← peek
  if c = '-' || c.isDigit then do
    recordLmatch
    pure true
  else pure false

/-- `while (isdigit(c)) U_LEXER_NEXT(jl, &c);`, with a fuel of the whole text. -/
def whileDigit (c : Char) : Parser Unit := do
  let l ← get
  let _ ← whileNext Char.isDigit (l.slen + 1) c
  pure ()

/-- `u_json_match_int` after the optional minus sign: a zero alone, or digits that do not start with
one. -/
def matchDigits (c : Char) : Parser Unit :=
  if c = '0' then do
    let _ ← next
    pure ()
  else if '0' ≤ c && c ≤ '9' then do
    -- the first turn of `do ... while (isdigit(c))`, then the others
    let c ← next
    whileDigit c
  else errAt fun t => s!"bad int syntax at {t}"

/-- `u_json_match_int`: an optional minus sign and digits. -/
def matchInt : Parser Unit := do
  let c ← peek
  if c = '-' then do
    let c ← next
    matchDigits c
  else matchDigits c

/-- `u_json_match_frac`: a point and at least one digit. -/
def matchFrac : Parser Unit := do
  let c ← peek
  if c ≠ '.' then errAt fun t => s!"bad frac syntax at {t}"
  else do
    let c ← next
    if !c.isDigit then errAt fun t => s!"bad frac syntax at {t}"
    else whileDigit c

/-- `u_json_match_exp` after the optional sign: at least one digit. -/
def matchExpDigits (c : Char) : Parser Unit :=
  if !c.isDigit then errAt fun t => s!"bad exp syntax at {t}"
  else whileDigit c

/-- `u_json_match_exp`: the letter, an optional sign, and digits. -/
def matchExp : Parser Unit := do
  let c ← peek
  if c ≠ 'e' && c ≠ 'E' then errAt fun t => s!"bad exp syntax at {t}"
  else do
    let c ← next
    if c = '+' || c = '-' then do
      let c ← next
      matchExpDigits c
    else matchExpDigits c

/-- "c IN first(FRAC)", where the comment of the source stands. -/
def matchFracOpt : Parser Unit := do
  let c ← peek
  if c = '.' then matchFrac else pure ()

/-- "c IN first(EXP)", where the comment of the source stands. -/
def matchExpOpt : Parser Unit := do
  let c ← peek
  if c = 'e' || c = 'E' then matchExp else pure ()

/-- The loop of `u_json_match_seq` over the letters after the first one. -/
def matchSeqLoop : List Char → Parser Unit
  | [] => pure ()
  | x :: rem => do
    let c ← skip
    if c ≠ x then errAt fun t => s!"expect '{x}', got {c} at {t}"
    else matchSeqLoop rem

/-- `u_json_match_seq`: one of the three words, character by character. -/
def matchSeq (type : JsonType) (first : Char) (rem : List Char) (jo : Option Json) :
    Parser (Option Json) := do
  let c ← peek
  if c ≠ first then errAt fun t => s!"expect '{first}', got {c} at {t}"
  else do
    matchSeqLoop rem
    let _ ← skip
    pure (jo.map (·.setType type))

def matchNull : Option Json → Parser (Option Json) := matchSeq .null 'n' ['u', 'l', 'l']

def matchTrue : Option Json → Parser (Option Json) := matchSeq .true 't' ['r', 'u', 'e']

def matchFalse : Option Json → Parser (Option Json) := matchSeq .false 'f' ['a', 'l', 's', 'e']

/-- The loop of `u_json_match_escaped_unicode`, with the hexadecimal digits still to come. -/
def matchHexLoop : Nat → Parser Unit
  | 0 => pure ()
  | n + 1 => do
    let c ← next
    if !isXDigit c then err s!"non hex digit {c} in escaped unicode"
    else matchHexLoop n

/-- `u_json_match_escaped_unicode`: four hexadecimal digits. -/
def matchEscapedUnicode : Parser Unit := matchHexLoop 4

/-- The loop of `u_json_match_string`, with its variable `c`: up to the double quote, control
characters refused and escapes checked. -/
def matchStringLoop : Nat → Char → Parser Unit
  | 0, _ => fail .fuel
  | n + 1, c =>
    if c = '"' then pure ()
    else if c = '\\' then do
      let c ← next
      if c = 'u' then do
        matchEscapedUnicode
        matchStringLoop n c
      else if c ∈ escapes then do
        let c ← next
        matchStringLoop n c
      else err s!"invalid char {c} in escape"
    else if isCntrl c then err "control character in string"
    else do
      let c ← next
      matchStringLoop n c

/-- "Consume any trailing white spaces."  There may be none, and then nothing is done. -/
def trailingWs : Parser Unit := do
  let c ← peek
  if isSpace c then do
    let _ ← skip
    pure ()
  else pure ()

section

variable (junk : Bool → Lexer → Option (List Char))

/-- The match without its last character, as the local buffer has it after `u_lexer_get_match` and
`match[strlen(match) - 1] = '\0'`. -/
def trimMatch (build : Bool) : Parser (List Char) := do
  let l ← get
  let m ← getMatch
  match m with
  | some m => pure m.dropLast
  | none => do
    log [.stale]
    match junk build l with
    | some (c :: m) => pure (c :: m).dropLast
    -- strlen runs out of the buffer, or the NUL goes before it
    | _ => fail .unwritten

/-- Push the match, less its last character, into the object; in the other mode there is none, and
the match is trimmed all the same. -/
def store (jo : Json) (type : JsonType) : Parser (Option Json) := do
  let m ← trimMatch junk true
  let jo ← lift (orErr ((jo.setType type).setVal m))
  pure (some jo)

/-- `u_json_match_number`: the parts of a number, and then its text is trimmed by the character
behind it. -/
def matchNumber (jo : Option Json) : Parser (Option Json) := do
  matchInt
  matchFracOpt
  matchExpOpt
  recordRmatch
  match jo with
  | none => do
    -- the buffer is trimmed also where nothing is made of it
    let _ ← trimMatch junk false
    pure none
  | some jo => store junk jo .number

/-- `u_json_match_string`: the text between double quotes, trimmed by the closing one. -/
def matchString (jo : Option Json) : Parser (Option Json) := do
  let c ← peek
  if c ≠ '"' then errAt fun t => s!"expect \", got {c} at {t}"
  else do
    let c ← next
    recordLmatch
    let l ← get
    matchStringLoop (l.slen + 1) c
    recordRmatch
    let _ ← next
    match jo with
    | none => pure none
    | some jo => store junk jo .string

/-- One element of an array: a turn of the loop of `u_json_match_array`. -/
def matchElem (value : Option Json → Parser (Option Json)) (jo : Option Json) :
    Parser (Option Json) := do
  let elem ← lift (newBelow jo)
  let elem ← value elem
  lift (addTo jo elem)

/-- The matched name, less its closing quote, into the new node.  It is trimmed in both modes. -/
def setName (pair : Option Json) : Parser (Option Json) := do
  let m ← trimMatch junk pair.isSome
  match pair with
  | none => pure none
  | some pair => do
    let pair ← lift (orErr (pair.setKey (some m)))
    pure (some pair)

/-- `u_json_match_pair`: a name, a colon and a value, with white space between them. -/
def matchPair (value : Option Json → Parser (Option Json)) (jo : Option Json) :
    Parser (Option Json) := do
  let _ ← matchString junk none
  let pair ← lift (newBelow jo)
  let pair ← setName junk pair
  trailingWs
  let c ← peek
  if c ≠ ':' then errAt fun t => s!"expect ':', got {c} at {t}"
  else do
    let _ ← skip
    let pair ← value pair
    lift (addTo jo pair)

/-- One member of an object: a turn of the loop of `u_json_match_object`. -/
def matchMember (value : Option Json → Parser (Option Json)) (jo : Option Json) :
    Parser (Option Json) := do
  let first ← matchStringFirst
  if first then matchPair junk value jo else fail (.err [])

/-- The loop of the array and object matchers, with a fuel: an entry, and then a comma or the
closing bracket. -/
def containerLoop (closing : Char) (entry : Option Json → Parser (Option Json)) :
    Nat → Option Json → Parser (Option Json)
  | 0, _ => fail .fuel
  | n + 1, jo => do
    -- the `d` of the source
    let _ ← peek
    let c ← skip
    if c = closing then pure jo
    else do
      let jo ← entry jo
      trailingWs
      let c ← peek
      if c = ',' then containerLoop closing entry n jo else pure jo

/-- `u_json_match_array` and `u_json_match_object`: an opening bracket, and entries up to the
closing one. -/
def matchContainer (type : JsonType) (opening closing : Char)
    (entry : Option Json → Parser (Option Json)) (jo : Option Json) : Parser (Option Json) := do
  let c ← peek
  if c ≠ opening then errAt fun t => s!"expect '{opening}', got {c} at {t}"
  else do
    let l ← get
    let jo ← containerLoop closing entry (l.slen + 1) (jo.map (·.setType type))
    let c ← peek
    if c ≠ closing then errAt fun t => s!"expect '{closing}', got {c} at {t}"
    else do
      -- the end of the text is ignored here
      let _ ← Watched.skip .fuel
      pure jo

def matchArray (value : Option Json → Parser (Option Json)) : Option Json → Parser (Option Json) :=
  matchContainer .array '[' ']' (matchElem value)

def matchObject (value : Option Json → Parser (Option Json)) : Option Json → Parser (Option Json) :=
  matchContainer .object '\x7b' '\x7d' (matchMember junk value)

/-- The cases of `u_json_match_value` behind those of a string and of a number. -/
def matchOther (value : Option Json → Parser (Option Json)) (jo : Option Json) :
    Parser (Option Json) := do
  let c ← peek
  if c = '\x7b' then matchObject junk value jo
  else if c = '[' then matchArray value jo
  else if c = 't' then matchTrue jo
  else if c = 'f' then matchFalse jo
  else if c = 'n' then matchNull jo
  else errAt fun t => s!"value not found at '{t}'"

/-- `u_json_match_value`; the recursion is bounded by the nesting of the text. -/
def matchValue : Nat → Option Json → Parser (Option Json)
  | 0, _ => fail .fuel
  | n + 1, jo => do
    let first ← matchStringFirst
    if first then matchString junk jo
    else do
      let first ← matchNumberFirst
      if first then matchNumber junk jo else matchOther junk (matchValue n) jo

/-! ## 2. The parser -/

/-- "Just warn in case the JSON string has not been completely consumed." -/
def warnRest : Parser Unit := do
  let e ← eot
  if e then pure ()
  else do
    let _ ← lookahead
    pure ()

/-- What `u_json_do_parse` does once it has the text: white space, a container, and a warning about
what is behind it. -/
def parseText (jo : Option Json) : Parser (Option Json) := do
  let ok ← eatWs .fuel
  if ok then do
    let l ← get
    let c ← peek
    if c = '\x7b' then do
      let jo ← matchObject junk (matchValue junk l.slen) jo
      warnRest
      pure jo
    else if c = '[' then do
      let jo ← matchArray (matchValue junk l.slen) jo
      warnRest
      pure jo
    else err s!"Expect '\x7b' or '[', got '{c}'."
  else err "Empty JSON text !"

/-- `u_json_do_parse`.  `u_lexer_new` measures the text first, which looks at all of it. -/
def doParse (json : List Char) (jo : Option Json) : List Event × Res (Option Json) :=
  let l := Lexer.new json
  let (es, r) := parseText junk jo l
  (.read 0 l.slen :: es, r.map Prod.snd)

end

/-! ## 3. What they return -/

section

variable {l : Lexer}

/-- A routine that returns the lexer alone, as one that returns nothing besides. -/
abbrev moved (r : Res Lexer) : Res (Lexer × Unit) := r.map fun l => (l, ())

/-- Mapping a result first or going on with what is mapped is the same. -/
theorem map_bind {α β γ : Type} (r : Res α) (f : α → β) (g : β → Res γ) :
    r.map f >>= g = r >>= fun a => g (f a) := by
  cases r <;> rfl

@[simp] theorem err_snd {α : Type} (msg : String) :
    ((err msg : Parser α) l).2 = Lexer.err msg := rfl

@[simp] theorem errAt_snd {α : Type} (msg : String → String) :
    ((errAt msg : Parser α) l).2 = Lexer.err (msg l.rest) := rfl

@[simp] theorem lift_snd {α : Type} (r : Res α) : (lift r l).2 = r.map fun a => (l, a) := rfl

@[simp] theorem next_snd : (next l).2 = l.nextOrErr := by
  rw [next, bind_snd, Watched.next_snd, ok_bind, Lexer.nextOrErr]
  obtain ⟨c, l'⟩ := l.next
  cases c <;> rfl

@[simp] theorem skip_snd : (skip l).2 = l.skipOrErr := by
  rw [skip, bind_snd, Watched.skip_snd, ok_bind, Lexer.skipOrErr]
  obtain ⟨c, l'⟩ := l.skip
  cases c <;> rfl

/-- With more fuel than there is text left, the loop of the source is the loop over a class of
`Libu.Lexer`, if the NUL is not in the class. -/
theorem whileNext_snd {p : Char → Bool} (hp : p '\x00' = false) : ∀ {n : Nat} {l : Lexer},
    l.lookahead.length < n → (whileNext p n l.peek l).2 = .ok (l.nextWhile p, (l.nextWhile p).peek)
  | 0, l, hn => absurd hn (Nat.not_lt_zero _)
  | n + 1, l, hn => by
    rw [whileNext]
    cases hx : l.lookahead with
    | nil => simp [Lexer.peek_of_nil hx, hp, Lexer.nextWhile_eq, hx]
    | cons c x =>
      rw [Lexer.peek_of_cons hx]
      by_cases hc : p c = true
      · have hadv : (l.adv 1).lookahead = x := Lexer.lookahead_adv_append (t := [c]) hx
        have hlen : (l.adv 1).lookahead.length < n := by
          rw [hadv]
          rw [hx, List.length_cons] at hn
          omega
        have hend : (l.adv 1).nextWhile p = l.nextWhile p := by
          rw [Lexer.nextWhile_eq, Lexer.nextWhile_eq, hadv, hx, List.takeWhile_cons_of_pos hc,
            List.length_cons, Nat.add_comm, ← Lexer.adv_adv]
        rw [if_pos hc, bind_snd, next_snd, Lexer.nextOrErr_cons hx, ok_bind,
          whileNext_snd hp hlen, hend]
      · simp [hc, Lexer.nextWhile_eq, hx, Lexer.peek_of_cons hx]

@[simp] theorem whileDigit_snd : (whileDigit l.peek l).2 = .ok (l.nextWhile Char.isDigit, ()) := by
  have hlen : l.lookahead.length < l.slen + 1 := Nat.lt_succ_of_le lookahead_length_le
  rw [whileDigit, get_bind, bind_snd, whileNext_snd (p := Char.isDigit) rfl hlen]
  rfl

/-- A step that takes the next character, and then one that goes by it. -/
theorem next_bind_snd {α : Type} {f : Char → Parser α} {g : Lexer × Char → Res (Lexer × α)}
    (h : ∀ l : Lexer, (f l.peek l).2 = g (l, l.peek)) : ((next >>= f) l).2 = l.nextOrErr >>= g := by
  rw [bind_snd, next_snd]
  cases hnext : l.nextOrErr with
  | error e => rfl
  | ok p =>
    obtain ⟨l', c⟩ := p
    obtain ⟨-, -, -, -, rfl, -⟩ := Lexer.nextOrErr_ok hnext
    exact h l'

/-- Returning the lexer alone goes through a bind. -/
theorem moved_bind {α : Type} (r : Res α) (f : α → Res Lexer) :
    moved (r >>= f) = r >>= fun a => moved (f a) := by
  cases r <;> rfl

@[simp] theorem matchDigits_snd :
    (matchDigits l.peek l).2 = moved (Json.matchDigits l l.peek) := by
  unfold matchDigits Json.matchDigits
  split
  · rw [moved_bind]
    exact next_bind_snd fun _ => rfl
  · split
    · rw [moved_bind]
      exact next_bind_snd fun _ => whileDigit_snd
    · rfl

@[simp] theorem matchInt_snd : (matchInt l).2 = moved (Json.matchInt l) := by
  rw [matchInt, bind_snd, peek_snd, ok_bind, Json.matchInt]
  split
  · rw [moved_bind]
    exact next_bind_snd fun _ => matchDigits_snd
  · exact matchDigits_snd

@[simp] theorem matchFrac_snd : (matchFrac l).2 = moved (Json.matchFrac l) := by
  rw [matchFrac, bind_snd, peek_snd, ok_bind, Json.matchFrac]
  split
  · rfl
  · rw [moved_bind]
    refine next_bind_snd fun l' => ?_
    dsimp only
    split
    · rfl
    · exact whileDigit_snd

@[simp] theorem matchExpDigits_snd :
    (matchExpDigits l.peek l).2 = moved (Json.matchExpDigits l l.peek) := by
  unfold matchExpDigits Json.matchExpDigits
  split
  · rfl
  · exact whileDigit_snd

@[simp] theorem matchExp_snd : (matchExp l).2 = moved (Json.matchExp l) := by
  rw [matchExp, bind_snd, peek_snd, ok_bind, Json.matchExp]
  split
  · rfl
  · rw [moved_bind]
    refine next_bind_snd fun l' => ?_
    dsimp only
    split
    · rw [moved_bind]
      exact next_bind_snd fun _ => matchExpDigits_snd
    · exact matchExpDigits_snd

@[simp] theorem matchFracOpt_snd : (matchFracOpt l).2 = moved (Json.matchFracOpt l) := by
  rw [matchFracOpt, bind_snd, peek_snd, ok_bind, Json.matchFracOpt]
  split
  · exact matchFrac_snd
  · rfl

@[simp] theorem matchExpOpt_snd : (matchExpOpt l).2 = moved (Json.matchExpOpt l) := by
  rw [matchExpOpt, bind_snd, peek_snd, ok_bind, Json.matchExpOpt]
  dsimp only
  simp only [Bool.or_eq_true, decide_eq_true_eq]
  split
  · exact matchExp_snd
  · rfl

@[simp] theorem matchSeqLoop_snd : ∀ {rem : List Char} {l : Lexer},
    (matchSeqLoop rem l).2 = moved (Json.matchSeqLoop rem l)
  | [], _ => rfl
  | x :: rem, l => by
    rw [matchSeqLoop, bind_snd, skip_snd, Json.matchSeqLoop, moved_bind]
    refine bind_congr fun p => ?_
    obtain ⟨l', c⟩ := p
    dsimp only
    split
    · rfl
    · exact matchSeqLoop_snd

@[simp] theorem matchHexLoop_snd : ∀ {n : Nat} {l : Lexer},
    (matchHexLoop n l).2 = moved (Json.matchHexLoop n l)
  | 0, _ => rfl
  | n + 1, l => by
    rw [matchHexLoop, bind_snd, next_snd, Json.matchHexLoop, moved_bind]
    refine bind_congr fun p => ?_
    obtain ⟨l', c⟩ := p
    dsimp only
    split
    · rfl
    · exact matchHexLoop_snd

@[simp] theorem matchStringLoop_snd : ∀ {n : Nat} {l : Lexer} {c : Char},
    (matchStringLoop n c l).2 = moved (Json.matchStringLoop n l c)
  | 0, _, _ => rfl
  | n + 1, l, c => by
    rw [matchStringLoop, Json.matchStringLoop]
    split
    · rfl
    split
    · rw [bind_snd, next_snd, moved_bind]
      refine bind_congr fun p => ?_
      obtain ⟨l', c⟩ := p
      dsimp only
      split
      · rw [bind_snd, matchEscapedUnicode, matchHexLoop_snd, map_bind, moved_bind]
        exact bind_congr fun _ => matchStringLoop_snd
      split
      · rw [bind_snd, next_snd, moved_bind]
        exact bind_congr fun _ => matchStringLoop_snd
      · rfl
    split
    · rfl
    · rw [bind_snd, next_snd, moved_bind]
      exact bind_congr fun _ => matchStringLoop_snd

@[simp] theorem trailingWs_snd : (trailingWs l).2 = moved (Json.trailingWs l) := by
  rw [trailingWs, bind_snd, peek_snd, ok_bind, Json.trailingWs]
  split
  · rw [bind_snd, skip_snd, moved_bind]
    rfl
  · rfl

/-- No run is worth going on with once a value is taken from an unwritten buffer, and a run that
takes none goes on. -/
def noJunk (build : Bool) (_ : Lexer) : Option (List Char) := if build then none else some ['?']

variable {junk : Bool → Lexer → Option (List Char)}

/-- When the text is validated only, some junk is found in an unwritten buffer and nothing comes of
it. -/
theorem trimMatch_snd_false : ∃ m, (trimMatch noJunk false l).2 = .ok (l, m) := by
  rw [trimMatch, bind_snd, get_apply, ok_bind, bind_snd, getMatch_snd, ok_bind]
  cases l.getMatch with
  | none => exact ⟨[], rfl⟩
  | some m => exact ⟨m.dropLast, rfl⟩

/-- When a tree is built, a match that was not written is an error before the buffer is looked at.
-/
theorem trimMatch_snd_true : (trimMatch noJunk true l).2 =
    (Json.trimMatch l).map fun m => (l, m) := by
  rw [trimMatch, bind_snd, get_apply, ok_bind, bind_snd, getMatch_snd, ok_bind, Json.trimMatch]
  cases l.getMatch <;> rfl

theorem store_snd {jo : Json} {type : JsonType} :
    (store noJunk jo type l).2 = Json.store l jo type := by
  rw [store, bind_snd, trimMatch_snd_true, map_bind, Json.store]
  refine bind_congr fun m => ?_
  rw [bind_snd, lift_snd, map_bind]
  rfl

/-- The match is stored if there is an object, and trimmed in any case. -/
theorem matchNumber_snd {jo : Option Json} : (matchNumber noJunk jo l).2 =
    Json.matchNumber l jo := by
  unfold matchNumber Json.matchNumber
  rw [bind_snd, matchInt_snd, map_bind]
  refine bind_congr fun l₁ => ?_
  rw [bind_snd, matchFracOpt_snd, map_bind]
  refine bind_congr fun l₂ => ?_
  rw [bind_snd, matchExpOpt_snd, map_bind]
  refine bind_congr fun l₃ => ?_
  rw [bind_snd, recordRmatch_snd, ok_bind]
  cases jo with
  | none =>
    obtain ⟨m, hm⟩ : ∃ m, (trimMatch noJunk false l₃.recordRmatch).2 = .ok (l₃.recordRmatch, m) :=
      trimMatch_snd_false
    rw [bind_snd, hm]
    rfl
  | some jo => exact store_snd

theorem matchString_snd {jo : Option Json} : (matchString noJunk jo l).2 =
    Json.matchString l jo := by
  unfold matchString Json.matchString
  rw [bind_snd, peek_snd, ok_bind]
  split
  · rfl
  rw [bind_snd, next_snd]
  refine bind_congr fun p => ?_
  obtain ⟨l₁, c⟩ := p
  rw [bind_snd, recordLmatch_snd, ok_bind, bind_snd, get_apply, ok_bind, bind_snd,
    matchStringLoop_snd, map_bind]
  refine bind_congr fun l₂ => ?_
  rw [bind_snd, recordRmatch_snd, ok_bind, bind_snd, next_snd]
  refine bind_congr fun p => ?_
  obtain ⟨l₃, c⟩ := p
  cases jo with
  | none => rfl
  | some jo => exact store_snd

theorem setName_snd {pair : Option Json} :
    (setName noJunk pair l).2 = (Json.setName l pair).map fun pair => (l, pair) := by
  unfold setName Json.setName
  cases pair with
  | none =>
    obtain ⟨m, hm⟩ : ∃ m, (trimMatch noJunk false l).2 = .ok (l, m) := trimMatch_snd_false
    rw [bind_snd, Option.isSome_none, hm]
    rfl
  | some pair =>
    rw [bind_snd, Option.isSome_some, trimMatch_snd_true, map_bind]
    cases Json.trimMatch l with
    | error e => rfl
    | ok m =>
      simp only [ok_bind, bind_snd, lift_snd, map_bind]
      cases orErr (pair.setKey (some m)) <;> rfl

/-- What a matcher for values returns under watch is what the matcher returns. -/
def Erases (value : Option Json → Parser (Option Json)) (value' : Matcher) : Prop :=
  ∀ l jo, (value jo l).2 = value' l jo

variable {value entry : Option Json → Parser (Option Json)} {value' entry' : Matcher}

/-- What is matched in an array, under watch and without, if its values are alike. -/
theorem matchElem_snd (hvalue : Erases value value') :
    Erases (matchElem value) (Json.matchElem value') := by
  intro l jo
  rw [matchElem, bind_snd, lift_snd, map_bind, Json.matchElem]
  refine bind_congr fun elem => ?_
  rw [bind_snd, hvalue]
  refine bind_congr fun p => ?_
  obtain ⟨l₁, elem⟩ := p
  dsimp only [lift_snd]
  cases addTo jo elem <;> rfl

theorem matchPair_snd (hvalue : Erases value value') :
    Erases (matchPair noJunk value) (Json.matchPair value') := by
  intro l jo
  rw [matchPair, bind_snd, matchString_snd, Json.matchPair]
  refine bind_congr fun p => ?_
  obtain ⟨l₁, _⟩ := p
  rw [bind_snd, lift_snd, map_bind]
  refine bind_congr fun pair => ?_
  rw [bind_snd, setName_snd, map_bind]
  refine bind_congr fun pair => ?_
  rw [bind_snd, trailingWs_snd, map_bind]
  refine bind_congr fun l₂ => ?_
  rw [bind_snd, peek_snd, ok_bind]
  dsimp only
  split
  · rfl
  rw [bind_snd, skip_snd]
  refine bind_congr fun p => ?_
  obtain ⟨l₃, _⟩ := p
  rw [bind_snd, hvalue]
  refine bind_congr fun p => ?_
  obtain ⟨l₄, pair⟩ := p
  dsimp only [lift_snd]
  cases addTo jo pair <;> rfl

/-- What is matched in an object, under watch and without, if its values are alike. -/
theorem matchMember_snd (hvalue : Erases value value') :
    Erases (matchMember noJunk value) (Json.matchMember value') := by
  intro l jo
  rw [matchMember, bind_snd, matchStringFirst, bind_snd, peek_snd, ok_bind, Json.matchMember,
    Json.matchStringFirst]
  dsimp only
  split
  · exact matchPair_snd hvalue l.recordLmatch jo
  · rfl

/-- The loop over the entries, by induction on its fuel. -/
theorem containerLoop_snd {closing : Char} (hentry : Erases entry entry') (n : Nat) :
    Erases (containerLoop closing entry n) (Json.containerLoop closing entry' n) := by
  induction n with
  | zero => exact fun _ _ => rfl
  | succ n ih =>
    intro l jo
    rw [containerLoop, bind_snd, peek_snd, ok_bind, bind_snd, skip_snd, Json.containerLoop]
    refine bind_congr fun p => ?_
    obtain ⟨l₁, c⟩ := p
    dsimp only
    split
    · rfl
    rw [bind_snd, hentry]
    refine bind_congr fun p => ?_
    obtain ⟨l₂, jo⟩ := p
    rw [bind_snd, trailingWs_snd, map_bind]
    refine bind_congr fun l₃ => ?_
    rw [bind_snd, peek_snd, ok_bind]
    dsimp only
    split
    · exact ih l₃ jo
    · rfl

/-- A container, if its entries are alike. -/
theorem matchContainer_snd {type : JsonType} {opening closing : Char}
    (hentry : Erases entry entry') : Erases (matchContainer type opening closing entry)
      (Json.matchContainer type opening closing entry') := by
  intro l jo
  rw [matchContainer, bind_snd, peek_snd, ok_bind, Json.matchContainer]
  dsimp only
  split
  · rfl
  rw [bind_snd, get_apply, ok_bind, bind_snd, containerLoop_snd hentry]
  refine bind_congr fun p => ?_
  obtain ⟨l₁, jo⟩ := p
  rw [bind_snd, peek_snd, ok_bind]
  dsimp only
  split
  · rfl
  · rw [bind_snd, Watched.skip_snd]
    rfl

theorem matchObject_snd (hvalue : Erases value value') :
    Erases (matchObject noJunk value) (Json.matchObject value') :=
  matchContainer_snd (matchMember_snd hvalue)

theorem matchArray_snd (hvalue : Erases value value') :
    Erases (matchArray value) (Json.matchArray value') :=
  matchContainer_snd (matchElem_snd hvalue)

/-- The three words. -/
theorem matchSeq_snd {type : JsonType} {first : Char} {rem : List Char} :
    Erases (matchSeq type first rem) (Json.matchSeq type first rem) := by
  intro l jo
  rw [matchSeq, bind_snd, peek_snd, ok_bind, Json.matchSeq]
  dsimp only
  split
  · rfl
  rw [bind_snd, matchSeqLoop_snd, map_bind]
  refine bind_congr fun l₁ => ?_
  rw [bind_snd, skip_snd]
  rfl

/-- **Under watch, values are matched as they are without**, by induction on the depth. -/
theorem matchValue_snd (n : Nat) : Erases (matchValue noJunk n) (Json.matchValue n) := by
  induction n with
  | zero => exact fun _ _ => rfl
  | succ n ih =>
    intro l jo
    rw [matchValue, bind_snd, matchStringFirst, bind_snd, peek_snd, ok_bind, Json.matchValue,
      Json.matchStringFirst, Json.matchNumberFirst]
    dsimp only
    by_cases hstr : l.peek = '"'
    · rw [if_pos hstr, if_pos hstr]
      exact matchString_snd
    rw [if_neg hstr, if_neg hstr, pure_apply, ok_bind, if_neg Bool.false_ne_true, bind_snd,
      matchNumberFirst, bind_snd, peek_snd, ok_bind]
    dsimp only
    by_cases hnum : (decide (l.peek = '-') || l.peek.isDigit) = true
    · rw [if_pos hnum, if_pos hnum]
      exact matchNumber_snd
    rw [if_neg hnum, if_neg hnum, pure_apply, ok_bind, if_neg Bool.false_ne_true, matchOther,
      bind_snd, peek_snd, ok_bind]
    dsimp only
    repeat' split
    · exact matchObject_snd ih l jo
    · exact matchArray_snd ih l jo
    · exact matchSeq_snd l jo
    · exact matchSeq_snd l jo
    · exact matchSeq_snd l jo
    · rfl

@[simp] theorem warnRest_snd : (warnRest l).2 = .ok (l, ()) := by
  rw [warnRest, bind_snd, eot_snd, ok_bind]
  dsimp only
  split <;> rfl

/-- **The outcome of a parse under watch is that of the parse.** -/
theorem doParse_snd (json : List Char) (jo : Option Json) :
    (doParse noJunk json jo).2 = Json.doParse json jo := by
  have hrest : ∀ r : Res (Lexer × Option Json),
      ((r >>= fun p => ((do warnRest; pure p.2 : Parser (Option Json)) p.1).2).map Prod.snd) =
        r >>= fun p => pure p.2 := by
    rintro (e | ⟨l, jo⟩)
    · rfl
    · rw [ok_bind, bind_snd, warnRest_snd]
      rfl
  show ((parseText noJunk jo (Lexer.new json)).2.map Prod.snd) = _
  rw [parseText, bind_snd, eatWs_snd, ok_bind, Json.doParse]
  obtain ⟨ok, l⟩ := (Lexer.new json).eatWs
  cases ok with
  | false => rfl
  | true =>
    dsimp only
    rw [if_pos rfl, bind_snd, get_apply, ok_bind, bind_snd, peek_snd, ok_bind]
    dsimp only
    split
    · rw [bind_snd, matchObject_snd (matchValue_snd l.slen), hrest]
    split
    · rw [bind_snd, matchArray_snd (matchValue_snd l.slen), hrest]
    · rfl

end

end Json.Watch

end Libu
