/-
# The parser of URIs under watch (`toolbox/uri.c`)

The parser once more, character by character over the watched lexer, with a log of what it does to
the cursor and to the buffers of the components.  `Libu.Uri.Basic` says what becomes of a string;
what is asked here is where the cursor has been, which text was matched for which component, and
which bytes of a buffer were written.

The routines of `Libu.Uri.Basic` move the cursor over a whole run of characters in one step, which
is enough for their result.  Those below follow the source: each character is looked at and passed
on its own, a loop is a recursion with a fuel, and the test of a loop is what the source tests.  Of
the two descriptions the second is the closer one, and §3 shows that the first is no simplification:
they return the same, on every lexer.

One thing is left open here.  Where a match is empty, `u_uri_adjust_greedy_match` looks at the byte
in front of its buffer; `before` is that byte, for each component, and every theorem is about all of
them.

* §1: the events.  A match is logged with its text, where the routine is at the end of it, and so
  that of an IP-literal at the closing bracket; it is no action of the code, which has the two ends
  only.
* §2: the routines, in the order of `Libu.Uri.Basic`.
* §3: what they return is what the routines of `Libu.Uri.Basic` return (`parser_snd`).
-/
import Libu.Lexer.Watch
import Libu.Uri.Sound

namespace Libu.Uri

open Verif Logged Lexer

/-! ## 1. Events -/

/-- The components that are parsed; the authority is not one. -/
inductive Part
  | scheme
  | userinfo
  | user
  | pwd
  | host
  | port
  | path
  | query
  | fragment
  deriving DecidableEq

namespace Watch

/-- What is done to a lexer, and to the buffers of an object. -/
inductive Event
  /-- something is done to a lexer on a text of `slen` characters -/
  | lexer (slen : Nat) (e : Libu.Event)
  /-- a component is matched -/
  | found (part : Part) (text : List Char)
  /-- the bytes at `i` to `j` of a buffer are written -/
  | write (part : Part) (i j : Int)
  deriving DecidableEq

abbrev Parser (α : Type) := Logged Fail Lexer Event α

/-- A routine of the lexer. -/
def onLexer {α : Type} (w : Watched Fail α) : Parser α :=
  fun l => ((w l).1.map (.lexer l.slen), (w l).2)

/-! ## 2. The routines -/

def err {α : Type} : Parser α := do
  let l ← get
  fail (.err l)

def peek : Parser Char := onLexer Watched.peek

def eot : Parser Bool := onLexer Watched.eot

def recordLmatch : Parser Unit := onLexer Watched.recordLmatch

def recordRmatch : Parser Unit := onLexer Watched.recordRmatch

def lookahead : Parser (List Char) := onLexer Watched.lookahead

/-- `u_lexer_next` -/
def next : Parser (Option Char) := onLexer (Watched.next .fuel)

/-- `U_LEXER_NEXT` -/
def nextOrErr : Parser Char := do
  let c ← next
  match c with
  | some c => pure c
  | none => err

/-- The text between the left end of the match and the cursor. -/
def taken (l : Lexer) : List Char := (l.s.drop l.lmatch).take (l.pos - l.lmatch)

/-- A component is matched up to the cursor. -/
def found (part : Part) : Parser Unit := do
  let l ← get
  log [.found part (taken l)]

/-- The buffer after `u_lexer_get_match`, which copies the match and puts a NUL behind it. -/
def getMatchInto (part : Part) (match_ : Token) : Parser Token := do
  let l ← get
  let m ← onLexer Watched.getMatch
  match m with
  | none => pure match_
  | some m => do
    log [.write part 0 (l.rmatch - l.lmatch + 1 : Nat)]
    pure (some m)

/-- Put a NUL in the place of the last character. -/
def chop (part : Part) (m : Token) : Parser Token :=
  match m with
  | none => pure none
  | some m => do
    log [.write part ((m.length : Int) - 1) ((m.length : Int) - 1)]
    pure (if m = [] then none else some m.dropLast)

/-- `while (p(c)) U_LEXER_NEXT(l, &c)` -/
def whileClass (p : Char → Bool) : Nat → Char → Parser Unit
  | 0, _ => fail .fuel
  | n + 1, c =>
    if p c then do
      let c ← nextOrErr
      whileClass p n c
    else pure ()

/-- The same loop, with a fuel for the text that is left. -/
def nextWhile (p : Char → Bool) (c : Char) : Parser Unit := do
  let l ← get
  whileClass p (l.slen + 1) c

/-- The loop of `u_uri_expect_pct_encoded`, with the hexadecimal digits still to come. -/
def hexLoop : Nat → Parser Bool
  | 0 => pure true
  | n + 1 => do
    let c ← next
    match c with
    | none => pure false
    | some c => if !isXDigit c then pure false else hexLoop n

def expectPctEncoded : Parser Bool := do
  let c ← peek
  if c ≠ '%' then pure false else hexLoop 2

def matchUps : Parser Bool := do
  let c ← peek
  if c = '%' then expectPctEncoded else pure (c ∈ upsMarks || c.isAlphanum)

def matchPcharMinusAtSign : Parser Bool := do
  let c ← peek
  if c = ':' then pure true else matchUps

def matchPchar : Parser Bool := do
  let c ← peek
  if c = '@' then pure true else matchPcharMinusAtSign

def matchQueryChar : Parser Bool := do
  let c ← peek
  if c = '/' || c = '?' then pure true else matchPchar

def matchLiteralChar : Parser Bool := do
  let c ← peek
  let b ← matchPchar
  pure (b && c ≠ ']')

/-- `while (m(l)) U_LEXER_NEXT(l, &c)` -/
def whileMatch (m : Parser Bool) : Nat → Parser Unit
  | 0 => fail .fuel
  | n + 1 => do
    let b ← m
    if b then do
      let _ ← nextOrErr
      whileMatch m n
    else pure ()

/-- The same loop, with a fuel for the text that is left. -/
def matchWhile (m : Parser Bool) : Parser Unit := do
  let l ← get
  whileMatch m (l.slen + 1)

/-- `do U_LEXER_NEXT(l, &c); while (m(l))` -/
def doWhile (m : Parser Bool) : Parser Unit := do
  let _ ← nextOrErr
  matchWhile m

/-- `u_lexer_expect_char` -/
def expectChar (expected : Char) : Parser Unit := do
  let c ← peek
  if c = expected then do
    let _ ← nextOrErr
    pure ()
  else err

def parseIpliteral : Parser Unit := do
  let c ← peek
  if c ≠ '[' then err
  else do
    let _ ← nextOrErr
    recordLmatch
    matchWhile matchLiteralChar
    let c ← peek
    if c ≠ ']' then err
    else do
      found .host
      let _ ← nextOrErr
      pure ()

def parseIpv4address : Parser Unit := do
  let c ← nextOrErr
  nextWhile ipv4Char c

def parseRegname : Parser Unit := doWhile matchUps

/-- The three cases of `u_uri_parse_host`, each with the flags it sets. -/
def parseHostCases (flags : UriFlags) : Parser UriFlags := do
  let c ← peek
  if c.isDigit then do
    parseIpv4address
    found .host
    pure { flags with hostIsIpaddress := true }
  else do
    let b ← matchUps
    if b then do
      parseRegname
      found .host
      pure flags
    else do
      let c ← peek
      if c = '[' then do
        parseIpliteral
        pure ⟨true, true⟩
      else do
        found .host
        pure flags

def expectSegment : Parser Unit := doWhile matchPchar

/-- A routine whose result the caller does not look at. -/
def ignoring (w : Parser Unit) : Parser Unit := fun l =>
  match w l with
  | (es, .error (.err l)) => (es, .ok (l, ()))
  | r => r

/-- The loop of `u_uri_expect_path_abempty`. -/
def segmentLoop : Nat → Parser Unit
  | 0 => fail .fuel
  | n + 1 => do
    ignoring expectSegment
    let c ← peek
    if c = '/' then segmentLoop n else pure ()

def expectPathAbempty : Parser Unit := do
  let c ← peek
  if c ≠ '/' then pure ()
  else do
    let l ← get
    segmentLoop (l.slen + 1)

def expectSegmentNz : Parser Unit := do
  let b ← matchPchar
  if b then doWhile matchPchar else err

def skipSlash : Parser Unit := do
  let c ← peek
  if c = '/' then do
    let _ ← nextOrErr
    pure ()
  else pure ()

/-- Check for both absolute and rootless paths. -/
def pathFirst : Parser Bool := do
  let c ← peek
  if c = '/' then pure true else matchPchar

/-- The text of a query or a fragment behind its first character, which is `first`. -/
def parseQueryText (first : Char) : Parser Unit := do
  let c ← peek
  if c ≠ first then err
  else do
    let _ ← nextOrErr
    recordLmatch
    matchWhile matchQueryChar
    recordRmatch

/-- `do u_lexer_next(l, &c); while (!p(c) && !u_lexer_eot(l))` -/
def untilClass (p : Char → Bool) : Nat → Parser Unit
  | 0 => fail .fuel
  | n + 1 => do
    let c ← next
    let e ← eot
    if c.any p || e then pure () else untilClass p n

def nextUntil (p : Char → Bool) : Parser Unit := do
  let l ← get
  untilClass p (l.slen + 1)

/-- On a lexer of its own; the caller's is as it was. -/
def withLexer {α : Type} (s : List Char) (w : Parser α) : Parser α := fun l =>
  match w (Lexer.new s) with
  | (es, .ok (_, a)) => (es, .ok (l, a))
  | (es, .error e) => (es, .error e)

section

-- The character two bytes before the buffer of a component, in the memory of the object.
variable (before : Part → Char)

/-- `u_uri_adjust_greedy_match`.  Before the end of the text, `mlen` wraps for an empty string, and
the byte compared with the bracket is the one two bytes before the buffer. -/
def adjustGreedyMatch (part : Part) (match_ : Token) : Parser Token := do
  let m ← getMatchInto part match_
  let e ← eot
  match m with
  | none => pure none
  | some m =>
    if !e && m = [] then do
      let mlen : Int := if before part = ']' then -2 else -1
      log [.write part mlen mlen]
      pure none
    else do
      let m := trimBracket (if e then m else m.dropLast)
      log [.write part m.length m.length]
      pure (some m)

def parseScheme (u : Uri) : Parser Uri := do
  let c ← peek
  recordLmatch
  if !c.isAlpha then err
  else do
    let c ← nextOrErr
    nextWhile schemeChar c
    recordRmatch
    found .scheme
    -- the match includes the first character behind the scheme
    let m ← getMatchInto .scheme u.scheme
    let scheme ← chop .scheme m
    pure { u with scheme }

/-- Of the two halves of a userinfo, the second one is there when the first one is not at the
end. -/
def userPassword (u : Uri) : Parser Uri := do
  recordLmatch
  nextUntil (· = ':')
  recordRmatch
  found .user
  let user ← adjustGreedyMatch before .user u.user
  let u := { u with user }
  let e ← eot
  if e then pure u
  else do
    -- at the colon, `U_LEXER_NEXT` does not fail
    let _ ← next
    recordLmatch
    nextUntil fun _ => false
    recordRmatch
    found .pwd
    let pwd ← adjustGreedyMatch before .pwd u.pwd
    pure { u with pwd }

/-- `u_uri_crumble_user_password` -/
def crumbleUserPassword (u : Uri) : Parser Uri :=
  match u.userinfo with
  | none => pure { u with user := none, pwd := none }
  | some userinfo => if userinfo = [] then pure u else withLexer userinfo (userPassword before u)

def parseUserinfo (u : Uri) : Parser Uri := do
  recordLmatch
  doWhile matchPcharMinusAtSign
  let c ← peek
  if c ≠ '@' then err
  else do
    recordRmatch
    found .userinfo
    let userinfo ← adjustGreedyMatch before .userinfo u.userinfo
    let u := { u with userinfo }
    let u ← if u.dontParseUserinfo then pure u else crumbleUserPassword before u
    let _ ← nextOrErr
    pure u

def parseHost (u : Uri) : Parser Uri := do
  recordLmatch
  let flags ← parseHostCases u.flags
  recordRmatch
  let host ← adjustGreedyMatch before .host u.host
  pure { u with flags, host }

def parsePort (u : Uri) : Parser Uri := do
  let c ← peek
  if c ≠ ':' then err
  else do
    let c ← nextOrErr
    recordLmatch
    nextWhile portChar c
    recordRmatch
    found .port
    let port ← adjustGreedyMatch before .port u.port
    pure { u with port }

def parseAbempty (u : Uri) : Parser Uri := do
  recordLmatch
  expectPathAbempty
  recordRmatch
  found .path
  let path ← adjustGreedyMatch before .path u.path
  pure { u with path }

def parsePath (u : Uri) : Parser Uri := do
  recordLmatch
  skipSlash
  expectSegmentNz
  expectPathAbempty
  recordRmatch
  found .path
  let path ← adjustGreedyMatch before .path u.path
  pure { u with path }

def parseUserinfoOpt (u : Uri) : Parser Uri := do
  let x ← lookahead
  if '@' ∈ x then parseUserinfo before u else pure u

def parsePortOpt (u : Uri) : Parser Uri := do
  let c ← peek
  if c = ':' then parsePort before u else pure u

/-- `"//" authority path-abempty` -/
def parseAuthority (u : Uri) : Parser Uri := do
  expectChar '/'
  expectChar '/'
  let u ← parseUserinfoOpt before u
  let u ← parseHost before u
  let u ← parsePortOpt before u
  parseAbempty before u

def parseHierPart (u : Uri) : Parser Uri := do
  let x ← lookahead
  if x.take 2 = ['/', '/'] then parseAuthority before u
  else do
    let b ← pathFirst
    if b then parsePath before u
    else do
      log [.found .path [], .write .path 0 0]
      pure { u with path := some [] }

def parseQuery (u : Uri) : Parser Uri := do
  parseQueryText '?'
  found .query
  let query ← adjustGreedyMatch before .query u.query
  pure { u with query }

end

/-- As for the query, but the match is not adjusted. -/
def parseFragment (u : Uri) : Parser Uri := do
  parseQueryText '#'
  found .fragment
  let fragment ← getMatchInto .fragment u.fragment
  pure { u with fragment }

def parseQueryOpt (before : Part → Char) (u : Uri) : Parser Uri := do
  let c ← peek
  if c = '?' then parseQuery before u else pure u

def parseFragmentOpt (u : Uri) : Parser Uri := do
  let c ← peek
  if c = '#' then parseFragment u else pure u

/-- `u_uri_parser`; the default path is written first. -/
def parser (before : Part → Char) (dontParseUserinfo : Bool) : Parser Uri := do
  log [.write .path 0 1]
  let u ← parseScheme (new dontParseUserinfo)
  expectChar ':'
  let u ← parseHierPart before u
  let u ← parseQueryOpt before u
  parseFragmentOpt u

/-- `u_uri_crumble` -/
def crumble (before : Part → Char) (uri : List Char) (dontParseUserinfo : Bool) :
    List Event × Except Fail (Lexer × Uri) :=
  parser before dontParseUserinfo (Lexer.new uri)

/-! ## 3. What they return -/

section

variable {l : Lexer}

/-- A routine that returns the lexer alone. -/
abbrev moved (r : Res Lexer) : Res (Lexer × Unit) := r.map fun l => (l, ())

/-- The answer of a matcher, which does not fail. -/
abbrev answer (r : Bool × Lexer) : Res (Lexer × Bool) := .ok (r.2, r.1)

theorem map_bind {α β γ : Type} (r : Res α) (f : α → β) (g : β → Res γ) :
    r.map f >>= g = r >>= fun a => g (f a) := by
  cases r <;> rfl

theorem moved_bind {α : Type} (r : Res α) (f : α → Res Lexer) :
    moved (r >>= f) = r >>= fun a => moved (f a) := by
  cases r <;> rfl

@[simp] theorem err_snd {α : Type} : ((err : Parser α) l).2 = .error (.err l) := rfl

@[simp] theorem peek_snd : (peek l).2 = .ok (l, l.peek) := rfl

@[simp] theorem eot_snd : (eot l).2 = .ok (l, l.eot) := rfl

@[simp] theorem recordLmatch_snd : (recordLmatch l).2 = .ok (l.recordLmatch, ()) := rfl

@[simp] theorem recordRmatch_snd : (recordRmatch l).2 = .ok (l.recordRmatch, ()) := rfl

@[simp] theorem lookahead_snd : (lookahead l).2 = .ok (l, l.lookahead) := rfl

@[simp] theorem found_snd {part : Part} : (found part l).2 = .ok (l, ()) := rfl

@[simp] theorem next_snd : (next l).2 = .ok (l.next.2, l.next.1) := Watched.next_snd

@[simp] theorem nextOrErr_snd : (nextOrErr l).2 = Uri.nextOrErr l := by
  rw [nextOrErr, bind_snd, next_snd, ok_bind, Uri.nextOrErr]
  obtain ⟨c, l'⟩ := l.next
  cases c <;> rfl

/-- The character that `U_LEXER_NEXT` hands out is the one the cursor is on afterwards. -/
theorem nextOrErr_peek {l' : Lexer} {c : Char} (h : Uri.nextOrErr l = .ok (l', c)) :
    c = l'.peek := by
  cases hx : l.lookahead with
  | nil =>
    rw [Uri.nextOrErr, next_nil hx] at h
    cases h
  | cons a x =>
    rw [nextOrErr_cons hx] at h
    obtain ⟨rfl, rfl⟩ := Prod.mk.inj (Except.ok.inj h)
    rfl

/-- A step that takes the next character, and then one that goes by it. -/
theorem next_bind_snd {α : Type} {f : Char → Parser α} {g : Lexer × Char → Res (Lexer × α)}
    (h : ∀ l : Lexer, (f l.peek l).2 = g (l, l.peek)) : ((nextOrErr >>= f) l).2 =
      Uri.nextOrErr l >>= g := by
  rw [bind_snd, nextOrErr_snd]
  cases hnext : Uri.nextOrErr l with
  | error e => rfl
  | ok p =>
    obtain ⟨l', c⟩ := p
    obtain rfl := nextOrErr_peek hnext
    exact h l'

/-- The fuel of every loop is enough: it is more than the text that is left. -/
theorem lookahead_length_lt (l : Lexer) : l.lookahead.length < l.slen + 1 :=
  Nat.lt_succ_of_le (lookahead_length_le_slen l)

/-- A loop over a class of characters, one at a time, ends where the class ends.  The class has no
NUL, and so the end of the text ends the loop as well; the induction is on the fuel. -/
theorem whileClass_snd {p : Char → Bool} (hp : p '\x00' = false) : ∀ {n : Nat} {l : Lexer},
    l.lookahead.length < n → (whileClass p n l.peek l).2 = .ok (l.nextWhile p, ())
  | 0, l, hn => absurd hn (Nat.not_lt_zero _)
  | n + 1, l, hn => by
    rw [whileClass]
    cases hx : l.lookahead with
    | nil => simp [peek_of_nil hx, hp, nextWhile_eq, hx]
    | cons c x =>
      rw [peek_of_cons hx]
      by_cases hc : p c = true
      · have hadv : (l.adv 1).lookahead = x := lookahead_cons_adv hx
        have hlen : (l.adv 1).lookahead.length < n := by
          rw [hadv]
          rw [hx, List.length_cons] at hn
          omega
        have hend : (l.adv 1).nextWhile p = l.nextWhile p := by
          rw [nextWhile_eq, nextWhile_eq, hadv, hx, List.takeWhile_cons_of_pos hc,
            List.length_cons, Nat.add_comm, ← adv_adv]
        rw [if_pos hc, bind_snd, nextOrErr_snd, nextOrErr_cons hx, ok_bind,
          whileClass_snd hp hlen, hend]
      · simp [hc, nextWhile_eq, hx]

theorem nextWhile_snd {p : Char → Bool} (hp : p '\x00' = false) :
    (nextWhile p l.peek l).2 = .ok (l.nextWhile p, ()) := by
  rw [nextWhile, get_bind]
  exact whileClass_snd hp (lookahead_length_lt l)

/-- The two hexadecimal digits behind a `%`, by induction on how many are still to come. -/
theorem hexLoop_snd : ∀ {n : Nat} {l : Lexer}, (hexLoop n l).2 = answer (Uri.hexLoop n l)
  | 0, _ => rfl
  | n + 1, l => by
    rw [hexLoop, bind_snd, next_snd, ok_bind, Uri.hexLoop]
    obtain ⟨c, l'⟩ := l.next
    cases c with
    | none => rfl
    | some c =>
      dsimp only
      split
      · rfl
      · exact hexLoop_snd

theorem expectPctEncoded_snd : (expectPctEncoded l).2 = answer (Uri.expectPctEncoded l) := by
  rw [expectPctEncoded, bind_snd, peek_snd, ok_bind, Uri.expectPctEncoded]
  dsimp only
  split
  · rfl
  · exact hexLoop_snd

theorem matchUps_snd : (matchUps l).2 = answer (Uri.matchUps l) := by
  rw [matchUps, bind_snd, peek_snd, ok_bind, Uri.matchUps]
  dsimp only
  split
  · exact expectPctEncoded_snd
  · rfl

theorem matchPcharMinusAtSign_snd :
    (matchPcharMinusAtSign l).2 = answer (Uri.matchPcharMinusAtSign l) := by
  rw [matchPcharMinusAtSign, bind_snd, peek_snd, ok_bind, Uri.matchPcharMinusAtSign]
  dsimp only
  split
  · rfl
  · exact matchUps_snd

theorem matchPchar_snd : (matchPchar l).2 = answer (Uri.matchPchar l) := by
  rw [matchPchar, bind_snd, peek_snd, ok_bind, Uri.matchPchar]
  dsimp only
  split
  · rfl
  · exact matchPcharMinusAtSign_snd

theorem matchQueryChar_snd : (matchQueryChar l).2 = answer (Uri.matchQueryChar l) := by
  rw [matchQueryChar, bind_snd, peek_snd, ok_bind, Uri.matchQueryChar]
  dsimp only
  split
  · rfl
  · exact matchPchar_snd

theorem matchLiteralChar_snd : (matchLiteralChar l).2 = answer (Uri.matchLiteralChar l) := by
  rw [matchLiteralChar, bind_snd, peek_snd, ok_bind, bind_snd, matchPchar_snd, ok_bind,
    Uri.matchLiteralChar]
  rfl

/-- A loop over a matcher moves the cursor as the unwatched loop does, where the matcher itself
answers the same under watch. -/
theorem whileMatch_snd {w : Parser Bool} {m : Lexer → Bool × Lexer}
    (h : ∀ l, (w l).2 = answer (m l)) :
    ∀ {n : Nat} {l : Lexer}, (whileMatch w n l).2 = moved (Uri.whileMatch m n l)
  | 0, _ => rfl
  | n + 1, l => by
    rw [whileMatch, bind_snd, h, ok_bind, Uri.whileMatch]
    obtain ⟨b, l'⟩ := m l
    cases b with
    | false => rfl
    | true =>
      dsimp only
      rw [if_pos rfl, bind_snd, nextOrErr_snd, moved_bind]
      exact bind_congr fun _ => whileMatch_snd h

theorem matchWhile_snd {w : Parser Bool} {m : Lexer → Bool × Lexer}
    (h : ∀ l, (w l).2 = answer (m l)) :
    (matchWhile w l).2 = moved (Uri.whileMatch m (l.slen + 1) l) := by
  rw [matchWhile, get_bind]
  exact whileMatch_snd h

theorem doWhile_snd {w : Parser Bool} {m : Lexer → Bool × Lexer} (h : ∀ l, (w l).2 = answer (m l)) :
    (doWhile w l).2 = moved (Uri.doWhile m l) := by
  rw [doWhile, bind_snd, nextOrErr_snd, Uri.doWhile, moved_bind]
  exact bind_congr fun _ => matchWhile_snd h

theorem expectChar_snd {c : Char} : (expectChar c l).2 = moved (Uri.expectChar l c) := by
  rw [expectChar, bind_snd, peek_snd, ok_bind, Uri.expectChar]
  dsimp only
  split
  · rw [bind_snd, nextOrErr_snd, moved_bind]
    rfl
  · rfl

theorem parseIpliteral_snd : (parseIpliteral l).2 = moved (Uri.parseIpliteral l) := by
  rw [parseIpliteral, bind_snd, peek_snd, ok_bind, Uri.parseIpliteral]
  dsimp only
  split
  · rfl
  · rw [bind_snd, nextOrErr_snd, moved_bind]
    refine bind_congr fun p => ?_
    rw [bind_snd, recordLmatch_snd, ok_bind, bind_snd, matchWhile_snd fun _ => matchLiteralChar_snd,
      map_bind, moved_bind]
    refine bind_congr fun l₁ => ?_
    rw [bind_snd, peek_snd, ok_bind]
    dsimp only
    split
    · rfl
    · rw [bind_snd, found_snd, ok_bind, bind_snd, nextOrErr_snd, moved_bind]
      rfl

theorem parseIpv4address_snd : (parseIpv4address l).2 = moved (Uri.parseIpv4address l) := by
  rw [parseIpv4address, Uri.parseIpv4address, moved_bind]
  exact next_bind_snd fun _ => nextWhile_snd rfl

theorem parseHostCases_snd {flags : UriFlags} :
    (parseHostCases flags l).2 = Uri.parseHostCases l flags := by
  rw [parseHostCases, bind_snd, peek_snd, ok_bind, Uri.parseHostCases]
  dsimp only
  split
  · rw [bind_snd, parseIpv4address_snd, map_bind]
    rfl
  · rw [bind_snd, matchUps_snd, ok_bind]
    obtain ⟨b, l'⟩ := Uri.matchUps l
    cases b with
    | true =>
      dsimp only
      rw [if_pos rfl, bind_snd, parseRegname, doWhile_snd fun _ => matchUps_snd, map_bind]
      rfl
    | false =>
      dsimp only
      rw [if_neg (by decide), bind_snd, peek_snd, ok_bind]
      dsimp only
      split
      · rw [bind_snd, parseIpliteral_snd, map_bind]
        rfl
      · rfl

/-- A routine that comes through is not changed by its result being ignored. -/
theorem ignoring_ok {w : Parser Unit} {r : Lexer × Unit} (h : (w l).2 = .ok r) :
    ignoring w l = ((w l).1, .ok r) := by
  have hw : w l = ((w l).1, .ok r) := Prod.ext rfl h
  rw [ignoring]
  split
  · next heq =>
    rw [heq] at h
    cases h
  · exact hw

/-- A routine that fails leaves the cursor where it failed, and the caller goes on from there. -/
theorem ignoring_err {w : Parser Unit} {l' : Lexer} (h : (w l).2 = .error (.err l')) :
    ignoring w l = ((w l).1, .ok (l', ())) := by
  have hw : w l = ((w l).1, .error (.err l')) := Prod.ext rfl h
  rw [ignoring, hw]

theorem ignoring_fuel {w : Parser Unit} (h : (w l).2 = .error .fuel) :
    ignoring w l = ((w l).1, .error .fuel) := by
  have hw : w l = ((w l).1, .error .fuel) := Prod.ext rfl h
  rw [ignoring, hw]

/-- The segments of a path.  Its loop does not look at the result of `u_uri_expect_segment`, and so
a segment that fails at the end of the text ends the loop only through the test of its own. -/
theorem segmentLoop_snd : ∀ {n : Nat} {l : Lexer}, (segmentLoop n l).2 = moved (Uri.segmentLoop n l)
  | 0, _ => rfl
  | n + 1, l => by
    have hsegment : (expectSegment l).2 = moved (Uri.expectSegment l) :=
      doWhile_snd fun _ => matchPchar_snd
    have hgo : ∀ l' : Lexer, ((peek >>= fun c => if c = '/' then segmentLoop n else pure ()) l').2 =
        moved (if l'.peek = '/' then Uri.segmentLoop n l' else .ok l') := by
      intro l'
      rw [bind_snd, peek_snd, ok_bind]
      dsimp only
      split
      · exact segmentLoop_snd
      · rfl
    rw [segmentLoop, bind_snd, Uri.segmentLoop]
    cases hs : Uri.expectSegment l with
    | ok l' =>
      rw [hs] at hsegment
      rw [ignoring_ok hsegment]
      exact hgo l'
    | error e =>
      rw [hs] at hsegment
      cases e with
      | err l' =>
        rw [ignoring_err hsegment]
        exact hgo l'
      | fuel =>
        rw [ignoring_fuel hsegment]
        rfl

theorem expectPathAbempty_snd : (expectPathAbempty l).2 = moved (Uri.expectPathAbempty l) := by
  rw [expectPathAbempty, bind_snd, peek_snd, ok_bind, Uri.expectPathAbempty]
  dsimp only
  split
  · rfl
  · rw [get_bind]
    exact segmentLoop_snd

theorem expectSegmentNz_snd : (expectSegmentNz l).2 = moved (Uri.expectSegmentNz l) := by
  rw [expectSegmentNz, bind_snd, matchPchar_snd, ok_bind, Uri.expectSegmentNz]
  obtain ⟨b, l'⟩ := Uri.matchPchar l
  cases b with
  | true => exact doWhile_snd fun _ => matchPchar_snd
  | false => rfl

theorem skipSlash_snd : (skipSlash l).2 = moved (Uri.skipSlash l) := by
  rw [skipSlash, bind_snd, peek_snd, ok_bind, Uri.skipSlash]
  dsimp only
  split
  · rw [bind_snd, nextOrErr_snd, moved_bind]
    rfl
  · rfl

theorem pathFirst_snd : (pathFirst l).2 = answer (Uri.pathFirst l) := by
  rw [pathFirst, bind_snd, peek_snd, ok_bind, Uri.pathFirst]
  dsimp only
  split
  · rfl
  · exact matchPchar_snd

theorem parseQueryText_snd {c : Char} : (parseQueryText c l).2 =
    moved (Uri.parseQueryText c l) := by
  rw [parseQueryText, bind_snd, peek_snd, ok_bind, Uri.parseQueryText]
  dsimp only
  split
  · rfl
  · rw [bind_snd, nextOrErr_snd, moved_bind]
    refine bind_congr fun p => ?_
    rw [bind_snd, recordLmatch_snd, ok_bind, bind_snd, matchWhile_snd fun _ => matchQueryChar_snd,
      map_bind, moved_bind]
    rfl

/-- The copy of a match into its buffer does not move the cursor. -/
theorem getMatchInto_snd {part : Part} {old : Token} :
    (getMatchInto part old l).2 = .ok (l, Uri.getMatchInto l old) := by
  have hmatch : (onLexer Watched.getMatch l).2 = .ok (l, l.getMatch) := Watched.getMatch_snd
  rw [getMatchInto, get_bind, bind_snd, hmatch, ok_bind, Uri.getMatchInto]
  cases l.getMatch <;> rfl

/-- Nor does the NUL in the place of its last character. -/
theorem chop_snd {part : Part} {m : Token} : (chop part m l).2 = .ok (l, Uri.chop m) := by
  cases m <;> rfl

variable {before : Part → Char}

/-- The match of a component, its closing bracket trimmed, whatever byte is in front of the buffer.
-/
theorem adjustGreedyMatch_snd {part : Part} {old : Token} :
    (adjustGreedyMatch before part old l).2 = .ok (l, Uri.adjustGreedyMatch l old) := by
  rw [adjustGreedyMatch, bind_snd, getMatchInto_snd, ok_bind, bind_snd, eot_snd, ok_bind,
    Uri.adjustGreedyMatch]
  dsimp only
  cases Uri.getMatchInto l old with
  | none => cases l.eot <;> rfl
  | some m =>
    cases l.eot with
    | true => rfl
    | false =>
      by_cases hm : m = []
      · subst hm
        rfl
      · dsimp only
        rw [if_neg (by simp [hm]), if_neg (by decide), Uri.chop, Option.bind_some, if_neg hm]
        rfl

theorem parseScheme_snd {u : Uri} : (parseScheme u l).2 = Uri.parseScheme l u := by
  rw [parseScheme, bind_snd, peek_snd, ok_bind, bind_snd, recordLmatch_snd,
    ok_bind, Uri.parseScheme]
  have hpeek : l.recordLmatch.peek = l.peek := rfl
  dsimp only
  rw [hpeek]
  split
  · rfl
  · refine next_bind_snd fun l₁ => ?_
    rw [bind_snd, nextWhile_snd rfl, ok_bind, bind_snd, recordRmatch_snd, ok_bind, bind_snd,
      found_snd, ok_bind, bind_snd, getMatchInto_snd, ok_bind, bind_snd, chop_snd, ok_bind]
    rfl

/-- The loops that stop at a character, or at the end of the text: the first character is passed
over unseen. -/
theorem untilClass_snd {p : Char → Bool} : ∀ {n : Nat} {l : Lexer}, l.lookahead.length < n →
    (untilClass p n l).2 = .ok (l.next.2.nextWhile fun c => !p c, ())
  | 0, _, hn => absurd hn (Nat.not_lt_zero _)
  | n + 1, l, hn => by
    rw [untilClass, bind_snd, next_snd, ok_bind, bind_snd, eot_snd, ok_bind]
    cases hx : l.lookahead with
    | nil =>
      rw [next_nil hx]
      dsimp only
      rw [eot_iff.mpr hx, if_pos (by simp), nextWhile_eq, hx]
      rfl
    | cons c x =>
      have hadv : (l.adv 1).lookahead = x := lookahead_cons_adv hx
      rw [next_cons hx]
      dsimp only
      cases hy : x with
      | nil =>
        rw [hy] at hadv
        rw [eot_iff.mpr hadv, if_pos (by simp), nextWhile_eq, hadv]
        rfl
      | cons d y =>
        rw [hy] at hadv
        rw [eot_of_cons hadv, peek_of_cons hadv]
        by_cases hd : p d = true
        · rw [if_pos (by simp [hd]), nextWhile_eq, hadv, List.takeWhile_cons_of_neg (by simp [hd])]
          rfl
        · have hlen : (l.adv 1).lookahead.length < n := by
            rw [hadv, ← hy]
            rw [hx, List.length_cons] at hn
            omega
          have hadv₂ : ((l.adv 1).adv 1).lookahead = y := lookahead_cons_adv hadv
          rw [if_neg (by simp [hd]), untilClass_snd hlen, next_cons hadv, nextWhile_eq,
            nextWhile_eq, hadv, List.takeWhile_cons_of_pos (by simp [hd]), hadv₂, List.length_cons,
            adv_adv, adv_adv, adv_adv, Nat.add_comm 1 (List.takeWhile (fun c => !p c) y).length]

theorem nextUntil_snd {p : Char → Bool} :
    (nextUntil p l).2 = .ok (l.next.2.nextWhile fun c => !p c, ()) := by
  rw [nextUntil, get_bind]
  exact untilClass_snd (lookahead_length_lt l)

/-- Work on a lexer of its own leaves the caller's lexer where it was. -/
theorem withLexer_ok {α : Type} {s : List Char} {w : Parser α} {l' : Lexer} {a : α}
    (h : (w (Lexer.new s)).2 = .ok (l', a)) :
    withLexer s w l = ((w (Lexer.new s)).1, .ok (l, a)) := by
  have hw : w (Lexer.new s) = ((w (Lexer.new s)).1, .ok (l', a)) := Prod.ext rfl h
  rw [withLexer, hw]

/-- A loop that stops at the end only. -/
theorem nextUntil_false_snd :
    (nextUntil (fun _ => false) l).2 = .ok (l.nextWhile fun _ => true, ()) := by
  have hany : l.next.2.nextWhile (fun _ => !false) = l.nextWhile fun _ => true := by
    cases hx : l.lookahead with
    | nil => rw [next_nil hx, Bool.not_false]
    | cons c x =>
      rw [next_cons hx, nextWhile_eq, nextWhile_eq, lookahead_cons_adv hx, hx, Bool.not_false,
        List.takeWhile_cons_of_pos rfl, List.length_cons, adv_adv, Nat.add_comm 1]
  rw [nextUntil_snd, hany]

/-- What the two halves of a userinfo leave in the object. -/
def halves (u : Uri) (l : Lexer) : Uri :=
  let l := (l.recordLmatch.next.2.nextWhile (· ≠ ':')).recordRmatch
  let u := { u with user := Uri.adjustGreedyMatch l u.user }
  if l.eot then u
  else
    let l := (l.next.2.recordLmatch.nextWhile fun _ => true).recordRmatch
    { u with pwd := Uri.adjustGreedyMatch l u.pwd }

variable (before) in
/-- Both halves of a userinfo: the user up to the `:`, the password behind it, if there is one. -/
theorem userPassword_snd {u : Uri} : ∃ l', (userPassword before u l).2 = .ok (l', halves u l) := by
  have hcolon : (fun c : Char => !decide (c = ':')) = fun c => decide (c ≠ ':') :=
    funext fun c => (decide_not (p := c = ':')).symm
  rw [userPassword, bind_snd, recordLmatch_snd, ok_bind, bind_snd, nextUntil_snd, ok_bind, bind_snd,
    recordRmatch_snd, ok_bind, bind_snd, found_snd, ok_bind, bind_snd, adjustGreedyMatch_snd,
    ok_bind, bind_snd, eot_snd, ok_bind, hcolon, halves]
  dsimp only
  split
  · exact ⟨_, rfl⟩
  · rw [bind_snd, next_snd, ok_bind, bind_snd, recordLmatch_snd, ok_bind, bind_snd,
      nextUntil_false_snd, ok_bind, bind_snd, recordRmatch_snd, ok_bind, bind_snd, found_snd,
      ok_bind, bind_snd, adjustGreedyMatch_snd, ok_bind]
    exact ⟨_, rfl⟩

/-- Taking the userinfo apart does not fail. -/
theorem crumbleUserPassword_snd {u : Uri} :
    (crumbleUserPassword before u l).2 = .ok (l, Uri.crumbleUserPassword u) := by
  obtain ⟨opt, flags, scheme, userinfo, user, pwd, authority, host, port, path,
    query, fragment⟩ := u
  rw [crumbleUserPassword, Uri.crumbleUserPassword]
  cases userinfo with
  | none => rfl
  | some w =>
    dsimp only
    split
    · rfl
    · obtain ⟨l', h⟩ := userPassword_snd before (l := Lexer.new w)
        (u := ⟨opt, flags, scheme, some w, user, pwd, authority, host, port, path, query, fragment⟩)
      rw [withLexer_ok h]
      rfl

/-- The userinfo is matched, stored, and taken apart, unless the caller asked for it not to be. -/
theorem parseUserinfo_snd {u : Uri} : (parseUserinfo before u l).2 = Uri.parseUserinfo l u := by
  rw [parseUserinfo, bind_snd, recordLmatch_snd, ok_bind, bind_snd,
    doWhile_snd fun _ => matchPcharMinusAtSign_snd, map_bind, Uri.parseUserinfo]
  refine bind_congr fun l₁ => ?_
  rw [bind_snd, peek_snd, ok_bind]
  dsimp only
  split
  · rfl
  · rw [bind_snd, recordRmatch_snd, ok_bind, bind_snd, found_snd, ok_bind, bind_snd,
      adjustGreedyMatch_snd, ok_bind]
    dsimp only
    split
    · rw [bind_snd, pure_apply, ok_bind, bind_snd, nextOrErr_snd]
      rfl
    · rw [bind_snd, crumbleUserPassword_snd, ok_bind, bind_snd, nextOrErr_snd]
      rfl

/-- The host, by its first character: a literal in brackets, an address, or a name. -/
theorem parseHost_snd {u : Uri} : (parseHost before u l).2 = Uri.parseHost l u := by
  rw [parseHost, bind_snd, recordLmatch_snd, ok_bind, bind_snd, parseHostCases_snd, Uri.parseHost]
  refine bind_congr fun p => ?_
  rw [bind_snd, recordRmatch_snd, ok_bind, bind_snd, adjustGreedyMatch_snd, ok_bind]
  rfl

theorem parsePort_snd {u : Uri} : (parsePort before u l).2 = Uri.parsePort l u := by
  rw [parsePort, bind_snd, peek_snd, ok_bind, Uri.parsePort]
  dsimp only
  split
  · rfl
  · refine next_bind_snd fun l₁ => ?_
    have hpeek : l₁.peek = l₁.recordLmatch.peek := rfl
    rw [bind_snd, recordLmatch_snd, ok_bind, hpeek, bind_snd, nextWhile_snd rfl, ok_bind, bind_snd,
      recordRmatch_snd, ok_bind, bind_snd, found_snd, ok_bind, bind_snd,
      adjustGreedyMatch_snd, ok_bind]
    rfl

theorem parseAbempty_snd {u : Uri} : (parseAbempty before u l).2 = Uri.parseAbempty l u := by
  rw [parseAbempty, bind_snd, recordLmatch_snd, ok_bind, bind_snd, expectPathAbempty_snd, map_bind,
    Uri.parseAbempty]
  refine bind_congr fun l₁ => ?_
  rw [bind_snd, recordRmatch_snd, ok_bind, bind_snd, found_snd, ok_bind, bind_snd,
    adjustGreedyMatch_snd, ok_bind]
  rfl

theorem parsePath_snd {u : Uri} : (parsePath before u l).2 = Uri.parsePath l u := by
  rw [parsePath, bind_snd, recordLmatch_snd, ok_bind, bind_snd, skipSlash_snd,
    map_bind, Uri.parsePath]
  refine bind_congr fun l₁ => ?_
  rw [bind_snd, expectSegmentNz_snd, map_bind]
  refine bind_congr fun l₂ => ?_
  rw [bind_snd, expectPathAbempty_snd, map_bind]
  refine bind_congr fun l₃ => ?_
  rw [bind_snd, recordRmatch_snd, ok_bind, bind_snd, found_snd, ok_bind, bind_snd,
    adjustGreedyMatch_snd, ok_bind]
  rfl

theorem parseUserinfoOpt_snd {u : Uri} : (parseUserinfoOpt before u l).2 =
    Uri.parseUserinfoOpt l u := by
  rw [parseUserinfoOpt, bind_snd, lookahead_snd, ok_bind, Uri.parseUserinfoOpt]
  dsimp only
  split
  · exact parseUserinfo_snd
  · rfl

theorem parsePortOpt_snd {u : Uri} : (parsePortOpt before u l).2 = Uri.parsePortOpt l u := by
  rw [parsePortOpt, bind_snd, peek_snd, ok_bind, Uri.parsePortOpt]
  dsimp only
  split
  · exact parsePort_snd
  · rfl

theorem parseAuthority_snd {u : Uri} : (parseAuthority before u l).2 = Uri.parseAuthority l u := by
  rw [parseAuthority, bind_snd, expectChar_snd, map_bind, Uri.parseAuthority]
  refine bind_congr fun l₁ => ?_
  rw [bind_snd, expectChar_snd, map_bind]
  refine bind_congr fun l₂ => ?_
  rw [bind_snd, parseUserinfoOpt_snd]
  refine bind_congr fun p => ?_
  rw [bind_snd, parseHost_snd]
  refine bind_congr fun p => ?_
  rw [bind_snd, parsePortOpt_snd]
  exact bind_congr fun p => parseAbempty_snd

/-- Behind the scheme, the first two characters decide: `//` opens an authority, and everything else
is a path, or nothing. -/
theorem parseHierPart_snd {u : Uri} : (parseHierPart before u l).2 = Uri.parseHierPart l u := by
  rw [parseHierPart, bind_snd, lookahead_snd, ok_bind, Uri.parseHierPart]
  dsimp only
  split
  · exact parseAuthority_snd
  · rw [bind_snd, pathFirst_snd, ok_bind]
    obtain ⟨b, l'⟩ := Uri.pathFirst l
    cases b with
    | true => exact parsePath_snd
    | false => rfl

theorem parseQueryOpt_snd {u : Uri} : (parseQueryOpt before u l).2 = Uri.parseQueryOpt l u := by
  rw [parseQueryOpt, bind_snd, peek_snd, ok_bind, Uri.parseQueryOpt]
  dsimp only
  split
  · rw [parseQuery, bind_snd, parseQueryText_snd, map_bind, Uri.parseQuery]
    refine bind_congr fun l₁ => ?_
    rw [bind_snd, found_snd, ok_bind, bind_snd, adjustGreedyMatch_snd, ok_bind]
    rfl
  · rfl

theorem parseFragmentOpt_snd {u : Uri} : (parseFragmentOpt u l).2 = Uri.parseFragmentOpt l u := by
  rw [parseFragmentOpt, bind_snd, peek_snd, ok_bind, Uri.parseFragmentOpt]
  dsimp only
  split
  · rw [parseFragment, bind_snd, parseQueryText_snd, map_bind, Uri.parseFragment]
    refine bind_congr fun l₁ => ?_
    rw [bind_snd, found_snd, ok_bind, bind_snd, getMatchInto_snd, ok_bind]
    rfl
  · rfl

/-- **The parser returns what it returns unwatched.** -/
theorem parser_snd {opt : Bool} : (parser before opt l).2 = Uri.parser l opt := by
  rw [parser, bind_snd, log_apply, ok_bind, bind_snd, parseScheme_snd, Uri.parser]
  refine bind_congr fun p => ?_
  rw [bind_snd, expectChar_snd, map_bind]
  refine bind_congr fun l₁ => ?_
  rw [bind_snd, parseHierPart_snd]
  refine bind_congr fun p => ?_
  rw [bind_snd, parseQueryOpt_snd]
  exact bind_congr fun p => parseFragmentOpt_snd

end

end Watch

end Libu.Uri
