/-
# The lexical tokenizer (`toolbox/lexer.c`)

The lexer walks a NUL-terminated string by a cursor and keeps the two ends of the current match.
Its routines are translated by position, as the code has them; the lemmas of section 3 restate them
by what is left of the text at the cursor (`lookahead`), in which all the matchers are reasoned
about.  A character is one `char` of the text; the classes of `ctype.h` are those of the C locale,
so that no code above 127 belongs to any of them.

Each routine is one step of the source, and takes the lexer and gives a lexer back; the buffers that
it writes to are its callers'.  `u_lexer_get_match` copies a match into one if it is shorter than
the buffer, and leaves it alone if not, with a return code at which most callers do not look.
-/
import Libu.Verif.Outcome

namespace Libu

open Verif

/-! ## 1. Character classes and strings -/

/-- `isspace`: the blank and the control characters from tab to carriage return. -/
def isSpace (c : Char) : Bool := c = ' ' || ('\t' ≤ c && c ≤ '\r')

/-- `iscntrl`: the codes below the blank, and that of DEL, which RFC 8259 does not count among them.
-/
def isCntrl (c : Char) : Bool := c.toNat < 32 || c.toNat = 127

/-- `isxdigit`: a digit of a hexadecimal number, in either case. -/
def isXDigit (c : Char) : Bool := c.isDigit || ('a' ≤ c && c ≤ 'f') || ('A' ≤ c && c ≤ 'F')

/-- The string a C function sees: the characters before the first NUL. -/
def cString (s : List Char) : List Char := s.takeWhile (· ≠ '\x00')

/-- `U_TOKEN_SZ`: the size of a buffer for a match, with its NUL. -/
def tokenSz : Nat := 128

/-- `U_LEXER_ERR_SZ`: the size of the buffer for an error message, with its NUL. -/
def lexerErrSz : Nat := 512

/-- What `u_lexer_seterr` leaves in the error buffer: the printed text, cut at its end. -/
def errText (msg : String) : List Char := cString (msg.toList.take (lexerErrSz - 1))

/-! ## 2. The lexer -/

/-- `struct u_lexer_s`, without its error string: the text up to its NUL, the cursor, and the two
ends of the match. -/
structure Lexer where
  s : List Char
  pos : Nat
  lmatch : Nat
  rmatch : Nat
  deriving DecidableEq

namespace Lexer

/-- `u_lexer_new` on a text: the lexer has a copy of it, up to its first NUL. -/
def new (s : List Char) : Lexer := ⟨cString s, 0, 0, 0⟩

/-- `l->slen`, the length that was measured at the start. -/
def slen (l : Lexer) : Nat := l.s.length

/-- `u_lexer_lookahead`: what is left of the text at the cursor. -/
def lookahead (l : Lexer) : List Char := l.s.drop l.pos

/-- `u_lexer_eot`: the cursor is at the end of the text. -/
def eot (l : Lexer) : Bool := l.slen ≤ l.pos

/-- The character under the cursor; at the end of the text this is the terminating NUL. -/
def peek (l : Lexer) : Char := l.s.getD l.pos '\x00'

/-- `u_lexer_incr`: one character on, wherever that is. -/
def incr (l : Lexer) : Lexer := { l with pos := l.pos + 1 }

/-- The loop `while (p(c)) u_lexer_next(l, &c)`, for a class `p` without NUL: the cursor stops at
the terminating NUL at the latest, and no call fails. -/
def nextWhile (p : Char → Bool) (l : Lexer) : Lexer :=
  { l with pos := l.pos + (l.lookahead.takeWhile p).length }

/-- `u_lexer_eat_ws`: the cursor goes on over white space; `false` stands for the return code -1, at
the end of the text. -/
def eatWs (l : Lexer) : Bool × Lexer := if l.eot then (false, l) else (true, l.nextWhile isSpace)

/-- The character passed to the caller, or `none` for the return code -1. -/
def nextEx (l : Lexer) (eat_ws : Bool) : Option Char × Lexer :=
  if l.eot then (none, l)
  else
    let l := l.incr
    if eat_ws then
      match l.eatWs with
      | (false, l) => (none, l)
      | (true, l) => (some l.peek, l)
    else (some l.peek, l)

/-- `u_lexer_next`: the next character. -/
def next (l : Lexer) : Option Char × Lexer := l.nextEx false

/-- `u_lexer_skip`: the next character behind white space. -/
def skip (l : Lexer) : Option Char × Lexer := l.nextEx true

/-- `u_lexer_record_lmatch`: the match starts at the cursor. -/
def recordLmatch (l : Lexer) : Lexer := { l with lmatch := l.pos }

/-- `u_lexer_record_rmatch`: the match ends with the character at the cursor. -/
def recordRmatch (l : Lexer) : Lexer := { l with rmatch := l.pos }

/-- The string copied to the caller's buffer, or `none` when the buffer is left as it was. -/
def getMatch (l : Lexer) : Option (List Char) :=
  if l.rmatch < l.lmatch then none
  else
    let len := l.rmatch - l.lmatch + 1
    if tokenSz ≤ len then none else some ((l.s.drop l.lmatch).take len)

/-! ## 3. The cursor by what is left of the text -/

/-- The lexer `n` characters ahead, with the same match. -/
def adv (l : Lexer) (n : Nat) : Lexer := { l with pos := l.pos + n }

section

variable {l : Lexer} {c : Char} {t x : List Char}

@[simp] theorem adv_s (n : Nat) : (l.adv n).s = l.s := rfl

@[simp] theorem adv_pos (n : Nat) : (l.adv n).pos = l.pos + n := rfl

@[simp] theorem adv_zero : l.adv 0 = l := rfl

@[simp] theorem adv_adv (m n : Nat) : (l.adv m).adv n = l.adv (m + n) := by
  simp [adv, Nat.add_assoc]

/-- What is left of the text further ahead is what is left of it here, less what has been passed. -/
theorem lookahead_adv (n : Nat) : (l.adv n).lookahead = l.lookahead.drop n := by
  simp [lookahead, adv, List.drop_drop]

/-- Behind a front of what is left, the rest of it is left. -/
theorem lookahead_adv_append (h : l.lookahead = t ++ x) : (l.adv t.length).lookahead = x := by
  rw [lookahead_adv, h, List.drop_left]

@[simp] theorem lookahead_recordLmatch : l.recordLmatch.lookahead = l.lookahead := rfl

@[simp] theorem lookahead_recordRmatch : l.recordRmatch.lookahead = l.lookahead := rfl

/-- The text is at its end when nothing is left of it. -/
theorem eot_iff : l.eot = true ↔ l.lookahead = [] := by
  rw [eot, decide_eq_true_eq, lookahead, List.drop_eq_nil_iff, slen]

theorem eot_of_cons (h : l.lookahead = c :: x) : l.eot = false := by
  rw [← Bool.not_eq_true, eot_iff, h]
  exact List.cons_ne_nil c x

/-- The character at the cursor is the first one that is left, or the NUL. -/
theorem peek_eq : l.peek = l.lookahead.headD '\x00' := by
  rw [peek, lookahead, List.headD_eq_head?_getD, List.head?_drop, List.getD_eq_getElem?_getD]

theorem peek_of_cons (h : l.lookahead = c :: x) : l.peek = c := by rw [peek_eq, h]; rfl

theorem peek_of_nil (h : l.lookahead = []) : l.peek = '\x00' := by rw [peek_eq, h]; rfl

/-- What is under the cursor, unless it is the terminating NUL, is the next character of the
text. -/
theorem exists_cons (h : l.peek = c) (hc : c ≠ '\x00') : ∃ x, l.lookahead = c :: x := by
  cases hx : l.lookahead with
  | nil => exact absurd (h.symm.trans (peek_of_nil hx)) hc
  | cons a x => exact ⟨x, by rw [← h, peek_of_cons hx]⟩

/-- A step to the next character, which may be the NUL. -/
theorem next_cons (h : l.lookahead = c :: x) : l.next = (some (l.adv 1).peek, l.adv 1) := by
  simp [next, nextEx, eot_of_cons h, incr, adv]

/-- At the end of the text there is no next character. -/
theorem next_nil (h : l.lookahead = []) : l.next = (none, l) := by
  simp [next, nextEx, eot_iff.mpr h]

/-- The loop over a class of characters ends behind the longest front of them. -/
theorem nextWhile_eq (p : Char → Bool) : l.nextWhile p = l.adv (l.lookahead.takeWhile p).length :=
  rfl

theorem lookahead_nextWhile (p : Char → Bool) :
    (l.nextWhile p).lookahead = l.lookahead.dropWhile p := by
  rw [nextWhile_eq]
  exact lookahead_adv_append (List.takeWhile_append_dropWhile).symm

/-- A maximal front of the class is passed over: nothing of what is behind it. -/
theorem nextWhile_append {p : Char → Bool} (h : l.lookahead = t ++ x) (ht : AllIn p t)
    (hx : Stops p x) : l.nextWhile p = l.adv t.length := by
  rw [nextWhile_eq, h, takeWhile_append ht hx]

/-- A step over a character and the white space behind it. -/
theorem skip_cons (h : l.lookahead = c :: x) (hx : x ≠ []) :
    l.skip = (some ((l.adv 1).nextWhile isSpace).peek, (l.adv 1).nextWhile isSpace) := by
  have hadv : l.incr.lookahead = x := lookahead_adv_append (t := [c]) h
  have heot : l.incr.eot = false := by
    rw [← Bool.not_eq_true, eot_iff, hadv]
    exact hx
  simp only [skip, nextEx, eot_of_cons h, eatWs, heot]
  rfl

/-- Behind the last character there is nothing to skip to, but the cursor is moved. -/
theorem skip_singleton (h : l.lookahead = [c]) : l.skip = (none, l.adv 1) := by
  have hadv : l.incr.lookahead = [] := lookahead_adv_append (t := [c]) h
  simp only [skip, nextEx, eot_of_cons h, eatWs, eot_iff.mpr hadv]
  rfl

theorem skip_nil (h : l.lookahead = []) : l.skip = (none, l) := by
  simp [skip, nextEx, eot_iff.mpr h]

/-- Whether or not it reports the end of the text, a skip passes over one character and the white
space after it. -/
theorem lookahead_skip (h : l.lookahead = c :: x) : l.skip.2.lookahead = x.dropWhile isSpace := by
  have hadv : (l.adv 1).lookahead = x := lookahead_adv_append (t := [c]) h
  by_cases hx : x = []
  · rw [hx] at h hadv
    rw [skip_singleton h, hx, hadv]
    rfl
  · rw [skip_cons h hx, lookahead_nextWhile, hadv]

/-- Skipping leaves the text as it is. -/
theorem skip_s : l.skip.2.s = l.s := by
  cases hx : l.lookahead with
  | nil => rw [skip_nil hx]
  | cons c x =>
    by_cases hnil : x = []
    · rw [skip_singleton (hnil ▸ hx)]
      rfl
    · rw [skip_cons hx hnil]
      rfl

/-- The matched string, when it fits the buffer; from `U_TOKEN_SZ` characters on it does not. -/
theorem getMatch_eq (h : l.s.drop l.lmatch = t ++ x) (hr : l.rmatch + 1 = l.lmatch + t.length)
    (ht : t ≠ []) : l.getMatch = if tokenSz ≤ t.length then none else some t := by
  have hpos : 0 < t.length := List.length_pos_iff.mpr ht
  have hlen : l.rmatch - l.lmatch + 1 = t.length := by omega
  rw [getMatch, if_neg (by omega)]
  simp only [hlen, h, List.take_left]

end

end Lexer

end Libu
