/-
# The lexer under watch (`toolbox/lexer.c`)

The routines of the lexer once more, one character after the other as the code takes them, with a
log of what they do to the text and to the cursor.  `Libu.Lexer` says where they end; what is asked
here is where they have been: which characters were looked at, and which way the cursor went.

* §1: the events and the routines.  A loop of the source has a fuel, and fails with `stuck` when it
  is used up.
* §2: what they return is what the routines of `Libu.Lexer` return.
* §3: no routine of the lexer looks at a match buffer.
* §4: the meter of the lexer.  Its budget is what is left of the text, and a log leads from one
  lexer to another if the cursor went forward only and nothing behind the terminating NUL was
  looked at.
-/
import Libu.Lexer
import Libu.Verif.Logged

namespace Libu

open Verif Logged

/-! ## 1. The routines -/

/-- What is done to a text and to the buffer of a match: characters are looked at, the cursor is
set, and a buffer that was not written is looked at. -/
inductive Event
  /-- the characters at `i` to `j` are looked at -/
  | read (i j : Nat)
  /-- the cursor is set -/
  | move (pos : Nat)
  /-- a match buffer is looked at that was not written -/
  | stale
  deriving DecidableEq

/-- A routine that works on a lexer, with a log of what it does there. -/
abbrev Watched (ε α : Type) := Logged ε Lexer Event α

namespace Watched

section

variable {ε : Type} (stuck : ε)

/-- `u_lexer_peek`: the character at the cursor is looked at, which may be the NUL. -/
def peek : Watched ε Char := do
  let l ← get
  log [.read l.pos l.pos]
  pure l.peek

/-- `u_lexer_eot`: a comparison of two numbers, no character is looked at. -/
def eot : Watched ε Bool := do
  let l ← get
  pure l.eot

/-- `u_lexer_incr`: the cursor is set one further. -/
def incr : Watched ε Unit := do
  modify Lexer.incr
  let l ← get
  log [.move l.pos]

/-- `u_lexer_record_lmatch` leaves the text and the cursor alone. -/
def recordLmatch : Watched ε Unit := modify Lexer.recordLmatch

/-- `u_lexer_record_rmatch` leaves the text and the cursor alone. -/
def recordRmatch : Watched ε Unit := modify Lexer.recordRmatch

/-- The loop of `u_lexer_eat_ws`, `while (isspace(l->s[l->pos]))`, with a fuel: it looks at each
character before it moves on. -/
def eatWsLoop : Nat → Watched ε Bool
  | 0 => fail stuck
  | n + 1 => do
    let c ← peek
    if isSpace c then do
      let e ← eot
      if e then pure false
      else do
        incr
        eatWsLoop n
    else pure true

/-- `u_lexer_eat_ws`; `false` stands for the return code -1. -/
def eatWs : Watched ε Bool := do
  let e ← eot
  if e then pure false
  else do
    let l ← get
    eatWsLoop stuck (l.slen + 1)

/-- The character passed to the caller, or `none` for the return code -1.  Where the caller passes a
NULL for it, it is looked at here all the same. -/
def nextEx (eat_ws : Bool) : Watched ε (Option Char) := do
  let e ← eot
  if e then pure none
  else do
    incr
    let ok ← (if eat_ws then eatWs stuck else pure true)
    if ok then do
      let c ← peek
      pure (some c)
    else pure none

/-- `u_lexer_next`: the next character. -/
def next : Watched ε (Option Char) := nextEx stuck false

/-- `u_lexer_skip`: the next character behind white space. -/
def skip : Watched ε (Option Char) := nextEx stuck true

/-- `u_lexer_get_match`: the characters of the match are copied out, unless there are too many. -/
def getMatch : Watched ε (Option (List Char)) := do
  let l ← get
  match l.getMatch with
  | none => pure none
  | some m => do
    log [.read l.lmatch l.rmatch]
    pure (some m)

/-- The text that error messages print, `u_lexer_lookahead`: printing it looks at all that is left,
up to the NUL. -/
def lookahead : Watched ε (List Char) := do
  let l ← get
  log [.read l.pos l.slen]
  pure l.lookahead

end

/-! ## 2. What they return -/

section

variable {ε : Type} {stuck : ε} {l : Lexer}

@[simp] theorem peek_snd : ((peek : Watched ε Char) l).2 = .ok (l, l.peek) := rfl

@[simp] theorem eot_snd : ((eot : Watched ε Bool) l).2 = .ok (l, l.eot) := rfl

@[simp] theorem incr_snd : ((incr : Watched ε Unit) l).2 = .ok (l.incr, ()) := rfl

@[simp] theorem recordLmatch_snd :
    ((recordLmatch : Watched ε Unit) l).2 = .ok (l.recordLmatch, ()) := rfl

@[simp] theorem recordRmatch_snd :
    ((recordRmatch : Watched ε Unit) l).2 = .ok (l.recordRmatch, ()) := rfl

@[simp] theorem lookahead_snd :
    ((lookahead : Watched ε (List Char)) l).2 = .ok (l, l.lookahead) := rfl

@[simp] theorem getMatch_snd :
    ((getMatch : Watched ε (Option (List Char))) l).2 = .ok (l, l.getMatch) := by
  rw [getMatch, get_bind]
  cases l.getMatch <;> rfl

/-- With more fuel than there is text left, the loop ends behind the white space. -/
theorem eatWsLoop_snd : ∀ {n : Nat} {l : Lexer}, l.lookahead.length < n →
    (eatWsLoop stuck n l).2 = .ok (l.nextWhile isSpace, true)
  | 0, l, hn => absurd hn (Nat.not_lt_zero _)
  | n + 1, l, hn => by
    rw [eatWsLoop, bind_snd, peek_snd, ok_bind]
    cases hx : l.lookahead with
    | nil =>
      have hspace : isSpace l.peek = false := by rw [Lexer.peek_of_nil hx]; rfl
      simp [hspace, Lexer.nextWhile_eq, hx]
    | cons c x =>
      rw [Lexer.peek_of_cons hx]
      by_cases hc : isSpace c = true
      · have hincr : l.incr.lookahead = x := Lexer.lookahead_adv_append (t := [c]) hx
        have hlen : l.incr.lookahead.length < n := by
          rw [hincr]
          rw [hx, List.length_cons] at hn
          omega
        have hend : l.incr.nextWhile isSpace = l.nextWhile isSpace := by
          rw [Lexer.nextWhile_eq, Lexer.nextWhile_eq, hincr, hx, List.takeWhile_cons_of_pos hc,
            List.length_cons, Nat.add_comm, ← Lexer.adv_adv]
          rfl
        simp only [hc, if_true, bind_snd, eot_snd, ok_bind, Lexer.eot_of_cons hx, if_false,
          Bool.false_eq_true, incr_snd, eatWsLoop_snd hlen, hend]
      · simp [hc, Lexer.nextWhile_eq, hx]

@[simp] theorem eatWs_snd : (eatWs stuck l).2 = .ok (l.eatWs.2, l.eatWs.1) := by
  rw [eatWs, bind_snd, eot_snd, ok_bind, Lexer.eatWs]
  cases l.eot with
  | true => rfl
  | false =>
    have hlen : l.lookahead.length < l.slen + 1 := by
      rw [Lexer.lookahead, List.length_drop, Lexer.slen]
      omega
    simp [eatWsLoop_snd hlen]

/-- Under watch, the next character is the one that it is without. -/
theorem nextEx_snd (eat_ws : Bool) :
    (nextEx stuck eat_ws l).2 = .ok ((l.nextEx eat_ws).2, (l.nextEx eat_ws).1) := by
  rw [nextEx, bind_snd, eot_snd, ok_bind, Lexer.nextEx]
  cases l.eot with
  | true => rfl
  | false =>
    cases eat_ws with
    | false => rfl
    | true =>
      simp only [Bool.false_eq_true, if_false, if_true, bind_snd, incr_snd, eatWs_snd, ok_bind]
      obtain ⟨ok, l'⟩ := l.incr.eatWs
      cases ok <;> rfl

@[simp] theorem next_snd : (next stuck l).2 = .ok (l.next.2, l.next.1) := nextEx_snd false

@[simp] theorem skip_snd : (skip stuck l).2 = .ok (l.skip.2, l.skip.1) := nextEx_snd true

end

/-! ## 3. No match buffer is looked at -/

/-- No unwritten buffer is looked at: no routine of the lexer does that, only what its callers make
of a match. -/
abbrev Silent {ε α : Type} (w : Watched ε α) : Prop := Avoids .stale w

section

variable {ε : Type} {stuck : ε}

/-- Looking at the text is not looking at a buffer, and no other step of the routines below is. -/
theorem silent_looks (i j : Nat) : Silent (log [.read i j] : Watched ε Unit) :=
  avoids_log (by simp)

theorem silent_peek : Silent (peek : Watched ε Char) :=
  avoids_get.bind fun _ => (silent_looks _ _).bind fun _ => avoids_pure _

theorem silent_eot : Silent (eot : Watched ε Bool) := avoids_get.bind fun _ => avoids_pure _

theorem silent_incr : Silent (incr : Watched ε Unit) :=
  (avoids_modify _).bind fun _ => avoids_get.bind fun _ => avoids_log (by simp)

theorem silent_eatWsLoop : ∀ n : Nat, Silent (eatWsLoop stuck n)
  | 0 => avoids_fail stuck
  | n + 1 => by
    refine silent_peek.bind fun c => ?_
    split
    · refine silent_eot.bind fun e => ?_
      split
      · exact avoids_pure _
      · exact silent_incr.bind fun _ => silent_eatWsLoop n
    · exact avoids_pure _

theorem silent_eatWs : Silent (eatWs stuck) := by
  refine silent_eot.bind fun e => ?_
  split
  · exact avoids_pure _
  · exact avoids_get.bind fun l => silent_eatWsLoop _

theorem silent_nextEx (eat_ws : Bool) : Silent (nextEx stuck eat_ws) := by
  refine silent_eot.bind fun e => ?_
  split
  · exact avoids_pure _
  refine silent_incr.bind fun _ => ?_
  have hws : Silent (if eat_ws then eatWs stuck else pure true) := by
    split
    · exact silent_eatWs
    · exact avoids_pure _
  refine hws.bind fun ok => ?_
  split
  · exact silent_peek.bind fun c => avoids_pure _
  · exact avoids_pure _

theorem silent_getMatch : Silent (getMatch : Watched ε (Option (List Char))) := by
  refine avoids_get.bind fun l => ?_
  split
  · exact avoids_pure _
  · exact (silent_looks _ _).bind fun _ => avoids_pure _

theorem silent_lookahead : Silent (lookahead : Watched ε (List Char)) :=
  avoids_get.bind fun _ => (silent_looks _ _).bind fun _ => avoids_pure _

end

/-! ## 4. The meter -/

/-- The positions the cursor was set to, in this order. -/
def moves (es : List Event) : List Nat :=
  es.filterMap fun e => match e with
    | .move p => some p
    | _ => none

@[simp] theorem moves_nil : moves [] = [] := rfl

@[simp] theorem moves_append (es es' : List Event) : moves (es ++ es') = moves es ++ moves es' :=
  List.filterMap_append

/-- From one lexer to another on the same text: the cursor goes forward, and nothing behind the
terminating NUL is looked at. -/
structure Forward (l : Lexer) (es : List Event) (l' : Lexer) : Prop where
  text : l'.s = l.s
  ahead : l.pos ≤ l'.pos
  sorted : (moves es).Pairwise (· ≤ ·)
  within : ∀ p ∈ moves es, l.pos ≤ p ∧ p ≤ l'.pos
  inside : ∀ i j, .read i j ∈ es → j ≤ l.slen

section

variable {ε : Type} {stuck : ε} {S : ε → Prop} {l l' l'' : Lexer} {es es' : List Event}

/-- Doing nothing leads to where one is. -/
theorem Forward.refl (l : Lexer) : Forward l [] l :=
  ⟨rfl, le_refl _, List.Pairwise.nil, by simp, by simp⟩

/-- Two logs one behind the other: the second one starts where the first one has led. -/
theorem Forward.trans (h : Forward l es l') (h' : Forward l' es' l'') :
    Forward l (es ++ es') l'' := by
  refine ⟨h'.text.trans h.text, h.ahead.trans h'.ahead, ?_, fun p hp => ?_, fun i j hij => ?_⟩
  · rw [moves_append, List.pairwise_append]
    exact ⟨h.sorted, h'.sorted, fun p hp q hq => (h.within p hp).2.trans (h'.within q hq).1⟩
  · rw [moves_append, List.mem_append] at hp
    rcases hp with hp | hp
    · exact ⟨(h.within p hp).1, (h.within p hp).2.trans h'.ahead⟩
    · exact ⟨h.ahead.trans (h'.within p hp).1, (h'.within p hp).2⟩
  · rcases List.mem_append.mp hij with hij | hij
    · exact h.inside i j hij
    · have hj := h'.inside i j hij
      rwa [Lexer.slen, h.text] at hj

/-- The cursor and the right end of the match are within the text. -/
def Inside (l : Lexer) : Prop := l.pos ≤ l.slen ∧ l.rmatch ≤ l.slen

/-- The meter of the lexer: at most all that is left of the text is taken, and no failure of `S`
occurs. -/
def meter (S : ε → Prop) : Meter ε Lexer Event where
  Inv := Inside
  left l := l.slen - l.pos
  Stuck := S
  Leads := Forward
  refl l _ := Forward.refl l
  trans := Forward.trans

/-- Nothing but the ends of the match changes. -/
theorem Forward.still (htext : l'.s = l.s) (hpos : l'.pos = l.pos) : Forward l [] l' :=
  ⟨htext, hpos.ge, List.Pairwise.nil, by simp, by simp⟩

/-- Looking at characters up to the NUL moves nothing. -/
theorem Forward.looks {i j : Nat} (hj : j ≤ l.slen) : Forward l [.read i j] l := by
  refine ⟨rfl, le_refl _, List.Pairwise.nil, fun p hp => ?_, fun i' j' h => ?_⟩
  · exact absurd hp List.not_mem_nil
  · simp only [List.mem_singleton, Event.read.injEq] at h
    exact h.2 ▸ hj

/-- A look at the text takes nothing from the budget, as long as it stays in front of the end or at
it. -/
theorem metered_looks (hl : Inside l) {i j : Nat} (hj : j ≤ l.slen) :
    Metered (meter S) l 0 (log [.read i j] : Watched ε Unit) :=
  metered_log hl (Forward.looks hj)

theorem metered_peek (hl : Inside l) : Metered (meter S) l 0 (peek : Watched ε Char) := by
  refine Metered.get_bind ((metered_looks hl hl.1).bind_free fun l' _ _ hl' _ => ?_)
  exact metered_pure hl' _

theorem metered_eot (hl : Inside l) : Metered (meter S) l 0 (eot : Watched ε Bool) :=
  Metered.get_bind (metered_pure hl _)

theorem metered_recordLmatch (hl : Inside l) :
    Metered (meter S) l 0 (recordLmatch : Watched ε Unit) :=
  metered_modify hl (le_refl _) (Forward.still rfl rfl)

theorem metered_recordRmatch (hl : Inside l) :
    Metered (meter S) l 0 (recordRmatch : Watched ε Unit) :=
  metered_modify ⟨hl.1, hl.1⟩ (le_refl _) (Forward.still rfl rfl)

/-- A step of the cursor takes one character; it must not be at the end. -/
theorem metered_incr (hl : Inside l) (heot : l.eot = false) :
    Metered (meter S) l 1 (incr : Watched ε Unit) := by
  have hlt : l.pos < l.slen := by simpa [Lexer.eot] using heot
  have hleft : (meter S).left l.incr + 1 ≤ (meter S).left l := by
    show l.slen - (l.pos + 1) + 1 ≤ l.slen - l.pos
    omega
  have hmod : Metered (meter S) l 1 (modify Lexer.incr : Watched ε Unit) :=
    metered_modify ⟨hlt, hl.2⟩ hleft ⟨rfl, Nat.le_succ _, List.Pairwise.nil, by simp, by simp⟩
  refine hmod.bind (k := 0) fun l' _ h hl' _ => Metered.get_bind (metered_log hl' ?_)
  refine ⟨rfl, le_refl _, List.pairwise_singleton _ _, fun p hp => ?_, by simp⟩
  obtain rfl : p = l'.pos := by simpa [moves] using hp
  exact ⟨le_refl _, le_refl _⟩

/-- The loop takes a character in each turn and stops at the NUL at the latest, so a fuel of one
more than is left is enough. -/
theorem metered_eatWsLoop : ∀ {n : Nat} {l : Lexer}, Inside l → l.slen - l.pos < n →
    Metered (meter S) l 0 (eatWsLoop stuck n)
  | 0, l, _, hn => absurd hn (Nat.not_lt_zero _)
  | n + 1, l, hl, hn => by
    refine (metered_peek hl).bind_free fun l₁ c hpeek hl₁ _ => ?_
    obtain ⟨rfl, rfl⟩ : l = l₁ ∧ l.peek = c := by simpa using hpeek
    split
    · refine (metered_eot hl).bind_free fun l₁ e heot hl₁ _ => ?_
      obtain ⟨rfl, rfl⟩ : l = l₁ ∧ l.eot = e := by simpa using heot
      split
      · exact metered_pure hl _
      · rename_i hnot
        refine ((metered_incr hl (by simpa using hnot)).bind fun l₁ _ _ hl₁ hleft => ?_).mono
          (Nat.zero_le (1 + 0))
        refine metered_eatWsLoop hl₁ ?_
        have hleft : l₁.slen - l₁.pos + 1 ≤ l.slen - l.pos := hleft
        omega
    · exact metered_pure hl _

/-- Passing over white space stays within the text. -/
theorem metered_eatWs (hl : Inside l) : Metered (meter S) l 0 (eatWs stuck) := by
  refine (metered_eot hl).bind_free fun l₁ e heot hl₁ _ => ?_
  split
  · exact metered_pure hl₁ _
  · exact Metered.get_bind (metered_eatWsLoop hl₁ (by omega))

/-- So does the next character, whether white space is skipped or not. -/
theorem metered_nextEx (hl : Inside l) (eat_ws : Bool) :
    Metered (meter S) l 0 (nextEx stuck eat_ws) := by
  refine (metered_eot hl).bind_free fun l₁ e heot hl₁ _ => ?_
  obtain ⟨rfl, rfl⟩ : l = l₁ ∧ l.eot = e := by simpa using heot
  split
  · exact metered_pure hl _
  · rename_i hnot
    refine ((metered_incr hl (by simpa using hnot)).mono (Nat.zero_le 1)).bind_free
      fun l₁ _ _ hl₁ _ => ?_
    have hws : Metered (meter S) l₁ 0 (if eat_ws then eatWs stuck else pure true) := by
      split
      · exact metered_eatWs hl₁
      · exact metered_pure hl₁ _
    refine hws.bind_free fun l₂ ok _ hl₂ _ => ?_
    split
    · exact (metered_peek hl₂).bind_free fun l₃ c _ hl₃ _ => metered_pure hl₃ _
    · exact metered_pure hl₂ _

/-- A match is copied from where the cursor has been. -/
theorem metered_getMatch (hl : Inside l) :
    Metered (meter S) l 0 (getMatch : Watched ε (Option (List Char))) := by
  refine Metered.get_bind ?_
  split
  · exact metered_pure hl _
  · exact (metered_looks hl hl.2).bind_free fun l' _ _ hl' _ => metered_pure hl' _

theorem metered_lookahead (hl : Inside l) :
    Metered (meter S) l 0 (lookahead : Watched ε (List Char)) := by
  refine Metered.get_bind ((metered_looks hl (le_refl _)).bind_free fun l' _ _ hl' _ => ?_)
  exact metered_pure hl' _

end

end Watched

end Libu
