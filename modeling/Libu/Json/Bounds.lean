/-
# JSON: the parser ends, and stays within its text

Every routine of the parser is metered: it takes from the budget of the lexer, which is what is left
of the text, and never goes back or looks behind the terminating NUL.  What a loop takes in each of
its turns is one character at least, so that it comes to its end with a fuel of the text's length;
the recursion of the values passes an opening bracket each time.

* §1 is the leaves, §2 the values and the containers, by induction on the fuel.
* §3: a parse from its beginning, in either mode, when some text is found in every buffer that was
  not written (`bounded_anyText`).
-/
import Libu.Json.Watch

namespace Libu

open Verif Logged

namespace Json.Watch

open Watched hiding next skip next_snd skip_snd

/-! ## 1. The leaves -/

/-- A run out of its fuel, or out of a buffer: what a bound must exclude.  An error message is none
of these. -/
def Fatal (e : Fail) : Prop := e = .fuel ∨ e = .unwritten

theorem not_fatal_err (status : List Char) : ¬ Fatal (.err status) := by
  rintro (h | h) <;> cases h

/-- `w` is metered from `l`, and takes `k` characters at least: it stays within the text, does not
go back, and does not end fatally. -/
abbrev Takes {α : Type} (l : Lexer) (k : Nat) (w : Parser α) : Prop :=
  Metered (meter Fatal) l k w

section

variable {l : Lexer} {α : Type}

/-- An error message takes nothing. -/
theorem takes_err (hl : Inside l) (msg : String) : Takes l 0 (err msg : Parser α) :=
  metered_fail hl (not_fatal_err _)

/-- An error message with the text in it looks at the text, up to the NUL. -/
theorem takes_errAt (hl : Inside l) (msg : String → String) : Takes l 0 (errAt msg : Parser α) :=
  (metered_lookahead hl).bind_free fun _ _ _ hl' _ => takes_err hl' _

theorem takes_orEot (hl : Inside l) (c : Option Char) : Takes l 0 (orEot c) := by
  cases c with
  | none => exact Metered.get_bind (takes_err hl _)
  | some c => exact metered_pure hl c

/-- The next character takes one, as it is an error at the end. -/
theorem takes_next (hl : Inside l) : Takes l 1 next := by
  have hfree : Takes l 0 next :=
    (metered_nextEx hl false).bind_free fun _ c _ hl' _ => takes_orEot hl' c
  refine hfree.takes fun l' c h => ?_
  rw [next_snd] at h
  obtain ⟨a, x, hx, rfl, -, -⟩ := Lexer.nextOrErr_ok h
  show l.slen - (l.pos + 1) + 1 ≤ l.slen - l.pos
  have hlen : l.lookahead.length = l.slen - l.pos := List.length_drop
  rw [hx, List.length_cons] at hlen
  omega

/-- The next character behind white space takes one at least. -/
theorem takes_skip (hl : Inside l) : Takes l 1 skip := by
  have hfree : Takes l 0 skip :=
    (metered_nextEx hl true).bind_free fun _ c _ hl' _ => takes_orEot hl' c
  refine hfree.takes fun l' c h => ?_
  rw [skip_snd] at h
  obtain ⟨a, x, hx, -, hx', hs, -⟩ := Lexer.skipOrErr_ok h
  have hlen : l.lookahead.length = l.slen - l.pos := List.length_drop
  have hlen' : l'.lookahead.length = l'.slen - l'.pos := List.length_drop
  show l'.slen - l'.pos + 1 ≤ l.slen - l.pos
  have hdrop := List.length_dropWhile_le isSpace x
  rw [hx, List.length_cons] at hlen
  rw [hx'] at hlen'
  omega

/-- A step without the lexer takes nothing, and fails as its result does. -/
theorem takes_lift (hl : Inside l) {r : Res α} (hr : ∀ e, r = .error e → ¬ Fatal e) :
    Takes l 0 (lift r) := by
  cases r with
  | ok a => exact (metered_pure hl a).congr rfl
  | error e => exact (metered_fail hl (hr e rfl)).congr rfl

/-- Where nothing depends on how many characters are taken, the next character takes none, and so
does skipping to it. -/
theorem free_next (hl : Inside l) : Takes l 0 next := (takes_next hl).mono (Nat.zero_le 1)

theorem free_skip (hl : Inside l) : Takes l 0 skip := (takes_skip hl).mono (Nat.zero_le 1)

/-- Each turn takes one character, so the text's end is come to before the fuel's. -/
theorem takes_whileNext {p : Char → Bool} : ∀ {n : Nat} {l : Lexer} {c : Char}, Inside l →
    l.slen - l.pos < n → Takes l 0 (whileNext p n c)
  | 0, _, _, _, hn => absurd hn (Nat.not_lt_zero _)
  | n + 1, l, c, hl, hn => by
    rw [whileNext]
    split
    · refine ((takes_next hl).bind (k := 0) fun l' c _ hl' hleft => ?_).mono (Nat.zero_le _)
      have hleft : l'.slen - l'.pos + 1 ≤ l.slen - l.pos := hleft
      exact takes_whileNext hl' (by omega)
    · exact metered_pure hl _

/-- The loop over digits, with its fuel of the whole text, is metered by what is left. -/
theorem takes_whileDigit (hl : Inside l) (c : Char) : Takes l 0 (whileDigit c) := by
  refine Metered.get_bind ((takes_whileNext hl (by omega)).bind_free fun l' _ _ hl' _ => ?_)
  exact metered_pure hl' _

/-- The parts of a number take what they take, and stay within the text: digits, fraction and
exponent below. -/
theorem takes_matchDigits (hl : Inside l) (c : Char) : Takes l 0 (matchDigits c) := by
  unfold matchDigits
  split
  · exact (free_next hl).bind_free fun _ _ _ hl' _ => metered_pure hl' _
  split
  · exact (free_next hl).bind_free fun _ _ _ hl' _ => takes_whileDigit hl' _
  · exact takes_errAt hl _

theorem takes_matchInt (hl : Inside l) : Takes l 0 matchInt := by
  refine (metered_peek hl).bind_free fun l₁ c _ hl₁ _ => ?_
  split
  · exact (free_next hl₁).bind_free fun _ _ _ hl' _ => takes_matchDigits hl' _
  · exact takes_matchDigits hl₁ c

theorem takes_matchFracOpt (hl : Inside l) : Takes l 0 matchFracOpt := by
  refine (metered_peek hl).bind_free fun l₁ c _ hl₁ _ => ?_
  split
  · refine (metered_peek hl₁).bind_free fun l₂ c _ hl₂ _ => ?_
    split
    · exact takes_errAt hl₂ _
    refine (free_next hl₂).bind_free fun l₃ c _ hl₃ _ => ?_
    split
    · exact takes_errAt hl₃ _
    · exact takes_whileDigit hl₃ _
  · exact metered_pure hl₁ _

theorem takes_matchExpDigits (hl : Inside l) (c : Char) : Takes l 0 (matchExpDigits c) := by
  unfold matchExpDigits
  split
  · exact takes_errAt hl _
  · exact takes_whileDigit hl _

theorem takes_matchExpOpt (hl : Inside l) : Takes l 0 matchExpOpt := by
  refine (metered_peek hl).bind_free fun l₁ c _ hl₁ _ => ?_
  split
  · refine (metered_peek hl₁).bind_free fun l₂ c _ hl₂ _ => ?_
    split
    · exact takes_errAt hl₂ _
    refine (free_next hl₂).bind_free fun l₃ c _ hl₃ _ => ?_
    split
    · exact (free_next hl₃).bind_free fun _ _ _ hl' _ => takes_matchExpDigits hl' _
    · exact takes_matchExpDigits hl₃ _
  · exact metered_pure hl₁ _

/-- The three words, character by character. -/
theorem takes_matchSeqLoop : ∀ {rem : List Char} {l : Lexer}, Inside l →
    Takes l 0 (matchSeqLoop rem)
  | [], _, hl => metered_pure hl _
  | x :: rem, l, hl => by
    refine (free_skip hl).bind_free fun l₁ c _ hl₁ _ => ?_
    split
    · exact takes_errAt hl₁ _
    · exact takes_matchSeqLoop hl₁

theorem takes_matchSeq (hl : Inside l) {type : JsonType} {first : Char} {rem : List Char}
    (jo : Option Json) : Takes l 0 (matchSeq type first rem jo) := by
  refine (metered_peek hl).bind_free fun l₁ c _ hl₁ _ => ?_
  split
  · exact takes_errAt hl₁ _
  refine (takes_matchSeqLoop hl₁).bind_free fun l₂ _ _ hl₂ _ => ?_
  exact (free_skip hl₂).bind_free fun _ _ _ hl' _ => metered_pure hl' _

theorem takes_matchHexLoop : ∀ {n : Nat} {l : Lexer}, Inside l → Takes l 0 (matchHexLoop n)
  | 0, _, hl => metered_pure hl _
  | n + 1, l, hl => by
    refine (free_next hl).bind_free fun l₁ c _ hl₁ _ => ?_
    split
    · exact takes_err hl₁ _
    · exact takes_matchHexLoop hl₁

/-- The loop of a string takes a character in each turn, two for an escape and six for one in
hexadecimal, so a fuel of what is left is enough. -/
theorem takes_matchStringLoop : ∀ {n : Nat} {l : Lexer} {c : Char}, Inside l →
    l.slen - l.pos < n → Takes l 0 (matchStringLoop n c)
  | 0, _, _, _, hn => absurd hn (Nat.not_lt_zero _)
  | n + 1, l, c, hl, hn => by
    rw [matchStringLoop]
    split
    · exact metered_pure hl _
    split
    · refine ((takes_next hl).bind (k := 0) fun l₁ c _ hl₁ hleft₁ => ?_).mono (Nat.zero_le _)
      have hleft₁ : l₁.slen - l₁.pos + 1 ≤ l.slen - l.pos := hleft₁
      split
      · refine (takes_matchHexLoop hl₁).bind_free fun l₂ _ _ hl₂ hleft₂ => ?_
        have hleft₂ : l₂.slen - l₂.pos ≤ l₁.slen - l₁.pos := hleft₂
        exact takes_matchStringLoop hl₂ (by omega)
      split
      · refine (free_next hl₁).bind_free fun l₂ c _ hl₂ hleft₂ => ?_
        have hleft₂ : l₂.slen - l₂.pos ≤ l₁.slen - l₁.pos := hleft₂
        exact takes_matchStringLoop hl₂ (by omega)
      · exact takes_err hl₁ _
    split
    · exact takes_err hl _
    · refine ((takes_next hl).bind (k := 0) fun l₁ c _ hl₁ hleft₁ => ?_).mono (Nat.zero_le _)
      have hleft₁ : l₁.slen - l₁.pos + 1 ≤ l.slen - l.pos := hleft₁
      exact takes_matchStringLoop hl₁ (by omega)

theorem takes_trailingWs (hl : Inside l) : Takes l 0 trailingWs := by
  refine (metered_peek hl).bind_free fun l₁ c _ hl₁ _ => ?_
  split
  · exact (free_skip hl₁).bind_free fun _ _ _ hl' _ => metered_pure hl' _
  · exact metered_pure hl₁ _

/-! ## 2. Values and containers -/

/-- Some text in every buffer that was not written, so that trimming it is not out of the buffer. -/
def anyText (_ : Bool) (_ : Lexer) : Option (List Char) := some ['?']

/-- Looking at an unwritten buffer moves nothing. -/
theorem Forward.stale (l : Lexer) : Forward l [.stale] l := by
  refine ⟨rfl, le_refl _, List.Pairwise.nil, fun p hp => ?_, fun i j hij => ?_⟩
  · exact absurd hp List.not_mem_nil
  · simp at hij

/-- Trimming a match does not touch the text. -/
theorem takes_trimMatch (hl : Inside l) (build : Bool) : Takes l 0 (trimMatch anyText build) := by
  refine Metered.get_bind ((metered_getMatch hl).bind_free fun l₁ m _ hl₁ _ => ?_)
  split
  · exact metered_pure hl₁ _
  exact (metered_log hl₁ (Forward.stale l₁)).bind_free fun l₂ _ _ hl₂ _ => metered_pure hl₂ _

/-- A failure without a message is not fatal, nor is one of the steps that end with it below. -/
theorem orErr_error {α : Type} (o : Option α) : ∀ e, orErr o = .error e → ¬ Fatal e := by
  intro e h
  cases o with
  | none => exact Except.error.inj h ▸ not_fatal_err []
  | some a => cases h

theorem bind_orErr_error {α β : Type} {o : Option α} {f : α → β} :
    ∀ e, (do let a ← orErr o; pure (f a) : Res β) = .error e → ¬ Fatal e := by
  intro e h
  cases o with
  | none => exact Except.error.inj h ▸ not_fatal_err []
  | some a => cases h

theorem newBelow_error (jo : Option Json) : ∀ e, newBelow jo = .error e → ¬ Fatal e := by
  cases jo with
  | none => exact fun e h => by cases h
  | some jo => exact bind_orErr_error

theorem addTo_error (jo elem : Option Json) : ∀ e, addTo jo elem = .error e → ¬ Fatal e := by
  rcases jo with _ | jo <;> rcases elem with _ | elem
  · exact fun e h => by cases h
  · exact fun e h => by cases h
  · exact fun e h => by cases h
  · exact bind_orErr_error

theorem takes_store (hl : Inside l) {jo : Json} {type : JsonType} :
    Takes l 0 (store anyText jo type) := by
  refine (takes_trimMatch hl true).bind_free fun l₁ m _ hl₁ _ => ?_
  refine (takes_lift hl₁ (orErr_error _)).bind_free fun l₂ jo _ hl₂ _ => ?_
  exact metered_pure hl₂ _

theorem takes_matchNumber (hl : Inside l) (jo : Option Json) :
    Takes l 0 (matchNumber anyText jo) := by
  refine (takes_matchInt hl).bind_free fun l₁ _ _ hl₁ _ => ?_
  refine (takes_matchFracOpt hl₁).bind_free fun l₂ _ _ hl₂ _ => ?_
  refine (takes_matchExpOpt hl₂).bind_free fun l₃ _ _ hl₃ _ => ?_
  refine (metered_recordRmatch hl₃).bind_free fun l₄ _ _ hl₄ _ => ?_
  cases jo with
  | none => exact (takes_trimMatch hl₄ false).bind_free fun _ _ _ hl' _ => metered_pure hl' _
  | some jo => exact takes_store hl₄

theorem takes_matchString (hl : Inside l) (jo : Option Json) :
    Takes l 0 (matchString anyText jo) := by
  refine (metered_peek hl).bind_free fun l₁ c _ hl₁ _ => ?_
  split
  · exact takes_errAt hl₁ _
  refine (free_next hl₁).bind_free fun l₂ c _ hl₂ _ => ?_
  refine (metered_recordLmatch hl₂).bind_free fun l₃ _ _ hl₃ _ => Metered.get_bind ?_
  refine (takes_matchStringLoop hl₃ (by omega)).bind_free fun l₄ _ _ hl₄ _ => ?_
  refine (metered_recordRmatch hl₄).bind_free fun l₅ _ _ hl₅ _ => ?_
  refine (free_next hl₅).bind_free fun l₆ c _ hl₆ _ => ?_
  cases jo with
  | none => exact metered_pure hl₆ _
  | some jo => exact takes_store hl₆

theorem takes_setName (hl : Inside l) (pair : Option Json) : Takes l 0 (setName anyText pair) := by
  refine (takes_trimMatch hl _).bind_free fun l₁ m _ hl₁ _ => ?_
  cases pair with
  | none => exact metered_pure hl₁ _
  | some pair =>
    refine (takes_lift hl₁ (orErr_error _)).bind_free fun l₂ pair _ hl₂ _ => ?_
    exact metered_pure hl₂ _

theorem takes_matchStringFirst (hl : Inside l) : Takes l 0 matchStringFirst := by
  refine (metered_peek hl).bind_free fun l₁ c _ hl₁ _ => ?_
  split
  · exact (metered_recordLmatch hl₁).bind_free fun _ _ _ hl' _ => metered_pure hl' _
  · exact metered_pure hl₁ _

theorem takes_matchNumberFirst (hl : Inside l) : Takes l 0 matchNumberFirst := by
  refine (metered_peek hl).bind_free fun l₁ c _ hl₁ _ => ?_
  split
  · exact (metered_recordLmatch hl₁).bind_free fun _ _ _ hl' _ => metered_pure hl' _
  · exact metered_pure hl₁ _

/-- `value` is metered wherever fewer than `n` characters are left. -/
def Metes (n : Nat) (value : Option Json → Parser (Option Json)) : Prop :=
  ∀ l jo, Inside l → l.slen - l.pos < n → Takes l 0 (value jo)

variable {value entry : Option Json → Parser (Option Json)} {n : Nat}

/-- An entry of an array is metered if its values are. -/
theorem metes_elem (hvalue : Metes n value) : Metes n (matchElem value) := by
  intro l jo hl hn
  refine (takes_lift hl (newBelow_error jo)).bind_free fun l₁ elem _ hl₁ hleft => ?_
  refine (hvalue l₁ elem hl₁ (lt_of_le_of_lt hleft hn)).bind_free fun l₂ elem _ hl₂ _ => ?_
  exact takes_lift hl₂ (addTo_error jo elem)

/-- An entry of an object is metered if its values are. -/
theorem metes_member (hvalue : Metes n value) : Metes n (matchMember anyText value) := by
  intro l jo hl hn
  refine (takes_matchStringFirst hl).bind_free fun l₁ first _ hl₁ hleft₁ => ?_
  split
  · refine (takes_matchString hl₁ none).bind_free fun l₂ _ _ hl₂ hleft₂ => ?_
    refine (takes_lift hl₂ (newBelow_error jo)).bind_free fun l₃ pair _ hl₃ hleft₃ => ?_
    refine (takes_setName hl₃ pair).bind_free fun l₄ pair _ hl₄ hleft₄ => ?_
    refine (takes_trailingWs hl₄).bind_free fun l₅ _ _ hl₅ hleft₅ => ?_
    refine (metered_peek hl₅).bind_free fun l₆ c _ hl₆ hleft₆ => ?_
    split
    · exact takes_errAt hl₆ _
    refine (free_skip hl₆).bind_free fun l₇ c _ hl₇ hleft₇ => ?_
    have hleft : (meter Fatal).left l₇ ≤ (meter Fatal).left l :=
      calc (meter Fatal).left l₇
          ≤ (meter Fatal).left l₄ := hleft₇.trans (hleft₆.trans hleft₅)
        _ ≤ (meter Fatal).left l₂ := hleft₄.trans hleft₃
        _ ≤ (meter Fatal).left l := hleft₂.trans hleft₁
    refine (hvalue l₇ pair hl₇ (lt_of_le_of_lt hleft hn)).bind_free fun l₈ pair _ hl₈ _ => ?_
    exact takes_lift hl₈ (addTo_error jo pair)
  · exact metered_fail hl₁ (not_fatal_err [])

/-- The entries of a container are behind its opening bracket or behind a comma, which the loop
has passed. -/
theorem takes_containerLoop {closing : Char} (hentry : Metes n entry) : ∀ {m : Nat} {l : Lexer}
    {jo : Option Json}, Inside l → l.slen - l.pos < m → l.slen - l.pos ≤ n →
      Takes l 0 (containerLoop closing entry m jo)
  | 0, _, _, _, hm, _ => absurd hm (Nat.not_lt_zero _)
  | m + 1, l, jo, hl, hm, hn => by
    refine (metered_peek hl).bind_free fun l₁ _ hpeek hl₁ _ => ?_
    obtain ⟨rfl, -⟩ : l = l₁ ∧ _ := by simpa using hpeek
    refine ((takes_skip hl).bind (k := 0) fun l₂ c _ hl₂ hleft₂ => ?_).mono (Nat.zero_le _)
    have hleft₂ : l₂.slen - l₂.pos + 1 ≤ l.slen - l.pos := hleft₂
    split
    · exact metered_pure hl₂ _
    refine (hentry l₂ jo hl₂ (by omega)).bind_free fun l₃ jo _ hl₃ hleft₃ => ?_
    refine (takes_trailingWs hl₃).bind_free fun l₄ _ _ hl₄ hleft₄ => ?_
    refine (metered_peek hl₄).bind_free fun l₅ c _ hl₅ hleft₅ => ?_
    have hleft₅ : l₅.slen - l₅.pos ≤ l₂.slen - l₂.pos := hleft₅.trans (hleft₄.trans hleft₃)
    split
    · exact takes_containerLoop hentry hl₅ (by omega) (by omega)
    · exact metered_pure hl₅ _

/-- A container passes its opening bracket first, so one fuel more than for its entries is enough.
-/
theorem metes_container {type : JsonType} {opening closing : Char} (hentry : Metes n entry) :
    Metes (n + 1) (matchContainer type opening closing entry) := by
  intro l jo hl hn
  refine (metered_peek hl).bind_free fun l₁ c _ hl₁ hleft₁ => ?_
  have hleft₁ : l₁.slen - l₁.pos ≤ l.slen - l.pos := hleft₁
  split
  · exact takes_errAt hl₁ _
  refine Metered.get_bind ?_
  refine (takes_containerLoop hentry hl₁ (by omega) (by omega)).bind_free fun l₂ jo _ hl₂ _ => ?_
  refine (metered_peek hl₂).bind_free fun l₃ c _ hl₃ _ => ?_
  split
  · exact takes_errAt hl₃ _
  · exact (metered_nextEx hl₃ true).bind_free fun _ _ _ hl' _ => metered_pure hl' _

/-- The values that are not containers need no fuel of their own. -/
theorem metes_other (hvalue : Metes n value) : Metes (n + 1) (matchOther anyText value) := by
  intro l jo hl hn
  refine (metered_peek hl).bind_free fun l₁ c _ hl₁ hleft => ?_
  have hn₁ : l₁.slen - l₁.pos < n + 1 := lt_of_le_of_lt hleft hn
  repeat' split
  · exact metes_container (metes_member hvalue) l₁ jo hl₁ hn₁
  · exact metes_container (metes_elem hvalue) l₁ jo hl₁ hn₁
  · exact takes_matchSeq hl₁ jo
  · exact takes_matchSeq hl₁ jo
  · exact takes_matchSeq hl₁ jo
  · exact takes_errAt hl₁ _

/-- A value is matched with a fuel of what is left of the text: each level of containers takes one
and passes a bracket. -/
theorem metes_value : ∀ n : Nat, Metes n (matchValue anyText n)
  | 0, _, _, _, hn => absurd hn (Nat.not_lt_zero _)
  | n + 1, l, jo, hl, hn => by
    refine (takes_matchStringFirst hl).bind_free fun l₁ first _ hl₁ hleft₁ => ?_
    split
    · exact takes_matchString hl₁ jo
    refine (takes_matchNumberFirst hl₁).bind_free fun l₂ first _ hl₂ hleft₂ => ?_
    split
    · exact takes_matchNumber hl₂ jo
    · exact metes_other (metes_value n) l₂ jo hl₂ (lt_of_le_of_lt (hleft₂.trans hleft₁) hn)

/-! ## 3. A parse -/

theorem takes_warnRest (hl : Inside l) : Takes l 0 warnRest := by
  refine (metered_eot hl).bind_free fun l₁ e _ hl₁ _ => ?_
  split
  · exact metered_pure hl₁ _
  · exact (metered_lookahead hl₁).bind_free fun _ _ _ hl' _ => metered_pure hl' _

/-- A text is parsed within its bounds, from the first character to the warning about what is behind
the container. -/
theorem takes_parseText (hl : Inside l) (jo : Option Json) : Takes l 0 (parseText anyText jo) := by
  refine (metered_eatWs hl).bind_free fun l₁ ok _ hl₁ _ => ?_
  split
  · refine Metered.get_bind ((metered_peek hl₁).bind_free fun l₂ c hpeek hl₂ _ => ?_)
    obtain ⟨rfl, -⟩ : l₁ = l₂ ∧ _ := by simpa using hpeek
    have hn : l₁.slen - l₁.pos < l₁.slen + 1 := by omega
    have hvalue : Metes l₁.slen (matchValue anyText l₁.slen) := metes_value l₁.slen
    split
    · refine (metes_container (metes_member hvalue) l₁ jo hl₁ hn).bind_free fun l₃ jo _ hl₃ _ => ?_
      exact (takes_warnRest hl₃).bind_free fun _ _ _ hl' _ => metered_pure hl' _
    split
    · refine (metes_container (metes_elem hvalue) l₁ jo hl₁ hn).bind_free fun l₃ jo _ hl₃ _ => ?_
      exact (takes_warnRest hl₃).bind_free fun _ _ _ hl' _ => metered_pure hl' _
    · exact takes_err hl₁ _
  · exact takes_err hl₁ _

/-- A run over a text of `len` characters ends with a tree or with an error, having looked at no
buffer that was not written; its cursor goes forward within the text, and it looks at no character
behind the terminating NUL, which is the one at `len`. -/
structure Bounded (len : Nat) (run : List Event × Res (Option Json)) : Prop where
  ends : ∀ e, run.2 = .error e → ¬ Fatal e
  written : .stale ∉ run.1
  forward : (moves run.1).Pairwise (· ≤ ·)
  within : ∀ p ∈ moves run.1, p ≤ len
  inside : ∀ i j, .read i j ∈ run.1 → j ≤ len

/-- What the log of a metered run says: no fatal end, and the cursor has gone forward to a place
inside the text. -/
theorem takes_log {k : Nat} {w : Parser (Option Json)} (h : Takes l k w) :
    (∀ e, (w l).2 = .error e → ¬ Fatal e) ∧ ∃ l', Inside l' ∧ Forward l (w l).1 l' := by
  cases hw : (w l).2 with
  | ok p =>
    obtain ⟨hinv, -, hlog⟩ := h.ok p.1 p.2 hw
    exact ⟨fun e he => (by cases he), p.1, hinv, hlog⟩
  | error e =>
    obtain ⟨hne, l', hinv, hlog⟩ := h.stop e hw
    exact ⟨fun e' he => Except.error.inj he ▸ hne, l', hinv, hlog⟩

/-- **A parse ends, and stays within its text**, with a tree to be built or without one, if it looks
at no buffer that was not written. -/
theorem bounded_anyText {json : List Char} {jo : Option Json}
    (hwritten : .stale ∉ (doParse anyText json jo).1) :
    Bounded (cString json).length (doParse anyText json jo) := by
  have hnew : Inside (Lexer.new json) := ⟨Nat.zero_le _, Nat.zero_le _⟩
  have htakes : Takes (Lexer.new json) 0 (parseText anyText jo) := takes_parseText hnew jo
  obtain ⟨hends, l', hl', hlog⟩ := takes_log htakes
  have htext : l'.slen = (cString json).length := congrArg List.length hlog.text
  refine ⟨fun e h => ?_, hwritten, hlog.sorted, fun p hp => ?_, fun i j hij => ?_⟩
  · cases hr : (parseText anyText jo (Lexer.new json)).2 with
    | ok p =>
      simp only [doParse, hr] at h
      cases h
    | error e' =>
      simp only [doParse, hr] at h
      exact Except.error.inj h ▸ hends e' hr
  · exact htext ▸ (hlog.within p hp).2.trans hl'.1
  · rcases List.mem_cons.mp hij with hij | hij
    · exact (Event.read.inj hij).2.le
    · exact hlog.inside i j hij

end

end Json.Watch

end Libu
