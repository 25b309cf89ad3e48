/-
# JSON: tokens that do not fit their buffers

`u_lexer_get_match` leaves the buffer of a caller unwritten when the match with the character behind
it does not fit `U_TOKEN_SZ` bytes, and all three callers read the buffer all the same.  A parse is
exact, then, as long as it comes to no such token.

* §1: where the number matchers end.  A token is told from the text alone: `Whole v x` is a number
  `v` that the character behind it does not go on.
* §2: `Comes` says of a text that reading it leads to an overlong token whose match is looked at,
  with nothing before it that the parser stops at.
* §3, §4: a run reads an unwritten buffer if (`comes_stale`) and only if (`stale_comes`) its text
  comes to an overlong token.
* §5: a run that reads none is the same whatever is in an unwritten buffer.
* §6: when a text is parsed exactly (`tokens_exact_iff`).
* §7: when a parse ends, within its text and its buffers (`parse_bounds_iff`).
-/
import Libu.Json.Bounds
import Libu.Json.Encode

namespace Libu.Json

open Verif Lexer

variable {l l' : Lexer} {c : Char} {v x : List Char}

/-! ## 1. Where a number ends -/

/-- `v` is a number, and with the next character of the text no number starts. -/
def Whole (v x : List Char) : Prop := Number v ∧ ∀ c ∈ x.head?, ∀ z, ¬ Number (v ++ c :: z)

/-- The steps of `u_json_match_number` up to the end of the number. -/
def numberRun (l : Lexer) : Res Lexer := matchInt l >>= fun l => matchFracOpt l >>= matchExpOpt

/-- What the character behind each part of a number is not: each of the parts is read as far as it
goes, so a number is whole only if none of them could go on. -/
structure PartsEnd (i f e x : List Char) : Prop where
  int : i ≠ ['0'] → Stops Char.isDigit (f ++ (e ++ x))
  noFrac : f = [] → Stops (· = '.') (e ++ x)
  frac : f ≠ [] → Stops Char.isDigit (e ++ x)
  noExp : e = [] → Stops (fun c => c = 'e' || c = 'E') x
  exp : e ≠ [] → Stops Char.isDigit x

/-- A text stops a class if its first character is not in it. -/
theorem stops_of_not {p : Char → Bool} (h : ∀ c y, x = c :: y → p c = true → False) :
    Stops p x := by
  cases x with
  | nil => exact stops_nil
  | cons c y => exact stops_cons.mpr (Bool.eq_false_iff.mpr (h c y rfl))

/-- Digits put behind digits are digits; only a zero alone takes none. The same holds of a fraction
and of an exponent (`FracPart.append_digit`, `ExpPart.append_digit`). -/
theorem IntPart.append_digit {i : List Char} (hi : IntPart i) (h0 : i ≠ ['0']) {c : Char}
    (hc : c.isDigit = true) : IntPart (i ++ [c]) := by
  cases hi with
  | zero => exact absurd rfl h0
  | pos hd hne hds => exact .pos hd hne (allIn_append.mpr ⟨hds, by simpa using hc⟩)

theorem FracPart.append_digit {f : List Char} (hf : FracPart f) (hne : f ≠ []) {c : Char}
    (hc : c.isDigit = true) : FracPart (f ++ [c]) := by
  cases hf with
  | none => exact absurd rfl hne
  | some hd hds => exact .some hd (allIn_append.mpr ⟨hds, by simpa using hc⟩)

theorem ExpPart.append_digit {e : List Char} (he : ExpPart e) (hne : e ≠ []) {c : Char}
    (hc : c.isDigit = true) : ExpPart (e ++ [c]) := by
  cases he with
  | none => exact absurd rfl hne
  | unsigned hl hd hds => exact .unsigned hl hd (allIn_append.mpr ⟨hds, by simpa using hc⟩)
  | signed hl hg hd hds => exact .signed hl hg hd (allIn_append.mpr ⟨hds, by simpa using hc⟩)

/-- A sign, or none, before the parts of a number makes a number. -/
theorem Number.of_parts {g i f e : List Char} (hg : g = [] ∨ g = ['-']) (hi : IntPart i)
    (hf : FracPart f) (he : ExpPart e) : Number (g ++ (i ++ (f ++ e))) := by
  rcases hg with rfl | rfl
  · have hnum : Number (i ++ (f ++ e)) := .unsigned hi hf he
    exact hnum
  · have hnum : Number ('-' :: (i ++ (f ++ e))) := .minus hi hf he
    exact hnum

/-- Every number is made of a sign, or none, and these parts. -/
theorem Number.parts (h : Number v) : ∃ g i f e, (g = [] ∨ g = ['-']) ∧ IntPart i ∧ FracPart f ∧
    ExpPart e ∧ v = g ++ (i ++ (f ++ e)) := by
  cases h with
  | unsigned hi hf he => exact ⟨[], _, _, _, .inl rfl, hi, hf, he, rfl⟩
  | minus hi hf he => exact ⟨['-'], _, _, _, .inr rfl, hi, hf, he, rfl⟩

/-- Behind a whole number, each part could only be gone on to another number. -/
theorem Whole.partsEnd {g i f e : List Char} (hg : g = [] ∨ g = ['-']) (hi : IntPart i)
    (hf : FracPart f) (he : ExpPart e)
    (h : ∀ c ∈ x.head?, ∀ z, ¬ Number (g ++ (i ++ (f ++ e)) ++ c :: z)) : PartsEnd i f e x := by
  have hmore : ∀ {c : Char} {y z : List Char}, x = c :: y →
      Number (g ++ (i ++ (f ++ (e ++ c :: z)))) → False := by
    intro c y z hx hnum
    refine h c (by rw [hx]; rfl) z ?_
    simpa using hnum
  have hexp : ∀ {c : Char}, c = 'e' ∨ c = 'E' → ExpPart (c :: ['0']) := fun hc =>
    .unsigned hc rfl allIn_nil
  have hfrac : FracPart ['.', '0'] := .some rfl allIn_nil
  have hlater : e ≠ [] → Stops Char.isDigit x := fun hne => stops_of_not fun c y hx hc =>
    hmore (z := []) hx (.of_parts hg hi hf (he.append_digit hne hc))
  have hfracEnd : f ≠ [] → Stops Char.isDigit (e ++ x) := by
    intro hne
    rcases he.head with rfl | ⟨c, ds, hc, rfl⟩
    · refine stops_of_not fun c y hx hc => hmore (z := []) hx ?_
      simpa using Number.of_parts hg hi (hf.append_digit hne hc) .none
    · exact stops_cons.mpr (by rcases hc with rfl | rfl <;> decide)
  refine ⟨fun hne => ?_, fun hnil => ?_, hfracEnd, fun hnil => ?_, hlater⟩
  · rcases hf.head with rfl | ⟨ds, rfl⟩
    · rcases he.head with rfl | ⟨c, ds, hc, rfl⟩
      · refine stops_of_not fun c y hx hc => hmore (z := []) hx ?_
        simpa using Number.of_parts hg (hi.append_digit hne hc) .none .none
      · exact stops_cons.mpr (by rcases hc with rfl | rfl <;> decide)
    · exact stops_cons.mpr (by decide)
  · subst hnil
    rcases he.head with rfl | ⟨c, ds, hc, rfl⟩
    · refine stops_of_not fun c y hx hc => hmore (z := ['0']) hx ?_
      obtain rfl : c = '.' := by simpa using hc
      simpa using Number.of_parts hg hi hfrac .none
    · exact stops_cons.mpr (by rcases hc with rfl | rfl <;> decide)
  · subst hnil
    refine stops_of_not fun c y hx hc => hmore (z := ['0']) hx ?_
    simpa using Number.of_parts hg hi hf (hexp (by simpa using hc))

/-- The digits of the integer part are read to their end, and a zero is read alone. -/
theorem matchDigits_partsEnd {i : List Char} (hi : IntPart i) (h : l.lookahead = i ++ x)
    (hx : i ≠ ['0'] → Stops Char.isDigit x) : matchDigits l l.peek = .ok (l.adv i.length) := by
  by_cases h0 : i = ['0']
  · subst h0
    rw [peek_of_cons h, matchDigits, if_pos rfl, nextOrErr_cons h]
    rfl
  · exact matchDigits_eq hi h (hx h0)

/-- A fraction is read to its end, and where there is none nothing is read. -/
theorem matchFracOpt_partsEnd {f : List Char} (hf : FracPart f) (h : l.lookahead = f ++ x)
    (hnone : f = [] → Stops (· = '.') x) (hsome : f ≠ [] → Stops Char.isDigit x) :
    matchFracOpt l = .ok (l.adv f.length) := by
  by_cases hf0 : f = []
  · subst hf0
    have hdot : l.peek ≠ '.' := by
      intro hdot
      obtain ⟨y, hy⟩ := exists_cons hdot (by decide)
      have hstop := hnone rfl
      rw [← List.nil_append x, ← h, hy, stops_cons] at hstop
      cases hstop
    rw [matchFracOpt, if_neg hdot]
    rfl
  · exact matchFracOpt_eq hf h (hsome hf0) fun h0 => absurd h0 hf0

/-- An exponent is read to its end, and where there is none nothing is read. -/
theorem matchExpOpt_partsEnd {e : List Char} (he : ExpPart e) (h : l.lookahead = e ++ x)
    (hnone : e = [] → Stops (fun c => c = 'e' || c = 'E') x) (hsome : e ≠ [] →
      Stops Char.isDigit x) :
    matchExpOpt l = .ok (l.adv e.length) := by
  by_cases he0 : e = []
  · subst he0
    have hexp : ¬ (l.peek = 'e' || l.peek = 'E') = true := by
      intro hexp
      have hnul : l.peek ≠ '\x00' := by
        intro hnul
        rw [hnul] at hexp
        exact absurd hexp (by decide)
      obtain ⟨y, hy⟩ := exists_cons rfl hnul
      have hstop := hnone rfl
      rw [← List.nil_append x, ← h, hy, stops_cons, hexp] at hstop
      cases hstop
    rw [matchExpOpt, if_neg hexp]
    rfl
  · exact matchExpOpt_eq he h (hsome he0) fun h0 => absurd h0 he0

/-- The number matchers go over the parts of a number, one after the other, and stop where the last
of them ends. -/
theorem numberRun_partsEnd {g i f e : List Char} (hg : g = [] ∨ g = ['-']) (hi : IntPart i)
    (hf : FracPart f) (he : ExpPart e) (hend : PartsEnd i f e x)
    (h : l.lookahead = g ++ (i ++ (f ++ (e ++ x)))) :
    numberRun l = .ok (l.adv (g ++ (i ++ (f ++ e))).length) := by
  have hint : matchInt l = .ok (l.adv (g.length + i.length)) := by
    rcases hg with rfl | rfl
    · obtain ⟨d, ds, hids, hd⟩ := hi.head
      have hminus : l.peek ≠ '-' := by
        rw [List.nil_append, hids] at h
        rw [peek_of_cons h]
        rintro rfl
        exact absurd hd (by decide)
      rw [matchInt, if_neg hminus, matchDigits_partsEnd hi h hend.int,
        List.length_nil, Nat.zero_add]
    · have hadv : (l.adv 1).lookahead = i ++ (f ++ (e ++ x)) := lookahead_adv_append (t := ['-']) h
      rw [matchInt, if_pos (peek_of_cons h), nextOrErr_cons h]
      change matchDigits (l.adv 1) (l.adv 1).peek = _
      rw [matchDigits_partsEnd hi hadv hend.int, adv_adv]
      rfl
  have hl₁ : (l.adv (g.length + i.length)).lookahead = f ++ (e ++ x) := by
    rw [← List.length_append]
    exact lookahead_adv_append (by simpa using h)
  rw [numberRun, hint, ok_bind, matchFracOpt_partsEnd hf hl₁ hend.noFrac hend.frac, ok_bind,
    matchExpOpt_partsEnd he (lookahead_adv_append hl₁) hend.noExp hend.exp]
  simp [Nat.add_assoc]

/-- The matchers go to the end of a whole number. -/
theorem Whole.run (h : Whole v x) (hl : l.lookahead = v ++ x) :
    numberRun l = .ok (l.adv v.length) := by
  obtain ⟨hnum, hmax⟩ := h
  obtain ⟨g, i, f, e, hg, hi, hf, he, rfl⟩ := hnum.parts
  exact numberRun_partsEnd hg hi hf he (Whole.partsEnd hg hi hf he hmax) (by simpa using hl)

/-- Behind the integer part there is no digit, unless it is a zero. -/
theorem matchDigits_stops (h : matchDigits l l.peek = .ok l') :
    l.peek = '0' ∨ Stops Char.isDigit l'.lookahead := by
  rw [matchDigits] at h
  split at h
  · next h0 => exact .inl h0
  split at h
  · obtain ⟨⟨l₁, c⟩, -, h⟩ := bind_eq_ok.mp h
    obtain rfl := Except.ok.inj h
    rw [lookahead_nextWhile]
    exact .inr stops_dropWhile
  · cases h

/-- The integer part is read to its end. -/
theorem matchDigits_ends (h : matchDigits l l.peek = .ok l') :
    ∃ i x, l.lookahead = i ++ x ∧ IntPart i ∧
    l' = l.adv i.length ∧ (i ≠ ['0'] → Stops Char.isDigit x) := by
  obtain ⟨i, x, hl, hi, rfl⟩ := matchDigits_sound h
  refine ⟨i, x, hl, hi, rfl, fun hne => ?_⟩
  rcases matchDigits_stops h with h0 | hstop
  · cases hi with
    | zero => exact absurd rfl hne
    | pos _ hd0 _ => exact absurd ((peek_of_cons hl).symm.trans h0) hd0
  · rwa [lookahead_adv_append hl] at hstop

/-- The integer part is read to its end, with the minus sign before it. -/
theorem matchInt_ends (h : matchInt l = .ok l') : ∃ g i x, (g = [] ∨ g = ['-']) ∧ IntPart i ∧
    l.lookahead = g ++ (i ++ x) ∧ l' = l.adv (g ++ i).length ∧
      (i ≠ ['0'] → Stops Char.isDigit x) := by
  rw [matchInt] at h
  split at h
  · next hminus =>
    obtain ⟨⟨l₁, c⟩, hnext, h⟩ := bind_eq_ok.mp h
    obtain ⟨a, y, hl, rfl, rfl, hadv⟩ := nextOrErr_ok hnext
    obtain rfl : a = '-' := (peek_of_cons hl).symm.trans hminus
    obtain ⟨i, x, hx, hi, rfl, hstop⟩ := matchDigits_ends h
    refine ⟨['-'], i, x, .inr rfl, hi, ?_, by rw [adv_adv, List.length_append]; rfl, hstop⟩
    rw [hl, ← hadv, hx]
    rfl
  · obtain ⟨i, x, hx, hi, rfl, hstop⟩ := matchDigits_ends h
    exact ⟨[], i, x, .inl rfl, hi, hx, rfl, hstop⟩

/-- The digits of an exponent are passed over as a class. -/
theorem matchExpDigits_ok (h : matchExpDigits l c = .ok l') : l' = l.nextWhile Char.isDigit := by
  rw [matchExpDigits] at h
  split at h
  · cases h
  · exact (Except.ok.inj h).symm

/-- The fraction is read to its end, or is none. -/
theorem matchFracOpt_ends (h : matchFracOpt l = .ok l') : ∃ f x, l.lookahead = f ++ x ∧ FracPart f ∧
    l' = l.adv f.length ∧ (f = [] → Stops (· = '.') x) ∧ (f ≠ [] → Stops Char.isDigit x) := by
  by_cases hdot : l.peek = '.'
  · obtain ⟨f, x, hl, hf, rfl⟩ := matchFracOpt_sound h
    rw [matchFracOpt, if_pos hdot, matchFrac, if_neg (by simp [hdot])] at h
    obtain ⟨⟨l₁, c⟩, hnext, h⟩ := bind_eq_ok.mp h
    obtain ⟨a, y, -, rfl, rfl, -⟩ := nextOrErr_ok hnext
    dsimp only at h
    split at h
    · cases h
    have hend := Except.ok.inj h
    refine ⟨f, x, hl, hf, rfl, ?_, fun _ => ?_⟩
    · rintro rfl
      have hpos : l.pos + 1 + _ = l.pos + 0 := congrArg Lexer.pos hend
      omega
    · rw [← lookahead_adv_append hl, ← hend, lookahead_nextWhile]
      exact stops_dropWhile
  · rw [matchFracOpt, if_neg hdot] at h
    obtain rfl := Except.ok.inj h
    refine ⟨[], l.lookahead, rfl, .none, rfl, fun _ => stops_of_not fun c y hy hc => ?_,
      fun h0 => ?_⟩
    · rw [peek_of_cons hy] at hdot
      exact hdot (by simpa using hc)
    · exact absurd rfl h0

/-- Where the digits of an exponent are matched, all of them are passed over, up to where no digit
follows. -/
theorem matchSigned_ok (h : matchSigned l = .ok l') :
    ∃ n, l' = (l.adv n).nextWhile Char.isDigit := by
  rw [matchSigned] at h
  split at h
  · obtain ⟨⟨l₁, c⟩, hnext, h⟩ := bind_eq_ok.mp h
    obtain ⟨a, y, -, rfl, -, -⟩ := nextOrErr_ok hnext
    exact ⟨1, matchExpDigits_ok h⟩
  · exact ⟨0, matchExpDigits_ok h⟩

/-- The exponent is read to its end, or is none. -/
theorem matchExpOpt_ends (h : matchExpOpt l = .ok l') : ∃ e x, l.lookahead = e ++ x ∧ ExpPart e ∧
    l' = l.adv e.length ∧ (e = [] → Stops (fun c => c = 'e' || c = 'E') x) ∧
      (e ≠ [] → Stops Char.isDigit x) := by
  by_cases he : l.peek = 'e' ∨ l.peek = 'E'
  · obtain ⟨e, x, hl, hexp, rfl⟩ := matchExpOpt_sound h
    have hnul : l.peek ≠ '\x00' := by
      intro hnul
      rw [hnul] at he
      exact absurd he (by decide)
    obtain ⟨y, hy⟩ := exists_cons rfl hnul
    rw [matchExpOpt_cons he hy] at h
    obtain ⟨n, hend⟩ := matchSigned_ok h
    refine ⟨e, x, hl, hexp, rfl, ?_, fun _ => ?_⟩
    · rintro rfl
      have hpos : l.pos + 0 = l.pos + 1 + n + _ := congrArg Lexer.pos hend
      omega
    · rw [← lookahead_adv_append hl, hend, lookahead_nextWhile]
      exact stops_dropWhile
  · rw [matchExpOpt, if_neg (by simpa using he)] at h
    obtain rfl := Except.ok.inj h
    refine ⟨[], l.lookahead, rfl, .none, rfl, fun _ => stops_of_not fun c y hy hc => ?_,
      fun h0 => ?_⟩
    · rw [peek_of_cons hy] at he
      exact he (by simpa using hc)
    · exact absurd rfl h0

/-- **The number matchers stop at the end of a whole number**, where they succeed. -/
theorem numberRun_whole (h : numberRun l = .ok l') :
    ∃ v x, l.lookahead = v ++ x ∧ Whole v x ∧ l' = l.adv v.length := by
  obtain ⟨l₁, hint, h⟩ := bind_eq_ok.mp h
  obtain ⟨l₂, hfrac, hexp⟩ := bind_eq_ok.mp h
  obtain ⟨g, i, y, hg, hi, hl, rfl, hint⟩ := matchInt_ends hint
  obtain ⟨f, y', hf', hf, rfl, hfrac⟩ := matchFracOpt_ends hfrac
  obtain ⟨e, x, he', he, rfl, hexp⟩ := matchExpOpt_ends hexp
  have hy : (l.adv (g ++ i).length).lookahead = y := lookahead_adv_append (by simpa using hl)
  have hy' : ((l.adv (g ++ i).length).adv f.length).lookahead = y' := lookahead_adv_append hf'
  obtain rfl : y = f ++ y' := hy.symm.trans hf'
  obtain rfl : y' = e ++ x := hy'.symm.trans he'
  refine ⟨g ++ (i ++ (f ++ e)), x, by simp [hl], ⟨.of_parts hg hi hf he, fun c hc z hnum => ?_⟩, ?_⟩
  · -- on this text the matchers would stop at two places
    obtain ⟨x, rfl⟩ : ∃ x', x = c :: x' := by
      cases x with
      | nil => cases hc
      | cons a x => exact ⟨x, by rw [Option.some.inj hc]⟩
    have hhead : ∀ {p : Char → Bool} {w : List Char}, Stops p (w ++ c :: x) → Stops p
      (w ++ c :: z) := by
      intro p w hstop
      cases w with
      | nil => exact hstop
      | cons a w => exact hstop
    have hend : PartsEnd i f e (c :: z) := by
      refine ⟨fun hne => ?_, fun hnil => hhead (hfrac.1 hnil), fun hne => hhead (hfrac.2 hne),
        fun hnil => hhead (w := []) (hexp.1 hnil), fun hne => hhead (w := []) (hexp.2 hne)⟩
      have hstop := hint hne
      rw [← List.append_assoc] at hstop ⊢
      exact hhead hstop
    let l₀ : Lexer := ⟨g ++ (i ++ (f ++ e)) ++ c :: z, 0, 0, 0⟩
    have hshort := numberRun_partsEnd (l := l₀) hg hi hf he hend (by simp [l₀, lookahead])
    have hlong := matchNumber_run (l := l₀) (x := []) hnum (by simp [l₀, lookahead])
      fun _ h => (by cases h)
    have hpos := congrArg Lexer.pos (Except.ok.inj (hshort.symm.trans hlong))
    simp [l₀] at hpos
  · simp [Nat.add_assoc]

/-! ## 2. Coming to an overlong token -/

/-- A token that does not fit its buffer with the character behind it. -/
def Overlong (v : List Char) : Prop := tokenSz ≤ v.length + 1

/-- There is room for a node below one at depth `d`, when a tree is built. -/
def Room (build : Bool) (d : Nat) : Prop := build = true → d + 1 < jsonMaxDepth

/-- **The text comes to an overlong token**: it starts with a front of the nonterminal, at depth
`d`, that goes up to an overlong token whose match is looked at, and all entries before it are
acceptable. Names and numbers are looked at in both modes, the value of a string when a tree is
built. -/
inductive Comes (build : Bool) : Sym → Nat → List Char → Prop
  | string {k v x : List Char} {d : Nat} : build = true → Chars codePlain v → Overlong v →
      Comes build (.value k) d ('"' :: (v ++ '"' :: x))
  | number {k v x : List Char} {d : Nat} : Whole v x → Overlong v → Comes build
    (.value k) d (v ++ x)
  | container {k y : List Char} {o : Bool} {d : Nat} : Comes build (.items o) d y →
      Comes build (.value k) d (opening o :: y)
  | element {y : List Char} {d : Nat} : Room build d → Comes build (.value []) (d + 1) y →
      Comes build (.entry false) d y
  | name {k x : List Char} {d : Nat} : Room build d → Chars codePlain k → Overlong k →
      Comes build (.entry true) d ('"' :: (k ++ '"' :: x))
  | member {k w w' y : List Char} {d : Nat} : Room build d → Chars codePlain k → ¬ Overlong k →
      AllIn isSpace w → AllIn isSpace w' → Comes build (.value k) (d + 1) y →
      Comes build (.entry true) d ('"' :: (k ++ '"' :: (w ++ ':' :: (w' ++ y))))
  | here {w y : List Char} {o : Bool} {d : Nat} : AllIn isSpace w → Comes build (.entry o) d y →
      Comes build (.items o) d (w ++ y)
  | later {w t w' y : List Char} {f : Forest JsonItem} {o : Bool} {d : Nat} : AllIn isSpace w →
      Derives code (.entry o) t f → f.AllAt (Accepts build) (d + 1) → AllIn isSpace w' →
      Comes build (.items o) d y → Comes build (.items o) d (w ++ (t ++ (w' ++ ',' :: y)))

/-- Reading the text `s` from its beginning comes to an overlong token. -/
def ComesToOverlong (build : Bool) (s : List Char) : Prop :=
  ∃ w o y, AllIn isSpace w ∧ s = w ++ opening o :: y ∧ Comes build (.items o) 0 y

/-- What is come to starts with a character that is neither white space nor a closing bracket. -/
theorem Comes.head {build : Bool} {sym : Sym} {d : Nat} {y : List Char} (h : Comes build sym d y) :
    (∀ o, sym ≠ .items o) → ∃ a z, y = a :: z ∧ isSpace a = false ∧ ∀ o, a ≠ closing o := by
  induction h with
  | string _ _ _ => exact fun _ => ⟨'"', _, rfl, by decide, fun o => by cases o <;> decide⟩
  | @number k v x d hv _ =>
    intro _
    obtain ⟨a, z, rfl, hsp, hclose⟩ := (Derives.number (D := code) (k := k) hv.1).value_head
    exact ⟨a, z ++ x, rfl, hsp, hclose⟩
  | @container k y o d _ _ =>
    exact fun _ => ⟨opening o, y, rfl, isSpace_opening o,
      fun o' => by cases o <;> cases o' <;> decide⟩
  | element _ _ ih => exact fun _ => ih fun o h => by cases h
  | name _ _ _ => exact fun _ => ⟨'"', _, rfl, by decide, fun o => by cases o <;> decide⟩
  | member _ _ _ _ _ _ _ => exact fun _ => ⟨'"', _, rfl, by decide, fun o => by cases o <;> decide⟩
  | here _ _ _ => exact fun h => absurd rfl (h _)
  | later _ _ _ _ _ _ => exact fun h => absurd rfl (h _)

/-! ## 3. An overlong token that is come to is read from an unwritten buffer -/

/-- What the code takes for the characters of a string has no DEL among them. -/
theorem Chars.clean (hv : Chars codePlain v) : del ∉ v := by
  induction hv with
  | nil => exact List.not_mem_nil
  | plain hc _ ih =>
    refine List.not_mem_cons_of_ne_of_not_mem ?_ ih
    rintro rfl
    exact absurd hc (by decide)
  | escape hc _ ih =>
    refine List.not_mem_cons_of_ne_of_not_mem (by decide) (List.not_mem_cons_of_ne_of_not_mem ?_ ih)
    rintro rfl
    exact absurd hc (by decide)
  | unicode _ hds _ ih =>
    refine List.not_mem_cons_of_ne_of_not_mem (by decide)
      (List.not_mem_cons_of_ne_of_not_mem (by decide) ?_)
    exact List.not_mem_append (fun hmem => absurd (hds del hmem) (by decide)) ih

theorem Chars.lenient (hv : Chars codePlain v) : Chars rfcPlain v :=
  hv.mono fun c hc => ((codePlain_iff c).mp hc).1

namespace Watch

open Logged Watched

/-- An overlong token does not fit the buffer, so it is not written. -/
theorem getMatch_overlong (hlong : Overlong v) (hr : l.rmatch = l.lmatch + v.length) :
    l.getMatch = none := by
  have hlen : tokenSz ≤ l.rmatch - l.lmatch + 1 := by
    rw [hr, Nat.add_sub_cancel_left]
    exact hlong
  rw [Lexer.getMatch, if_neg (by omega)]
  exact if_pos hlen

variable {junk : Bool → Lexer → Option (List Char)}

/-- Trimming a match that was not written looks at the buffer, in both modes. -/
theorem stale_trimMatch (h : l.getMatch = none) (build : Bool) :
    .stale ∈ (trimMatch junk build l).1 := by
  rw [trimMatch, get_bind]
  refine mem_bind_right getMatch_snd ?_
  rw [h]
  exact mem_bind_left (List.mem_singleton_self _)

/-- Storing a match that was not written looks at the buffer before it gives up. -/
theorem stale_store (h : l.getMatch = none) (jo : Json) (type : JsonType) :
    .stale ∈ (store junk jo type l).1 :=
  mem_bind_left (stale_trimMatch h true)

/-- Setting the name of a member to such a match looks at the buffer too. -/
theorem stale_setName (h : l.getMatch = none) (pair : Option Json) :
    .stale ∈ (setName junk pair l).1 :=
  mem_bind_left (stale_trimMatch h pair.isSome)

/-- A string that is overlong, in a tree that is built, is read from an unwritten buffer. -/
theorem stale_matchString (hv : Chars codePlain v) (hlong : Overlong v)
    (h : l.lookahead = '"' :: (v ++ '"' :: x)) (jo : Json) :
    .stale ∈ (matchString junk (some jo) l).1 := by
  have hadv : (l.adv 1).recordLmatch.lookahead = v ++ '"' :: x :=
    lookahead_adv_append (t := ['"']) h
  have hfuel : v.length < (l.adv 1).recordLmatch.slen + 1 := by
    have hle := @lookahead_length_le (l.adv 1).recordLmatch
    rw [hadv, List.length_append] at hle
    omega
  obtain ⟨_, hloop, rfl⟩ := (matchStringLoop_outcome hv.lenient hadv hfuel).ok hv.clean
  have hquote : ((l.adv 1).recordLmatch.adv v.length).recordRmatch.lookahead = '"' :: x :=
    lookahead_adv_append hadv
  unfold matchString
  refine mem_bind_right peek_snd ?_
  rw [if_neg (by simp [peek_of_cons h])]
  refine mem_bind_right (next_snd.trans (nextOrErr_cons h)) (mem_bind_right recordLmatch_snd ?_)
  rw [get_bind]
  refine mem_bind_right (matchStringLoop_snd.trans (congrArg moved hloop)) ?_
  refine mem_bind_right recordRmatch_snd ?_
  refine mem_bind_right (next_snd.trans (nextOrErr_cons hquote)) ?_
  exact stale_store (getMatch_overlong hlong rfl) jo .string

/-- A number that is overlong is read from an unwritten buffer in both modes. -/
theorem stale_matchNumber (hv : Whole v x) (hlong : Overlong v) (h : l.lookahead = v ++ x)
    (hl : l.lmatch = l.pos) (jo : Option Json) : .stale ∈ (matchNumber junk jo l).1 := by
  obtain ⟨l₁, hint, hrun⟩ := bind_eq_ok.mp (hv.run h)
  obtain ⟨l₂, hfrac, hexp⟩ := bind_eq_ok.mp hrun
  have hnone : (l.adv v.length).recordRmatch.getMatch = none :=
    getMatch_overlong hlong (show l.pos + v.length = l.lmatch + v.length by rw [hl])
  unfold matchNumber
  refine mem_bind_right (matchInt_snd.trans (congrArg moved hint)) ?_
  refine mem_bind_right (matchFracOpt_snd.trans (congrArg moved hfrac)) ?_
  refine mem_bind_right (matchExpOpt_snd.trans (congrArg moved hexp)) ?_
  refine mem_bind_right recordRmatch_snd ?_
  cases jo with
  | none => exact mem_bind_left (stale_trimMatch hnone false)
  | some jo => exact stale_store hnone jo .number

/-- What is matched between commas: a value, or a name and a value. -/
def matchEntry (o : Bool) (value : Option Json → Parser (Option Json)) :
    Option Json → Parser (Option Json) :=
  if o then matchMember noJunk value else matchElem value

variable {o build : Bool} {d n m : Nat} {k y : List Char} {jo : Option Json}

/-- Under watch, an entry is matched as it is without. -/
theorem matchEntry_snd :
    Erases (matchEntry o (matchValue noJunk n)) (Json.matchEntry o (Json.matchValue n)) := by
  cases o with
  | false => exact matchElem_snd (matchValue_snd n)
  | true => exact matchMember_snd (matchValue_snd n)

/-- Where the text comes to an overlong token, the matcher of the nonterminal reads an unwritten
buffer. -/
def Leads (build : Bool) : Sym → Nat → List Char → Prop
  | .value k, d, y => ∀ {n : Nat} {l : Lexer} {jo : Option Json}, l.lookahead = y → y.length ≤ n →
    Fresh jo d k → jo.isSome = build → .stale ∈ (matchValue noJunk n jo l).1
  | .entry o, d, y => ∀ {n : Nat} {l : Lexer} {jo : Option Json}, l.lookahead = y → y.length ≤ n →
    Open jo d → jo.isSome = build → .stale ∈ (matchEntry o (matchValue noJunk n) jo l).1
  | .items o, d, y =>
    ∀ {n m : Nat} {l : Lexer} {jo : Option Json} {a : Char}, l.lookahead = a :: y →
    y.length ≤ n → y.length < m → Open jo d → jo.isSome = build →
      .stale ∈ (containerLoop (closing o) (matchEntry o (matchValue noJunk n)) m jo l).1

theorem matchStringFirst_snd :
    (matchStringFirst l).2 = .ok (if l.peek = '"' then (l.recordLmatch, true) else (l, false)) := by
  rw [matchStringFirst, bind_snd, peek_snd, ok_bind]
  by_cases h : l.peek = '"'
  · rw [if_pos h, if_pos h]
    rfl
  · rw [if_neg h, if_neg h]
    rfl

theorem matchNumberFirst_snd : (matchNumberFirst l).2
    = .ok (if l.peek = '-' || l.peek.isDigit then (l.recordLmatch, true) else (l, false)) := by
  rw [matchNumberFirst, bind_snd, peek_snd, ok_bind]
  by_cases h : (l.peek = '-' || l.peek.isDigit) = true
  · rw [if_pos h, if_pos h]
    rfl
  · rw [if_neg h, if_neg h]
    rfl

/-- An overlong string as a value, when a tree is built. -/
theorem leads_string (hb : build = true) (hv : Chars codePlain v) (hlong : Overlong v) :
    Leads build (.value k) d ('"' :: (v ++ '"' :: x)) := by
  intro n l jo h hn _ hjo
  obtain ⟨n, rfl⟩ := Nat.exists_eq_succ_of_ne_zero (Nat.ne_zero_of_lt hn)
  obtain ⟨jo, rfl⟩ := Option.isSome_iff_exists.mp (hjo.trans hb)
  have hfirst : (matchStringFirst l).2 = .ok (l.recordLmatch, true) := by
    rw [matchStringFirst_snd, if_pos (peek_of_cons h)]
  rw [matchValue]
  refine mem_bind_right hfirst ?_
  exact stale_matchString (l := l.recordLmatch) hv hlong h jo

/-- An overlong number as a value, in both modes. -/
theorem leads_number (hv : Whole v x) (hlong : Overlong v) : Leads build (.value k) d (v ++ x) := by
  intro n l jo h hn _ _
  obtain ⟨a, z, rfl, ha⟩ := hv.1.head
  obtain ⟨n, rfl⟩ := Nat.exists_eq_succ_of_ne_zero (Nat.ne_zero_of_lt hn)
  have hquote : l.peek ≠ '"' := by
    rw [peek_of_cons h]
    rintro rfl
    exact absurd ha (by decide)
  have hfirst : (matchStringFirst l).2 = .ok (l, false) := by
    rw [matchStringFirst_snd, if_neg hquote]
  have hnumber : (matchNumberFirst l).2 = .ok (l.recordLmatch, true) := by
    rw [matchNumberFirst_snd, if_pos (by simpa [peek_of_cons h] using ha)]
  rw [matchValue]
  refine mem_bind_right hfirst (mem_bind_right hnumber ?_)
  exact stale_matchNumber (l := l.recordLmatch) hv hlong h rfl jo

/-- A new object is an open container once it has the type. -/
theorem open_setType (hfresh : Fresh jo d k) : Open (jo.map (·.setType (containerType o))) d := by
  intro j hj
  obtain ⟨j', hj', rfl⟩ := Option.map_eq_some_iff.mp hj
  obtain ⟨rfl, -, -⟩ := hfresh j' hj'
  exact ⟨rfl, by cases o <;> rfl⟩

/-- The loop of a container is come to, with the container open, from its opening bracket. -/
theorem leads_matchContainer (ih : Leads build (.items o) d y) (h : l.lookahead = opening o :: y)
    (hn : y.length ≤ n) (hfresh : Fresh jo d k) (hjo : jo.isSome = build) :
    .stale ∈ (matchContainer (containerType o) (opening o) (closing o)
      (matchEntry o (matchValue noJunk n)) jo l).1 := by
  have hfuel : y.length < l.slen + 1 := by
    have hle := @lookahead_length_le l
    rw [h, List.length_cons] at hle
    omega
  unfold matchContainer
  refine mem_bind_right peek_snd ?_
  rw [if_neg (by simp [peek_of_cons h]), get_bind]
  exact mem_bind_left (ih h hn hfuel (open_setType hfresh) (by rw [Option.isSome_map, hjo]))

/-- A container leads to what its entries lead to. -/
theorem leads_container (ih : Leads build (.items o) d y) :
    Leads build (.value k) d (opening o :: y) := by
  intro n l jo h hn hfresh hjo
  obtain ⟨n, rfl⟩ := Nat.exists_eq_succ_of_ne_zero (Nat.ne_zero_of_lt hn)
  have hpeek := peek_of_cons h
  have hfirst : (matchStringFirst l).2 = .ok (l, false) := by
    rw [matchStringFirst_snd, if_neg (by rw [hpeek]; cases o <;> decide)]
  have hnumber : (matchNumberFirst l).2 = .ok (l, false) := by
    rw [matchNumberFirst_snd, if_neg (by rw [hpeek]; cases o <;> decide)]
  have hloop := leads_matchContainer ih h (Nat.le_of_succ_le_succ hn) hfresh hjo
  rw [matchValue]
  refine mem_bind_right hfirst (mem_bind_right hnumber (mem_bind_right peek_snd ?_))
  rw [hpeek]
  cases o with
  | true => exact hloop
  | false => exact hloop

/-- The new node below a container at depth `d`, or none when nothing is built. -/
abbrev child (jo : Option Json) (d : Nat) : Option Json :=
  jo.map fun _ => ⟨⟨.unknown, [], [], d + 1, 0⟩, .nil⟩

/-- The new node has nothing in it yet, and one level less below it. -/
theorem fresh_child (hroom : Room jo.isSome d) : Fresh (child jo d) (d + 1) [] := by
  intro j hj
  obtain ⟨j', hj', rfl⟩ := Option.map_eq_some_iff.mp hj
  exact ⟨rfl, hroom (by rw [hj']; rfl), by decide⟩

/-- The node with its name set, if the name fits. -/
theorem fresh_named (hroom : Room jo.isSome d) (hshort : ¬ Overlong k) :
    Fresh ((child jo d).map fun j => { j with key := k }) (d + 1) k := by
  intro j hj
  obtain ⟨j', hj', rfl⟩ := Option.map_eq_some_iff.mp hj
  obtain ⟨rfl, hd, -⟩ := fresh_child hroom j' hj'
  exact ⟨rfl, hd, Nat.not_le.mp hshort⟩

/-- A new node is made where there is room. -/
theorem lift_newBelow (hopen : Open jo d) (hroom : Room jo.isSome d) :
    (lift (newBelow jo) l).2 = .ok (l, child jo d) := by
  have hgood : ∀ j ∈ jo, d + 1 < jsonMaxDepth := fun j hj =>
    hroom (by rw [Option.mem_def.mp hj]; rfl)
  obtain ⟨_, hnew, rfl⟩ := (newBelow_outcome hopen).ok hgood
  rw [lift_snd, hnew]
  rfl

/-- An element of an array leads to what its value leads to, one level further down. -/
theorem leads_element (hroom : Room build d) (ih : Leads build (.value []) (d + 1) y) :
    Leads build (.entry false) d y := by
  intro n l jo h hn hopen hjo
  subst hjo
  refine mem_bind_right (lift_newBelow hopen hroom) (mem_bind_left ?_)
  exact ih h hn (fresh_child hroom) Option.isSome_map

/-- The name of a member, as it is matched before there is a node for it. -/
theorem matchString_name (hk : Chars codePlain k) (h : l.lookahead = '"' :: (k ++ '"' :: x)) :
    (matchString noJunk none l).2 = .ok (afterString l k.length, none) := by
  rw [matchString_snd]
  obtain ⟨_, hstr, rfl⟩ := (matchString_outcome hk.lenient h none).ok
    ⟨hk.clean, fun j hj => by cases hj⟩
  exact hstr

/-- An overlong name is looked at before anything is known of the value. -/
theorem leads_name (hroom : Room build d) (hk : Chars codePlain k) (hlong : Overlong k) :
    Leads build (.entry true) d ('"' :: (k ++ '"' :: x)) := by
  intro n l jo h _ hopen hjo
  have hfirst : (matchStringFirst l).2 = .ok (l.recordLmatch, true) := by
    rw [matchStringFirst_snd, if_pos (peek_of_cons h)]
  refine mem_bind_right hfirst ?_
  refine mem_bind_right (matchString_name (l := l.recordLmatch) hk h) ?_
  refine mem_bind_right (lift_newBelow hopen (hjo ▸ hroom)) (mem_bind_left ?_)
  exact stale_setName (getMatch_overlong hlong rfl) _

/-- A member leads to what its value leads to, when its name fits. -/
theorem leads_member {w w' : List Char} (hroom : Room build d) (hk : Chars codePlain k)
    (hshort : ¬ Overlong k) (hw : AllIn isSpace w) (hw' : AllIn isSpace w')
    (hcomes : Comes build (.value k) (d + 1) y) (ih : Leads build (.value k) (d + 1) y) :
    Leads build (.entry true) d ('"' :: (k ++ '"' :: (w ++ ':' :: (w' ++ y)))) := by
  intro n l jo h hn hopen hjo
  have hfirst : (matchStringFirst l).2 = .ok (l.recordLmatch, true) := by
    rw [matchStringFirst_snd, if_pos (peek_of_cons h)]
  have hmatch : (afterString l.recordLmatch k.length).s.drop
    (afterString l.recordLmatch k.length).lmatch
      = k ++ '"' :: (w ++ ':' :: (w' ++ y)) := lookahead_adv_append (t := ['"']) h
  obtain ⟨_, hname, rfl⟩ := (setName_outcome (child jo d) hmatch rfl).ok
    fun j _ => Nat.not_le.mp hshort
  have hafter : (afterString l.recordLmatch k.length).lookahead = w ++ ':' :: (w' ++ y) :=
    lookahead_afterString (l := l.recordLmatch) h
  obtain ⟨l₁, htrail, hlook₁, -⟩ := trailingWs_eq (.inl hafter) hw (by decide)
  obtain ⟨a, z, rfl, ha, -⟩ := hcomes.head fun o ho => by cases ho
  obtain ⟨l₂, hskip, hlook₂, -⟩ := skipOrErr_cons hlook₁ (by simp)
  have hvalue : l₂.lookahead = a :: z := by
    rw [hlook₂, dropWhile_append (p := isSpace) hw']
    exact (stops_cons.mpr ha).dropWhile
  have hlen : (a :: z).length ≤ n := by
    simp only [List.length_cons, List.length_append] at hn ⊢
    omega
  refine mem_bind_right hfirst ?_
  refine mem_bind_right (matchString_name (l := l.recordLmatch) hk h) ?_
  refine mem_bind_right (lift_newBelow hopen (hjo ▸ hroom)) ?_
  refine mem_bind_right (setName_snd.trans (by rw [hname]; rfl)) ?_
  refine mem_bind_right (trailingWs_snd.trans (congrArg moved htrail)) (mem_bind_right peek_snd ?_)
  rw [peek_of_cons hlook₁, if_neg (by simp)]
  refine mem_bind_right (skip_snd.trans hskip) (mem_bind_left ?_)
  exact ih hvalue hlen (fresh_named (hjo ▸ hroom) hshort)
    (by rw [Option.isSome_map, Option.isSome_map, hjo])

/-- The turn of the loop that comes to the overlong token: what is before it in the container has
been read. -/
theorem leads_here {w : List Char} (hw : AllIn isSpace w) (hcomes : Comes build (.entry o) d y)
    (ih : Leads build (.entry o) d y) : Leads build (.items o) d (w ++ y) := by
  intro n m l jo a h hn hm hopen hjo
  obtain ⟨m, rfl⟩ := Nat.exists_eq_succ_of_ne_zero (Nat.ne_zero_of_lt hm)
  obtain ⟨b, z, rfl, hb, hclose⟩ := hcomes.head fun o' ho => by cases ho
  obtain ⟨l₁, hskip, hlook, -⟩ := skipOrErr_cons h (by simp)
  have hl₁ : l₁.lookahead = b :: z := by
    rw [hlook, dropWhile_append (p := isSpace) hw]
    exact (stops_cons.mpr hb).dropWhile
  have hlen : (b :: z).length ≤ n := by
    simp only [List.length_append] at hn
    omega
  refine mem_bind_right peek_snd (mem_bind_right (skip_snd.trans hskip) ?_)
  rw [peek_of_cons hl₁, if_neg (hclose o)]
  exact mem_bind_left (ih hl₁ hlen hopen hjo)

/-- A turn of the loop over an acceptable entry, behind which the overlong token is come to. -/
theorem leads_later {w t w' : List Char} {f : Forest JsonItem} (hw : AllIn isSpace w)
    (hd : Derives code (.entry o) t f) (hgood : f.AllAt (Accepts build) (d + 1))
    (hw' : AllIn isSpace w') (ih : Leads build (.items o) d y) :
    Leads build (.items o) d (w ++ (t ++ (w' ++ ',' :: y))) := by
  intro n m l jo a h hn hm hopen hjo
  obtain ⟨m, rfl⟩ := Nat.exists_eq_succ_of_ne_zero (Nat.ne_zero_of_lt hm)
  simp only [List.length_append, List.length_cons] at hn hm
  have hd' := hd.mono code_le_lenient
  obtain ⟨b, z, rfl, hb, hclose⟩ := hd'.entry_head
  obtain ⟨l₁, hskip, hlook, -⟩ := skipOrErr_cons h (by simp)
  have hl₁ : l₁.lookahead = (b :: z) ++ (w' ++ ',' :: y) := by
    rw [hlook, dropWhile_append (p := isSpace) hw]
    exact (stops_cons.mpr hb).dropWhile
  obtain ⟨c, u, hu, hc⟩ : ∃ c u, w' ++ ',' :: y = c :: u ∧ follows c = true := by
    cases w' with
    | nil => exact ⟨',', y, rfl, by decide⟩
    | cons c w' =>
      have hc := (allIn_cons.mp hw').1
      exact ⟨c, w' ++ ',' :: y, rfl, by rw [follows, hc]; rfl⟩
  have hspec : EntrySpec o (b :: z) f := symSpec hd'
  have hgood : Good jo (d + 1) f := by
    rw [Good, hjo]
    exact hgood
  have hlen : (b :: z).length ≤ n := by omega
  obtain ⟨⟨l₂, jo₂⟩, hentry, -, hrest, happ⟩ := (hspec hlen (hu ▸ hl₁) hc hopen).ok hgood
  obtain ⟨l₃, htrail, hlook₃, -⟩ := trailingWs_eq (hu ▸ hrest) hw' (by decide)
  refine mem_bind_right peek_snd (mem_bind_right (skip_snd.trans hskip) ?_)
  rw [peek_of_cons hl₁, if_neg (hclose o)]
  refine mem_bind_right ((matchEntry_snd l₁ jo).trans hentry) ?_
  refine mem_bind_right (trailingWs_snd.trans (congrArg moved htrail)) (mem_bind_right peek_snd ?_)
  rw [peek_of_cons hlook₃, if_pos rfl]
  exact ih hlook₃ (by omega) (by omega) (happ.open hopen) (happ.isSome.trans hjo)

/-- **An overlong token that the text comes to is looked at in an unwritten buffer.** -/
theorem comes_leads {sym : Sym} (h : Comes build sym d y) : Leads build sym d y := by
  induction h with
  | string hb hv hlong => exact leads_string hb hv hlong
  | number hv hlong => exact leads_number hv hlong
  | container _ ih => exact leads_container ih
  | element hroom _ ih => exact leads_element hroom ih
  | name hroom hk hlong => exact leads_name hroom hk hlong
  | member hroom hk hshort hw hw' hcomes ih => exact leads_member hroom hk hshort hw hw' hcomes ih
  | here hw hcomes ih => exact leads_here hw hcomes ih
  | later hw hd hgood hw' _ ih => exact leads_later hw hd hgood hw' ih

/-! ## 4. What is read from an unwritten buffer is an overlong token that is come to -/

section

variable {α : Type}

/-- No step of the matchers looks at an unwritten buffer, except where a match is trimmed: the
lemmas below go through them one by one. -/
theorem silent_err (msg : String) : Silent (err msg : Parser α) := avoids_fail _

theorem silent_errAt (msg : String → String) : Silent (errAt msg : Parser α) :=
  silent_lookahead.bind fun _ => silent_err _

theorem silent_orEot (c : Option Char) : Silent (orEot c) := by
  cases c with
  | none => exact avoids_get.bind fun _ => silent_err _
  | some c => exact avoids_pure c

theorem silent_next : Silent next := (silent_nextEx false).bind fun c => silent_orEot c

theorem silent_skip : Silent skip := (silent_nextEx true).bind fun c => silent_orEot c

theorem silent_lift (r : Res α) : Silent (lift r) := fun _ => List.not_mem_nil

theorem silent_whileNext (p : Char → Bool) : ∀ (n : Nat) (c : Char), Silent (whileNext p n c)
  | 0, _ => avoids_fail _
  | n + 1, c => by
    rw [whileNext]
    split
    · exact silent_next.bind fun c => silent_whileNext p n c
    · exact avoids_pure c

theorem silent_whileDigit (c : Char) : Silent (whileDigit c) :=
  avoids_get.bind fun _ => (silent_whileNext _ _ _).bind fun _ => avoids_pure _

theorem silent_matchDigits (c : Char) : Silent (matchDigits c) := by
  unfold matchDigits
  split
  · exact silent_next.bind fun _ => avoids_pure _
  split
  · exact silent_next.bind fun c => silent_whileDigit c
  · exact silent_errAt _

theorem silent_matchInt : Silent matchInt := by
  refine silent_peek.bind fun c => ?_
  split
  · exact silent_next.bind fun c => silent_matchDigits c
  · exact silent_matchDigits c

theorem silent_matchFracOpt : Silent matchFracOpt := by
  refine silent_peek.bind fun c => ?_
  split
  · refine silent_peek.bind fun c => ?_
    split
    · exact silent_errAt _
    refine silent_next.bind fun c => ?_
    split
    · exact silent_errAt _
    · exact silent_whileDigit c
  · exact avoids_pure _

theorem silent_matchExpDigits (c : Char) : Silent (matchExpDigits c) := by
  unfold matchExpDigits
  split
  · exact silent_errAt _
  · exact silent_whileDigit c

theorem silent_matchExpOpt : Silent matchExpOpt := by
  refine silent_peek.bind fun c => ?_
  split
  · refine silent_peek.bind fun c => ?_
    split
    · exact silent_errAt _
    refine silent_next.bind fun c => ?_
    split
    · exact silent_next.bind fun c => silent_matchExpDigits c
    · exact silent_matchExpDigits c
  · exact avoids_pure _

theorem silent_matchSeqLoop : ∀ rem : List Char, Silent (matchSeqLoop rem)
  | [] => avoids_pure _
  | x :: rem => by
    refine silent_skip.bind fun c => ?_
    split
    · exact silent_errAt _
    · exact silent_matchSeqLoop rem

theorem silent_matchSeq (type : JsonType) (first : Char) (rem : List Char) (jo : Option Json) :
    Silent (matchSeq type first rem jo) := by
  refine silent_peek.bind fun c => ?_
  split
  · exact silent_errAt _
  · exact (silent_matchSeqLoop rem).bind fun _ => silent_skip.bind fun _ => avoids_pure _

theorem silent_matchHexLoop : ∀ n : Nat, Silent (matchHexLoop n)
  | 0 => avoids_pure _
  | n + 1 => by
    refine silent_next.bind fun c => ?_
    split
    · exact silent_err _
    · exact silent_matchHexLoop n

theorem silent_matchStringLoop : ∀ (n : Nat) (c : Char), Silent (matchStringLoop n c)
  | 0, _ => avoids_fail _
  | n + 1, c => by
    rw [matchStringLoop]
    split
    · exact avoids_pure _
    split
    · refine silent_next.bind fun c => ?_
      split
      · exact (silent_matchHexLoop 4).bind fun _ => silent_matchStringLoop n c
      split
      · exact silent_next.bind fun c => silent_matchStringLoop n c
      · exact silent_err _
    split
    · exact silent_err _
    · exact silent_next.bind fun c => silent_matchStringLoop n c

theorem silent_trailingWs : Silent trailingWs := by
  refine silent_peek.bind fun c => ?_
  split
  · exact silent_skip.bind fun _ => avoids_pure _
  · exact avoids_pure _

theorem silent_matchStringFirst : Silent matchStringFirst := by
  refine silent_peek.bind fun c => ?_
  split
  · exact (avoids_modify _).bind fun _ => avoids_pure _
  · exact avoids_pure _

theorem silent_matchNumberFirst : Silent matchNumberFirst := by
  refine silent_peek.bind fun c => ?_
  split
  · exact (avoids_modify _).bind fun _ => avoids_pure _
  · exact avoids_pure _

end

/-- A string is matched, and only then stored, so the two can be looked at one after the other. -/
theorem matchString_some (jo : Json) : matchString junk (some jo)
    = matchString junk none >>= fun _ => store junk jo .string := by
  unfold matchString
  rw [bind_assoc]
  refine bind_congr fun c => ?_
  split
  · rfl
  · simp only [bind_assoc, pure_bind]

/-- A string that is not stored is not looked at again. -/
theorem silent_matchString : Silent (matchString junk none) := by
  unfold matchString
  refine silent_peek.bind fun c => ?_
  split
  · exact silent_errAt _
  refine silent_next.bind fun c => (avoids_modify _).bind fun _ => avoids_get.bind fun l => ?_
  refine (silent_matchStringLoop _ c).bind fun _ => (avoids_modify _).bind fun _ => ?_
  exact silent_next.bind fun _ => avoids_pure _

/-- Where an unwritten buffer is looked at, the match has not been written. -/
theorem getMatch_of_stale {build : Bool} (h : .stale ∈ (trimMatch junk build l).1) :
    l.getMatch = none := by
  rw [trimMatch, get_bind] at h
  obtain ⟨l', m, hm, h⟩ := silent_getMatch.mem_bind h
  rw [getMatch_snd, Except.ok.injEq, Prod.mk.injEq] at hm
  obtain ⟨-, rfl⟩ := hm
  cases hmatch : l.getMatch with
  | none => rfl
  | some m =>
    rw [hmatch] at h
    exact absurd h (avoids_pure _ l')

/-- A match that was not written is an overlong token. -/
theorem overlong_of_getMatch (h : l.getMatch = none) (hr : l.rmatch = l.lmatch + v.length) :
    Overlong v := by
  by_contra hshort
  rw [Overlong, Nat.not_le] at hshort
  have hlen : l.rmatch - l.lmatch + 1 = v.length + 1 := by omega
  rw [Lexer.getMatch, if_neg (by omega)] at h
  simp only [hlen, if_neg (Nat.not_le.mpr hshort)] at h
  cases h

theorem getMatch_of_store {jo : Json} {type : JsonType} (h : .stale ∈ (store junk jo type l).1) :
    l.getMatch = none := by
  rcases mem_bind h with h | ⟨l', m, -, h⟩
  · exact getMatch_of_stale h
  · exact absurd h (((silent_lift _).bind fun jo => avoids_pure (some jo)) l')

theorem getMatch_of_setName {pair : Option Json} (h : .stale ∈ (setName junk pair l).1) :
    l.getMatch = none := by
  rcases mem_bind h with h | ⟨l', m, -, h⟩
  · exact getMatch_of_stale h
  · cases pair with
    | none => exact absurd h (avoids_pure _ l')
    | some pair => exact absurd h (((silent_lift _).bind fun pair => avoids_pure (some pair)) l')

theorem moved_ok {r : Res Lexer} (h : moved r = .ok (l', ())) : r = .ok l' := by
  cases r with
  | error e => cases h
  | ok l₀ => rw [(Prod.mk.inj (Except.ok.inj h)).1]

/-- A run of the string matcher that looks at an unwritten buffer has come to an overlong string,
and builds a tree. -/
theorem found_string (h : .stale ∈ (matchString noJunk jo l).1) : jo.isSome = true ∧
    ∃ v x, l.lookahead = '"' :: (v ++ '"' :: x) ∧ Chars codePlain v ∧ Overlong v := by
  cases jo with
  | none => exact absurd h (silent_matchString l)
  | some jo =>
    rw [matchString_some] at h
    obtain ⟨l', jo', hstr, h⟩ := silent_matchString.mem_bind h
    rw [matchString_snd] at hstr
    obtain ⟨v, x, hl, hv, rfl⟩ := matchString_sound hstr
    exact ⟨rfl, v, x, hl, hv, overlong_of_getMatch (getMatch_of_store h) rfl⟩

/-- A run of the number matcher that looks at an unwritten buffer has come to an overlong number. -/
theorem found_number (h : .stale ∈ (matchNumber noJunk jo l).1) (hl : l.lmatch = l.pos) :
    ∃ v x, l.lookahead = v ++ x ∧ Whole v x ∧ Overlong v := by
  unfold matchNumber at h
  obtain ⟨l₁, _, hint, h⟩ := silent_matchInt.mem_bind h
  obtain ⟨l₂, _, hfrac, h⟩ := silent_matchFracOpt.mem_bind h
  obtain ⟨l₃, _, hexp, h⟩ := silent_matchExpOpt.mem_bind h
  have hrun : numberRun l = .ok l₃ := by
    rw [numberRun, moved_ok (matchInt_snd.symm.trans hint), ok_bind,
      moved_ok (matchFracOpt_snd.symm.trans hfrac), ok_bind, moved_ok
      (matchExpOpt_snd.symm.trans hexp)]
  obtain ⟨v, x, hlook, hv, rfl⟩ := numberRun_whole hrun
  obtain ⟨l₄, _, hrmatch, h⟩ := (avoids_modify Lexer.recordRmatch).mem_bind h
  obtain rfl : (l.adv v.length).recordRmatch = l₄ := (Prod.mk.inj (Except.ok.inj hrmatch)).1
  have hnone : (l.adv v.length).recordRmatch.getMatch = none := by
    cases jo with
    | none =>
      rcases mem_bind h with h | ⟨l', m, -, h⟩
      · exact getMatch_of_stale h
      · exact absurd h (avoids_pure _ l')
    | some jo => exact getMatch_of_store h
  refine ⟨v, x, hlook, hv, overlong_of_getMatch hnone ?_⟩
  exact (congrArg (· + v.length) hl).symm

/-- Where a value matcher reads an unwritten buffer, it has come to an overlong token. -/
def FoundValue (n : Nat) : Prop :=
  ∀ {l : Lexer} {jo : Option Json} {d : Nat} {k : List Char}, l.lookahead.length ≤
  n → Fresh jo d k →
    .stale ∈ (matchValue noJunk n jo l).1 → Comes jo.isSome (.value k) d l.lookahead

/-- The node below a container, when it was made: there was room for it. -/
theorem newBelow_ok {elem : Option Json} (hopen : Open jo d) (h : newBelow jo = .ok elem) :
    Room jo.isSome d ∧ elem = child jo d := by
  have hout := newBelow_outcome hopen
  refine ⟨fun hsome => ?_, hout.post h⟩
  obtain ⟨j, hj⟩ := Option.isSome_iff_exists.mp hsome
  exact hout.good elem h j hj

theorem lift_ok {α : Type} {r : Res α} {a : α} (h : (lift r l).2 = .ok (l', a)) :
    l' = l ∧ r = .ok a := by
  cases r with
  | error e => cases h
  | ok b =>
    obtain ⟨rfl, rfl⟩ := Prod.mk.inj (Except.ok.inj h)
    exact ⟨rfl, rfl⟩

/-- An element that looks at an unwritten buffer comes to an overlong token; the induction is on the
fuel of its value. -/
theorem found_element (hval : FoundValue n) (hn : l.lookahead.length ≤ n) (hopen : Open jo d)
    (h : .stale ∈ (matchElem (matchValue noJunk n) jo l).1) :
    Comes jo.isSome (.entry false) d l.lookahead := by
  obtain ⟨l₁, elem, hlift, hvalue⟩ := (silent_lift _).mem_bind h
  obtain ⟨rfl, hnew⟩ := lift_ok hlift
  obtain ⟨hroom, rfl⟩ := newBelow_ok hopen hnew
  rcases mem_bind hvalue with hvalue | ⟨l₂, elem, -, hadd⟩
  · have hcomes := hval hn (fresh_child hroom) hvalue
    rw [Option.isSome_map] at hcomes
    exact .element hroom hcomes
  · exact absurd hadd (silent_lift _ l₂)

/-- What a member matcher reads from an unwritten buffer behind the name. -/
theorem found_member (hval : FoundValue n) (hn : l.lookahead.length ≤ n) (hopen : Open jo d)
    (h : .stale ∈ (matchMember noJunk (matchValue noJunk n) jo l).1) :
    Comes jo.isSome (.entry true) d l.lookahead := by
  obtain ⟨l₀, first, hfirst, hpair⟩ := silent_matchStringFirst.mem_bind h
  rw [matchStringFirst_snd, Except.ok.injEq] at hfirst
  split at hfirst
  swap
  · obtain ⟨rfl, rfl⟩ := Prod.mk.inj hfirst
    exact absurd hpair List.not_mem_nil
  obtain ⟨rfl, rfl⟩ := Prod.mk.inj hfirst
  obtain ⟨l₁, name, hstr, hrest⟩ := silent_matchString.mem_bind hpair
  rw [matchString_snd] at hstr
  obtain ⟨k, x, hl, hk, rfl⟩ := matchString_sound hstr
  obtain ⟨l₂, pair, hlift, hname⟩ := (silent_lift _).mem_bind hrest
  obtain ⟨rfl, hnew⟩ := lift_ok hlift
  obtain ⟨hroom, rfl⟩ := newBelow_ok hopen hnew
  have hl : l.lookahead = '"' :: (k ++ '"' :: x) := hl
  by_cases hlong : Overlong k
  · rw [hl]
    exact .name hroom hk hlong
  -- the name fits, and the value is come to
  have hmatch : (afterString l.recordLmatch k.length).s.drop
    (afterString l.recordLmatch k.length).lmatch
      = k ++ '"' :: x := lookahead_adv_append (t := ['"']) hl
  obtain ⟨_, hset, rfl⟩ := (setName_outcome (child jo d) hmatch rfl).ok
    fun j _ => Nat.not_le.mp hlong
  rcases mem_bind hname with hname | ⟨l₃, pair, hset', hname⟩
  · exact absurd (overlong_of_getMatch (getMatch_of_setName hname) rfl) hlong
  rw [setName_snd, hset] at hset'
  obtain ⟨rfl, rfl⟩ := Prod.mk.inj (Except.ok.inj hset')
  obtain ⟨l₄, _, htrail, hcolon⟩ := silent_trailingWs.mem_bind hname
  obtain ⟨hlook₄, -⟩ := trailingWs_sound (moved_ok (trailingWs_snd.symm.trans htrail))
    (.inl (lookahead_afterString (l := l.recordLmatch) hl))
  obtain ⟨l₅, c, hpeek, hskip⟩ := silent_peek.mem_bind hcolon
  obtain ⟨rfl, rfl⟩ := Prod.mk.inj (Except.ok.inj (peek_snd.symm.trans hpeek))
  split at hskip
  · exact absurd hskip (silent_errAt _ _)
  · next hpeek =>
    obtain ⟨l₆, c, hnext, hvalue⟩ := silent_skip.mem_bind hskip
    rw [skip_snd] at hnext
    obtain ⟨a, z, hl₄, -, hlook₆, -, -⟩ := skipOrErr_ok hnext
    obtain rfl : a = ':' := (peek_of_cons hl₄).symm.trans (not_not.mp hpeek)
    obtain ⟨w, hw, hx⟩ := exists_front isSpace x
    obtain ⟨w', hw', hz⟩ := exists_front isSpace z
    have htext : l.lookahead = '"' :: (k ++ '"' :: (w ++ ':' :: (w' ++ l₆.lookahead))) := by
      rw [hl, hx, ← hlook₄, hl₄, hlook₆, ← hz]
    have hlen : l₆.lookahead.length ≤ n := by
      rw [htext] at hn
      simp only [List.length_cons, List.length_append] at hn
      omega
    rcases mem_bind hvalue with hvalue | ⟨l₇, pair, -, hadd⟩
    · have hcomes := hval hlen (fresh_named hroom hlong) hvalue
      rw [Option.isSome_map, Option.isSome_map] at hcomes
      rw [htext]
      exact .member hroom hk hlong hw hw' hcomes
    · exact absurd hadd (silent_lift _ l₇)

/-- The same for an entry of either kind of container: one of its tokens is overlong. -/
theorem found_entry (hval : FoundValue n) (hn : l.lookahead.length ≤ n) (hopen : Open jo d)
    (h : .stale ∈ (matchEntry o (matchValue noJunk n) jo l).1) :
    Comes jo.isSome (.entry o) d l.lookahead := by
  cases o with
  | false => exact found_element hval hn hopen h
  | true => exact found_member hval hn hopen h

/-- The loop of a container, turn by turn: the entries it has passed are acceptable. -/
theorem found_loop (hval : FoundValue n) : ∀ {m : Nat} {l : Lexer} {jo : Option Json} {a : Char}
    {y : List Char}, l.lookahead = a :: y → y.length ≤ n → Open jo d →
      .stale ∈ (containerLoop (closing o) (matchEntry o (matchValue noJunk n)) m jo l).1 →
      Comes jo.isSome (.items o) d y
  | 0, _, _, _, _, _, _, _, h => absurd h List.not_mem_nil
  | m + 1, l, jo, a, y, hl, hn, hopen, h => by
    obtain ⟨l₀, _, hpeek, hskip⟩ := silent_peek.mem_bind h
    obtain ⟨rfl, -⟩ := Prod.mk.inj (Except.ok.inj (peek_snd.symm.trans hpeek))
    obtain ⟨l₁, c, hnext, hentry⟩ := silent_skip.mem_bind hskip
    rw [skip_snd] at hnext
    obtain ⟨a', y', hl', -, hlook₁, -, -⟩ := skipOrErr_ok hnext
    obtain ⟨-, rfl⟩ := List.cons.inj (hl.symm.trans hl')
    obtain ⟨w, hw, hy⟩ := exists_front isSpace y
    rw [← hlook₁] at hy
    have hlen₁ : l₁.lookahead.length ≤ n := by
      rw [hy, List.length_append] at hn
      omega
    split at hentry
    · exact absurd hentry (avoids_pure _ _)
    rcases mem_bind hentry with hentry | ⟨l₂, jo₂, hok, hrest⟩
    · rw [hy]
      exact .here hw (found_entry hval hlen₁ hopen hentry)
    rw [matchEntry_snd] at hok
    obtain ⟨t, x, f, hlt, hd, hr, -⟩ := entry_sound (valueSound n) hok
    obtain ⟨l₃, _, htrail, hcomma⟩ := silent_trailingWs.mem_bind hrest
    obtain ⟨hlook₃, -⟩ := trailingWs_sound (moved_ok (trailingWs_snd.symm.trans htrail)) hr
    obtain ⟨l₄, c, hpeek₃, hloop⟩ := silent_peek.mem_bind hcomma
    obtain ⟨rfl, rfl⟩ := Prod.mk.inj (Except.ok.inj (peek_snd.symm.trans hpeek₃))
    split at hloop
    swap
    · exact absurd hloop (avoids_pure _ _)
    next hc =>
    obtain ⟨z, hz⟩ := exists_cons hc (by decide)
    obtain ⟨w', hw', hx⟩ := exists_front isSpace x
    rw [← hlook₃, hz] at hx
    -- the entry is followed by white space or by the comma
    obtain ⟨b, u, hu, hb⟩ : ∃ b u, x = b :: u ∧ follows b = true := by
      rw [hx]
      cases w' with
      | nil => exact ⟨',', z, rfl, by decide⟩
      | cons b w' =>
        have hb := (allIn_cons.mp hw').1
        exact ⟨b, w' ++ ',' :: z, rfl, by rw [follows, hb]; rfl⟩
    have hlen : t.length ≤ n ∧ z.length ≤ n := by
      rw [hlt, hx] at hlen₁
      simp only [List.length_append, List.length_cons] at hlen₁
      omega
    have hspec : EntrySpec o t f := symSpec (hd.mono code_le_lenient)
    have hout := hspec (n := n) hlen.1 (hu ▸ hlt) hb hopen
    obtain ⟨-, -, happ⟩ := hout.post hok
    have hcomes := found_loop hval hz hlen.2 (happ.open hopen) hloop
    rw [happ.isSome] at hcomes
    rw [hy, hlt, hx]
    exact .later hw hd (hout.good _ hok) hw' hcomes

/-- The same for a container, whose loop has gone over acceptable entries before it came to the
overlong token. -/
theorem found_container (hval : FoundValue n) (hn : l.lookahead.length ≤ n + 1)
    (hfresh : Fresh jo d k) (h : .stale ∈ (matchContainer (containerType o) (opening o) (closing o)
      (matchEntry o (matchValue noJunk n)) jo l).1) :
    ∃ y, l.lookahead = opening o :: y ∧ Comes jo.isSome (.items o) d y := by
  obtain ⟨l₁, c, hpeek, hbody⟩ := silent_peek.mem_bind h
  obtain ⟨rfl, rfl⟩ := Prod.mk.inj (Except.ok.inj (peek_snd.symm.trans hpeek))
  split at hbody
  · exact absurd hbody (silent_errAt _ _)
  next hc =>
  obtain ⟨y, hy⟩ := exists_cons (not_not.mp hc) (by cases o <;> decide)
  refine ⟨y, hy, ?_⟩
  have hlen : y.length ≤ n := by
    rw [hy, List.length_cons] at hn
    omega
  rw [get_bind] at hbody
  rcases mem_bind hbody with hloop | ⟨l₂, jo₂, -, hend⟩
  · have hcomes := found_loop hval hy hlen (open_setType hfresh) hloop
    rwa [Option.isSome_map] at hcomes
  · refine absurd hend ((silent_peek.bind fun c => ?_) l₂)
    split
    · exact silent_errAt _
    · exact (silent_nextEx true).bind fun _ => avoids_pure _

/-- **What is looked at in an unwritten buffer is an overlong token the text comes to.** -/
theorem foundValue : ∀ n : Nat, FoundValue n
  | 0, l, jo, d, k, _, _, h => absurd h List.not_mem_nil
  | n + 1, l, jo, d, k, hn, hfresh, h => by
    obtain ⟨l₁, first, hfirst, hbody⟩ := silent_matchStringFirst.mem_bind h
    rw [matchStringFirst_snd, Except.ok.injEq] at hfirst
    split at hfirst
    · obtain ⟨rfl, rfl⟩ := Prod.mk.inj hfirst
      obtain ⟨hb, v, x, hl, hv, hlong⟩ := found_string hbody
      rw [show l.lookahead = '"' :: (v ++ '"' :: x) from hl]
      exact .string hb hv hlong
    obtain ⟨rfl, rfl⟩ := Prod.mk.inj hfirst
    obtain ⟨l₂, first, hnumber, hother⟩ := silent_matchNumberFirst.mem_bind hbody
    rw [matchNumberFirst_snd, Except.ok.injEq] at hnumber
    split at hnumber
    · obtain ⟨rfl, rfl⟩ := Prod.mk.inj hnumber
      obtain ⟨v, x, hl, hv, hlong⟩ := found_number hother rfl
      rw [show l.lookahead = v ++ x from hl]
      exact .number hv hlong
    obtain ⟨rfl, rfl⟩ := Prod.mk.inj hnumber
    obtain ⟨l₃, c, hpeek, hcase⟩ := silent_peek.mem_bind hother
    obtain ⟨rfl, rfl⟩ := Prod.mk.inj (Except.ok.inj (peek_snd.symm.trans hpeek))
    split at hcase
    · obtain ⟨y, hy, hcomes⟩ := found_container (o := true) (foundValue n) hn hfresh hcase
      rw [hy]
      exact .container hcomes
    split at hcase
    · obtain ⟨y, hy, hcomes⟩ := found_container (o := false) (foundValue n) hn hfresh hcase
      rw [hy]
      exact .container hcomes
    split at hcase
    · exact absurd hcase (silent_matchSeq _ _ _ _ _)
    split at hcase
    · exact absurd hcase (silent_matchSeq _ _ _ _ _)
    split at hcase
    · exact absurd hcase (silent_matchSeq _ _ _ _ _)
    · exact absurd hcase (silent_errAt _ _)

/-! ## 5. Unwritten buffers that are not read -/

/-- The same run, log and outcome, unless an unwritten buffer is looked at. -/
abbrev SameRun {α : Type} (w w' : Parser α) : Prop := SameUnless .stale w w'

/-- What is in an unwritten buffer is seen by nothing but trimming. -/
theorem same_trimMatch (build : Bool) :
    SameRun (trimMatch junk build) (trimMatch noJunk build) := by
  intro l
  rw [trimMatch, trimMatch, get_bind, get_bind]
  refine (SameUnless.refl getMatch).bind (fun m => ?_) l
  cases m with
  | some m => exact SameUnless.refl _
  | none => exact fun l => .inr ⟨mem_bind_left (List.mem_singleton_self _),
      mem_bind_left (List.mem_singleton_self _)⟩

/-- A match that is stored is the same whatever the buffers contain, unless it is looked at
unwritten. -/
theorem same_store (jo : Json) (type : JsonType) :
    SameRun (store junk jo type) (store noJunk jo type) :=
  (same_trimMatch true).bind fun _ => SameUnless.refl _

/-- A name that is set is the same whatever the buffers contain, with the same exception. -/
theorem same_setName (pair : Option Json) : SameRun (setName junk pair) (setName noJunk pair) :=
  (same_trimMatch _).bind fun _ => SameUnless.refl _

theorem same_matchNumber (jo : Option Json) :
    SameRun (matchNumber junk jo) (matchNumber noJunk jo) := by
  unfold matchNumber
  refine (SameUnless.refl _).bind fun _ => (SameUnless.refl _).bind fun _ =>
    (SameUnless.refl _).bind fun _ => (SameUnless.refl _).bind fun _ => ?_
  cases jo with
  | none => exact (same_trimMatch false).bind fun _ => SameUnless.refl _
  | some jo => exact same_store jo .number

theorem same_matchString (jo : Option Json) :
    SameRun (matchString junk jo) (matchString noJunk jo) := by
  cases jo with
  | none => exact SameUnless.refl _
  | some jo =>
    rw [matchString_some, matchString_some]
    exact (SameUnless.refl _).bind fun _ => same_store jo .string

variable {value value' entry entry' : Option Json → Parser (Option Json)}

/-- What is built of matches and names is the same as well; it is used for the values, by induction
on the nesting. -/
theorem same_matchElem (h : ∀ jo, SameRun (value jo) (value' jo)) (jo : Option Json) :
    SameRun (matchElem value jo) (matchElem value' jo) :=
  (SameUnless.refl _).bind fun elem => (h elem).bind fun _ => SameUnless.refl _

theorem same_matchMember (h : ∀ jo, SameRun (value jo) (value' jo)) (jo : Option Json) :
    SameRun (matchMember junk value jo) (matchMember noJunk value' jo) := by
  refine (SameUnless.refl _).bind fun first => ?_
  split
  swap
  · exact SameUnless.refl _
  refine (same_matchString none).bind fun _ => (SameUnless.refl _).bind fun pair =>
    (same_setName pair).bind fun pair => (SameUnless.refl _).bind fun _ =>
      (SameUnless.refl _).bind fun c => ?_
  split
  · exact SameUnless.refl _
  · exact (SameUnless.refl _).bind fun _ => (h pair).bind fun _ => SameUnless.refl _

theorem same_containerLoop {closing : Char} (h : ∀ jo, SameRun (entry jo) (entry' jo)) :
    ∀ (n : Nat) (jo : Option Json),
      SameRun (containerLoop closing entry n jo) (containerLoop closing entry' n jo)
  | 0, _ => SameUnless.refl _
  | n + 1, jo => by
    refine (SameUnless.refl _).bind fun _ => (SameUnless.refl _).bind fun c => ?_
    split
    · exact SameUnless.refl _
    refine (h jo).bind fun jo => (SameUnless.refl _).bind
      fun _ => (SameUnless.refl _).bind fun c => ?_
    split
    · exact same_containerLoop h n jo
    · exact SameUnless.refl _

theorem same_matchContainer {type : JsonType} {opening closing : Char}
    (h : ∀ jo, SameRun (entry jo) (entry' jo)) (jo : Option Json) :
    SameRun (matchContainer type opening closing entry jo)
      (matchContainer type opening closing entry' jo) := by
  refine (SameUnless.refl _).bind fun c => ?_
  split
  · exact SameUnless.refl _
  · refine (SameUnless.refl _).bind fun l => ?_
    exact (same_containerLoop h _ _).bind fun _ => SameUnless.refl _

/-- **Values are matched the same**, whatever is in a buffer that was not written, as long as none
is looked at. -/
theorem same_matchValue : ∀ (n : Nat) (jo : Option Json),
    SameRun (matchValue junk n jo) (matchValue noJunk n jo)
  | 0, _ => SameUnless.refl _
  | n + 1, jo => by
    refine (SameUnless.refl _).bind fun first => ?_
    split
    · exact same_matchString jo
    refine (SameUnless.refl _).bind fun first => ?_
    split
    · exact same_matchNumber jo
    refine (SameUnless.refl _).bind fun c => ?_
    split
    · exact same_matchContainer (same_matchMember (same_matchValue n)) jo
    split
    · exact same_matchContainer (same_matchElem (same_matchValue n)) jo
    · exact SameUnless.refl _

/-- **What is in an unwritten buffer matters to no parse that looks at none.** -/
theorem same_parseText (jo : Option Json) : SameRun (parseText junk jo) (parseText noJunk jo) := by
  refine (SameUnless.refl _).bind fun ok => ?_
  split
  swap
  · exact SameUnless.refl _
  refine (SameUnless.refl _).bind fun l => (SameUnless.refl _).bind fun c => ?_
  split
  · exact (same_matchContainer (same_matchMember (same_matchValue l.slen)) jo).bind fun _ =>
      SameUnless.refl _
  split
  · exact (same_matchContainer (same_matchElem (same_matchValue l.slen)) jo).bind fun _ =>
      SameUnless.refl _
  · exact SameUnless.refl _

/-! ## 6. When a text is parsed exactly -/

/-- A new object at the root when a tree is built, or none when the text is only validated. -/
def root (build : Bool) : Option Json := if build then some new else none

/-- `u_json_decode`, with what is found in a buffer that was not written. -/
def decode (junk : Bool → Lexer → Option (List Char)) (s : List Char) : Res Json :=
  (doParse junk s (root true)).2 >>= orErr

/-- `u_json_validate`, with what is found in a buffer that was not written. -/
def validate (junk : Bool → Lexer → Option (List Char)) (s : List Char) : Res Unit :=
  (doParse junk s (root false)).2 >>= fun _ => pure ()

variable {s : List Char} {f : Forest JsonItem}

/-- A parse looks at an unwritten buffer where the matchers do, with any contents of these buffers.
-/
theorem stale_doParse {jo : Option Json} :
    .stale ∈ (doParse junk s jo).1 ↔ .stale ∈ (parseText noJunk jo (Lexer.new s)).1 := by
  have hsame : SameRun (parseText junk jo) (parseText noJunk jo) := same_parseText jo
  rw [← hsame.mem_iff]
  exact List.mem_cons.trans (or_iff_right fun h => by cases h)

theorem isSome_root : (root build).isSome = build := by cases build <;> rfl

/-- **A parse looks at an unwritten buffer where its text comes to an overlong token, and nowhere
else.** -/
theorem stale_iff : .stale ∈ (doParse junk s (root build)).1 ↔
    ComesToOverlong build (cString s) := by
  have hlook : ((Lexer.new s).nextWhile isSpace).lookahead = (cString s).dropWhile isSpace :=
    lookahead_nextWhile isSpace
  have hlen : ((Lexer.new s).nextWhile isSpace).lookahead.length
      ≤ ((Lexer.new s).nextWhile isSpace).slen := lookahead_length_le
  have hfresh : Fresh (root build) 0 [] := fresh_root build
  rw [stale_doParse]
  constructor
  · intro h
    obtain ⟨l, ok, hws, hbody⟩ := silent_eatWs.mem_bind h
    obtain ⟨rfl, rfl⟩ := Prod.mk.inj (Except.ok.inj (eatWs_snd.symm.trans hws))
    rw [Lexer.eatWs] at hbody
    by_cases heot : (Lexer.new s).eot = true
    · rw [if_pos heot, if_neg Bool.false_ne_true] at hbody
      exact absurd hbody (silent_err _ _)
    rw [if_neg heot, if_pos rfl, get_bind] at hbody
    obtain ⟨l₁, c, hpeek, hcase⟩ := silent_peek.mem_bind hbody
    obtain ⟨rfl, rfl⟩ := Prod.mk.inj (Except.ok.inj (peek_snd.symm.trans hpeek))
    have hwarn : ∀ jo : Option Json, Silent (do warnRest; pure jo : Parser (Option Json)) := by
      refine fun jo => Avoids.bind (silent_eot.bind fun e => ?_) fun _ => avoids_pure _
      split
      · exact avoids_pure _
      · exact silent_lookahead.bind fun _ => avoids_pure _
    have hfound : ∀ o, .stale ∈ (matchContainer (containerType o) (opening o) (closing o)
        (matchEntry o (matchValue noJunk ((Lexer.new s).nextWhile isSpace).slen)) (root build)
        ((Lexer.new s).nextWhile isSpace)).1 → ComesToOverlong build (cString s) := by
      intro o h
      obtain ⟨y, hy, hcomes⟩ := found_container (foundValue _) (Nat.le_succ_of_le hlen) hfresh h
      obtain ⟨w, hw, hs⟩ := exists_front isSpace (cString s)
      rw [← hlook, hy] at hs
      rw [isSome_root] at hcomes
      exact ⟨w, o, y, hw, hs, hcomes⟩
    split at hcase
    · rcases mem_bind hcase with hcase | ⟨l₂, jo, -, hcase⟩
      · exact hfound true hcase
      · exact absurd hcase (hwarn jo l₂)
    split at hcase
    · rcases mem_bind hcase with hcase | ⟨l₂, jo, -, hcase⟩
      · exact hfound false hcase
      · exact absurd hcase (hwarn jo l₂)
    · exact absurd hcase (silent_err _ _)
  · rintro ⟨w, o, y, hw, hs, hcomes⟩
    have hfront : ((Lexer.new s).nextWhile isSpace).lookahead = opening o :: y := by
      rw [hlook, hs, dropWhile_append (p := isSpace) hw]
      exact (stops_cons.mpr (isSpace_opening o)).dropWhile
    have heot : (Lexer.new s).eot = false := by
      rw [← Bool.not_eq_true, eot_iff]
      intro hnil
      have hnil : cString s = [] := hnil
      rw [hs] at hnil
      simp at hnil
    have hws : (eatWs Fail.fuel (Lexer.new s)).2 = .ok ((Lexer.new s).nextWhile isSpace, true) := by
      rw [eatWs_snd, Lexer.eatWs, heot, if_neg Bool.false_ne_true]
    have hlen' : y.length ≤ ((Lexer.new s).nextWhile isSpace).slen := by
      rw [hfront, List.length_cons] at hlen
      omega
    have hloop := leads_matchContainer (comes_leads hcomes) hfront hlen' hfresh isSome_root
    refine mem_bind_right hws ?_
    rw [if_pos rfl, get_bind]
    refine mem_bind_right peek_snd ?_
    rw [peek_of_cons hfront]
    cases o with
    | true => exact mem_bind_left hloop
    | false => exact mem_bind_left hloop

/-- No string of a text that the matchers read has a DEL in it, so none of them is refused for that.
-/
theorem derives_clean {sym : Sym} {t : List Char} (h : Derives code sym t f) :
    NameLacks del sym → ∀ d, f.AllAt (Lacks del) d := by
  induction h with
  | string hv => exact fun hk d => ⟨⟨hk, hv.clean⟩, trivial, trivial⟩
  | number hv =>
    exact fun hk d => ⟨⟨hk, fun hmem => absurd (hv.chars del hmem) (by decide)⟩, trivial, trivial⟩
  | literal _ _ => exact fun hk d => ⟨⟨hk, List.not_mem_nil⟩, trivial, trivial⟩
  | container _ ih => exact fun hk d => ⟨⟨hk, List.not_mem_nil⟩, ih trivial (d + 1), trivial⟩
  | element _ ih => exact fun _ d => ih List.not_mem_nil d
  | member hk _ _ _ ih => exact fun _ d => ih hk.clean d
  | none _ => exact fun _ _ => trivial
  | last _ _ _ ih => exact fun _ d => ih trivial d
  | more _ _ _ _ _ ih ih' => exact fun _ d => Forest.allAt_append.mpr ⟨ih trivial d, ih' trivial d⟩

/-- The two interfaces, when no unwritten buffer is looked at, are what they are without the watch.
-/
theorem doParse_written (h : ¬ ComesToOverlong build (cString s)) :
    (doParse junk s (root build)).2 = Json.doParse s (root build) := by
  have hrun : SameRun (parseText junk (root build)) (parseText noJunk (root build)) :=
    same_parseText (root build)
  rw [← doParse_snd]
  rcases hrun (Lexer.new s) with hsame | ⟨hstale, -⟩
  · show ((parseText junk (root build) (Lexer.new s)).2.map Prod.snd) = _
    rw [hsame]
    rfl
  · exact absurd (stale_iff.mp (List.mem_cons_of_mem _ hstale)) h

/-- A text is parsed exactly: what is decoded from it is what it reads as; with a string or a number
that is too long it is refused; and no buffer is looked at that was not written.  All this whatever
is in an unwritten buffer. -/
structure TokensExact (s : List Char) : Prop where
  lexemes : ∀ junk jo, decode junk s = .ok jo → Reads code (cString s) jo.tree
  refused : ∀ f, Reads code (cString s) f → ¬ Short f →
    ∀ junk, (∀ jo, decode junk s ≠ .ok jo) ∧ validate junk s ≠ .ok ()
  written : ∀ junk build, .stale ∉ (doParse junk s (root build)).1

/-- **When a text is parsed exactly**: if neither mode comes to an overlong token, and no token is
too long in a text that is read to its end.  Tokens are then all looked at as they stand in the
text; an overlong one leaves its buffer as it was, and what is looked at is the token before it. -/
theorem tokens_exact_iff (s : List Char) : TokensExact s ↔
    (∀ build, ¬ ComesToOverlong build (cString s)) ∧ ∀ f, Reads code (cString s) f → Short f := by
  constructor
  · rintro ⟨-, hrefused, hwritten⟩
    refine ⟨fun build h => hwritten noJunk build (stale_iff.mpr h), fun f hf => ?_⟩
    by_contra hlong
    have hclean : Clean f := by
      obtain ⟨x, -, w, t, -, hd, -⟩ := hf
      exact derives_clean hd List.not_mem_nil 0
    obtain ⟨⟨⟩, hok, -⟩ := (validate_outcome (hf.mono code_le_lenient)).ok
      (accepts_false.mpr hclean)
    refine (hrefused f hf hlong noJunk).2 ?_
    rw [validate, doParse_snd]
    exact hok
  · rintro ⟨hcomes, hshort⟩
    refine ⟨fun junk jo h => ?_, fun f hf hlong => absurd (hshort f hf) hlong,
      fun junk build h => ?_⟩
    · rw [decode, doParse_written (hcomes true)] at h
      exact (decode_sound (s := s) h).1
    · exact hcomes build (stale_iff.mp h)

/-- An array of one string of 127 characters, which does not fit its buffer by one. -/
def longText : List Char := '[' :: '"' :: (List.replicate 127 'a' ++ ['"', ']'])

theorem chars_replicate (n : Nat) : Chars codePlain (List.replicate n 'a') := by
  induction n with
  | zero => exact .nil
  | succ n ih => exact .plain rfl ih

/-- Decoding `longText` looks at a buffer that was not written, so the text is not parsed exactly.
-/
theorem tokens_exact_long : ¬ TokensExact longText := by
  intro h
  have hstring : Comes true (.value []) 1 ('"' :: (List.replicate 127 'a' ++ '"' :: [']'])) :=
    .string rfl (chars_replicate 127) (by rw [Overlong, List.length_replicate]; decide)
  have hcomes : ComesToOverlong true (cString longText) :=
    ⟨[], false, _, allIn_nil, by decide, .here allIn_nil (.element (fun _ => by decide) hstring)⟩
  exact h.written noJunk true (stale_iff.mpr hcomes)

/-! ## 7. When a parse ends, within its text and its buffers -/

/-- Two runs that look at no unwritten buffer are the same, whatever is in them. -/
theorem doParse_anyText (h : ¬ ComesToOverlong build (cString s)) :
    doParse junk s (root build) = doParse anyText s (root build) := by
  have hsame : ∀ junk : Bool → Lexer → Option (List Char),
      parseText junk (root build) (Lexer.new s) = parseText noJunk (root build) (Lexer.new s) := by
    intro junk
    have hrun : SameRun (parseText junk (root build)) (parseText noJunk (root build)) :=
      same_parseText (root build)
    rcases hrun (Lexer.new s) with hsame | ⟨hstale, -⟩
    · exact hsame
    · exact absurd (stale_iff.mp (List.mem_cons_of_mem _ hstale)) h
  rw [doParse, doParse, hsame junk, hsame anyText]

/-- **A parse ends, and stays within its text and its buffers**, whatever is in an unwritten buffer,
for exactly the texts that lead to no overlong token whose match is looked at. -/
theorem parse_bounds_iff (s : List Char) (build : Bool) :
    (∀ junk, Bounded (cString s).length (doParse junk s (root build))) ↔
      ¬ ComesToOverlong build (cString s) := by
  constructor
  · intro h hcomes
    exact (h anyText).written (stale_iff.mpr hcomes)
  · intro hcomes junk
    rw [doParse_anyText hcomes]
    exact bounded_anyText fun hstale => hcomes (stale_iff.mp hstale)

/-- An array of one number of 127 digits, which does not fit its buffer by one. -/
def longNumber : List Char := '[' :: (List.replicate 127 '1' ++ [']'])

/-- Reading `longNumber` comes to an overlong token, in both modes. -/
theorem comes_longNumber (build : Bool) : ComesToOverlong build (cString longNumber) := by
  have hdigits : AllIn Char.isDigit (List.replicate 126 '1') := fun c hc => by
    rw [List.eq_of_mem_replicate hc]
    decide
  have hnumber : Number (List.replicate 127 '1') := by
    have hint : IntPart ('1' :: List.replicate 126 '1') := .pos (by decide) (by decide) hdigits
    simpa using Number.unsigned hint .none .none
  have hwhole : Whole (List.replicate 127 '1') [']'] := by
    refine ⟨hnumber, fun c hc z hlonger => ?_⟩
    obtain rfl : ']' = c := by simpa using hc
    exact absurd (hlonger.chars ']' (by simp)) (by decide)
  exact ⟨[], false, _, allIn_nil, by decide, .here allIn_nil (.element (fun _ => by decide)
    (.number (k := []) hwhole (by rw [Overlong, List.length_replicate]; decide)))⟩

/-- A validating parse of `longNumber` trims a buffer that was not written: if its first byte is
NUL, the parse stores before the buffer. -/
theorem not_bounded_longNumber :
    (doParse (fun _ _ => some []) longNumber (root false)).2 = .error .unwritten ∧
      ¬ Bounded (cString longNumber).length
        (doParse (fun _ _ => some []) longNumber (root false)) :=
  ⟨by decide +kernel, fun h => h.written (stale_iff.mpr (comes_longNumber false))⟩

end Watch

end Libu.Json
