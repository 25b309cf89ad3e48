/-
# Strings, numbers and literal names

What the terminal matchers read, in both directions.  Completeness is an outcome: on the lexeme of
the lenient grammar a matcher succeeds exactly when the lexeme is acceptable, and then stops right
behind it.  Soundness says that a matcher that succeeds has read a lexeme of the code's grammar.

The code's grammar is lenient where the matchers are: it has literal names with white space inside
and numbers that are not those of RFC 4627.  It is given on the text alone, so that the two
directions can be compared: the lexeme that a matcher has read is the one with which the text goes
on, and there is no other one.  What is too long for the token buffer is left out here, and is the
subject of `Libu.Json.Overlong`.
-/
import Libu.Json.Grammar

namespace Libu

open Verif

/-! ## 1. The lexer's steps -/

namespace Lexer

variable {l l' : Lexer} {c : Char} {x : List Char}

/-- `U_LEXER_NEXT` at a character of the text goes on to the next one, which may be the NUL. -/
theorem nextOrErr_cons (h : l.lookahead = c :: x) :
    l.nextOrErr = .ok (l.adv 1, (l.adv 1).peek) := by
  rw [nextOrErr, next_cons h]

/-- `U_LEXER_NEXT` succeeds at a character of the text only. -/
theorem nextOrErr_ok (h : l.nextOrErr = .ok (l', c)) :
    ∃ a x, l.lookahead = a :: x ∧ l' = l.adv 1 ∧ c = l'.peek ∧ l'.lookahead = x := by
  cases hx : l.lookahead with
  | nil =>
    rw [nextOrErr, next_nil hx] at h
    exact nomatch h
  | cons a x =>
    rw [nextOrErr_cons hx, Except.ok.injEq, Prod.mk.injEq] at h
    obtain ⟨rfl, rfl⟩ := h
    exact ⟨a, x, rfl, rfl, rfl, lookahead_adv_append (t := [a]) hx⟩

/-- `U_LEXER_SKIP` goes on behind white space; at the last character of the text it is an error. -/
theorem skipOrErr_cons (h : l.lookahead = c :: x) (hx : x ≠ []) :
    ∃ l', l.skipOrErr = .ok (l', l'.peek) ∧ l'.lookahead = x.dropWhile isSpace ∧ l'.s = l.s := by
  refine ⟨(l.adv 1).nextWhile isSpace, ?_, ?_, rfl⟩
  · rw [skipOrErr, skip_cons h hx]
  · rw [lookahead_nextWhile]
    exact congrArg (List.dropWhile isSpace) (lookahead_adv_append (t := [c]) h)

/-- `U_LEXER_SKIP` succeeds only where something is behind the character. -/
theorem skipOrErr_ok (h : l.skipOrErr = .ok (l', c)) :
    ∃ a x, l.lookahead = a :: x ∧ x ≠ [] ∧ l'.lookahead = x.dropWhile isSpace ∧ l'.s = l.s ∧
      c = l'.peek := by
  cases hx : l.lookahead with
  | nil =>
    rw [skipOrErr, skip_nil hx] at h
    exact nomatch h
  | cons a x =>
    by_cases hnil : x = []
    · rw [skipOrErr, skip_singleton (hnil ▸ hx)] at h
      exact nomatch h
    · obtain ⟨l₁, hskip, hlook, hs⟩ := skipOrErr_cons hx hnil
      rw [hskip, Except.ok.injEq, Prod.mk.injEq] at h
      obtain ⟨rfl, rfl⟩ := h
      exact ⟨a, x, rfl, hnil, hlook, hs, rfl⟩

end Lexer

namespace Json

open Lexer

variable {l l' : Lexer} {c : Char} {v x : List Char}

/-! ## 2. Strings -/

/-- The loop over hexadecimal digits passes as many as it is to pass. -/
theorem matchHexLoop_eq : ∀ {ds : List Char} {l : Lexer} {a : Char}, AllIn isXDigit ds →
    l.lookahead = a :: (ds ++ x) → matchHexLoop ds.length l = .ok (l.adv ds.length)
  | [], _, _, _, _ => rfl
  | d :: ds, l, a, hds, h => by
    obtain ⟨hd, hds⟩ := allIn_cons.mp hds
    have hadv : (l.adv 1).lookahead = d :: (ds ++ x) := lookahead_adv_append (t := [a]) h
    rw [List.length_cons, matchHexLoop, nextOrErr_cons h]
    change (if !isXDigit (l.adv 1).peek then _ else matchHexLoop ds.length (l.adv 1)) = _
    rw [peek_of_cons hadv, hd, matchHexLoop_eq hds hadv, adv_adv, Nat.add_comm 1]
    rfl

/-- A loop over hexadecimal digits that succeeds has passed as many as it was to pass. -/
theorem matchHexLoop_sound : ∀ {n : Nat} {l l' : Lexer}, matchHexLoop n l = .ok l' →
    l' = l.adv n ∧ ∃ a ds y, (0 < n → l.lookahead = a :: (ds ++ y)) ∧ ds.length = n ∧
      AllIn isXDigit ds
  | 0, l, l', h => by
    obtain rfl := Except.ok.inj h
    exact ⟨rfl, 'u', [], [], fun h => absurd h (lt_irrefl 0), rfl, allIn_nil⟩
  | n + 1, l, l', h => by
    obtain ⟨⟨l₁, c⟩, hnext, h⟩ := bind_eq_ok.mp h
    obtain ⟨a, y, hl, rfl, rfl, hadv⟩ := nextOrErr_ok hnext
    dsimp only at h
    cases hd : isXDigit (l.adv 1).peek with
    | false =>
      rw [hd] at h
      exact nomatch h
    | true =>
      rw [hd] at h
      obtain ⟨rfl, a', ds, y', hl', hlen, hds⟩ := matchHexLoop_sound (n := n) h
      refine ⟨by rw [adv_adv, Nat.add_comm], a, ?_⟩
      have hnul : (l.adv 1).peek ≠ '\x00' := by
        intro hnul
        rw [hnul] at hd
        exact absurd hd (by decide)
      obtain ⟨z, hz⟩ := exists_cons rfl hnul
      match n with
      | 0 =>
        refine ⟨[(l.adv 1).peek], z, fun _ => ?_, rfl, by simpa using hd⟩
        rw [hl, ← hadv, hz]
        rfl
      | n + 1 =>
        have hcons := hl' (Nat.succ_pos n)
        have hpeek : (l.adv 1).peek = a' := peek_of_cons hcons
        refine ⟨a' :: ds, y', fun _ => ?_, by rw [List.length_cons, hlen], ?_⟩
        · rw [hl, ← hadv, hcons]
          rfl
        · exact allIn_cons.mpr ⟨hpeek ▸ hd, hds⟩

/-- After an escaped unicode the loop passes over its last digit: the variable still has the `u`. -/
theorem matchStringLoop_u {n : Nat} (h : l.lookahead = c :: x) :
    matchStringLoop (n + 1) l 'u' = matchStringLoop n (l.adv 1) (l.adv 1).peek := by
  rw [matchStringLoop, if_neg (by decide), if_neg (by decide), if_neg (by decide),
    nextOrErr_cons h]
  rfl

/-- **The string loop on the characters of a string** stops at the closing quote, unless one of
them is a DEL. -/
theorem matchStringLoop_outcome (hv : Chars rfcPlain v) : ∀ {n : Nat} {l : Lexer},
    l.lookahead = v ++ '"' :: x → v.length < n →
    Outcome (matchStringLoop n l l.peek) (del ∉ v) (· = l.adv v.length) := by
  induction hv with
  | nil =>
    intro n l h hn
    obtain ⟨n, rfl⟩ := Nat.exists_eq_succ_of_ne_zero (Nat.ne_of_gt hn)
    rw [peek_of_cons h, matchStringLoop, if_pos rfl]
    exact (Outcome.pure (P := (· = l.adv 0)) rfl).congr (iff_of_true trivial List.not_mem_nil)
  | @plain c v hc _ ih =>
    intro n l h hn
    obtain ⟨n, rfl⟩ := Nat.exists_eq_succ_of_ne_zero (Nat.ne_zero_of_lt hn)
    have hcode := codePlain_iff c
    simp only [codePlain, ne_eq, decide_not, Bool.and_eq_true, Bool.not_eq_true',
      decide_eq_false_iff_not] at hcode
    have hquote : c ≠ '"' ∧ c ≠ '\\' := by
      simp only [rfcPlain, Bool.and_eq_true, decide_eq_true_eq] at hc
      exact ⟨hc.1.2, hc.2⟩
    rw [peek_of_cons h, matchStringLoop, if_neg hquote.1, if_neg hquote.2]
    by_cases hdel : c = del
    · rw [hdel, if_pos (by decide)]
      exact Outcome.error (by simp)
    · have hcntrl : isCntrl c = false := (hcode.mpr ⟨hc, hdel⟩).1.1
      rw [hcntrl, if_neg Bool.false_ne_true]
      have hadv : (l.adv 1).lookahead = v ++ '"' :: x := lookahead_adv_append (t := [c]) h
      refine .bind_of_eq (nextOrErr_cons h) ?_
      refine ((ih hadv (Nat.lt_of_succ_lt_succ hn)).congr ?_).imp ?_
      · rw [List.mem_cons, not_or]
        exact ⟨fun h => ⟨fun he => hdel he.symm, h⟩, fun h => h.2⟩
      · rintro l' rfl
        rw [adv_adv, List.length_cons, Nat.add_comm]
  | @escape c v hc _ ih =>
    intro n l h hn
    obtain ⟨n, rfl⟩ := Nat.exists_eq_succ_of_ne_zero (Nat.ne_zero_of_lt hn)
    have hadv : (l.adv 1).lookahead = c :: (v ++ '"' :: x) := lookahead_adv_append (t := ['\\']) h
    have hadv' : ((l.adv 1).adv 1).lookahead = v ++ '"' :: x := lookahead_adv_append (t := [c]) hadv
    have hu : c ≠ 'u' := by
      rintro rfl
      exact absurd hc (by decide)
    have hdel : c ≠ del := by
      rintro rfl
      exact absurd hc (by decide)
    rw [peek_of_cons h, matchStringLoop, if_neg (by decide), if_pos rfl]
    refine .bind_of_eq (nextOrErr_cons h) ?_
    dsimp only
    rw [peek_of_cons hadv, if_neg hu, if_pos hc]
    refine .bind_of_eq (nextOrErr_cons hadv) ?_
    refine ((ih hadv' (by simp only [List.length_cons] at hn; omega)).congr ?_).imp ?_
    · simp only [List.mem_cons, not_or]
      exact ⟨fun hv => ⟨by decide, hdel.symm, hv⟩, fun h => h.2.2⟩
    · rintro l' rfl
      rw [adv_adv, adv_adv, List.length_cons, List.length_cons]
      congr 1
      omega
  | @unicode ds v hlen hds _ ih =>
    intro n l h hn
    simp only [List.length_cons, List.length_append, hlen] at hn
    obtain ⟨n, rfl⟩ := Nat.exists_eq_add_of_le' (show 2 ≤ n by omega)
    have h' : l.lookahead = '\\' :: ('u' :: (ds ++ (v ++ '"' :: x))) := by simpa using h
    have hadv : (l.adv 1).lookahead = 'u' :: (ds ++ (v ++ '"' :: x)) :=
      lookahead_adv_append (t := ['\\']) h'
    have hhex : matchEscapedUnicode (l.adv 1) = .ok ((l.adv 1).adv 4) := by
      rw [matchEscapedUnicode, ← hlen]
      exact matchHexLoop_eq hds hadv
    have hlook : (((l.adv 1).adv 4).adv 1).lookahead = v ++ '"' :: x := by
      rw [adv_adv, ← hlen]
      exact lookahead_adv_append (t := 'u' :: ds) hadv
    obtain ⟨a, y, hcons⟩ : ∃ a y, ((l.adv 1).adv 4).lookahead = a :: y := by
      cases hnil : ((l.adv 1).adv 4).lookahead with
      | nil =>
        rw [lookahead_adv, hnil] at hlook
        simp at hlook
      | cons a y => exact ⟨a, y, rfl⟩
    rw [peek_of_cons h', matchStringLoop, if_neg (by decide), if_pos rfl]
    refine .bind_of_eq (nextOrErr_cons h') ?_
    dsimp only
    rw [peek_of_cons hadv, if_pos rfl]
    refine .bind_of_eq hhex ?_
    rw [matchStringLoop_u hcons]
    refine ((ih hlook (by omega)).congr ?_).imp ?_
    · have hnot : del ∉ ds := fun hmem => absurd (hds _ hmem) (by decide)
      simp only [List.mem_cons, List.mem_append, not_or]
      exact ⟨fun hv => ⟨by decide, by decide, hnot, hv⟩, fun h => h.2.2.2⟩
    · rintro l' rfl
      rw [adv_adv, adv_adv, adv_adv]
      simp only [List.length_cons, List.length_append, hlen]
      congr 1
      omega

/-- **What the string loop reads** are the characters of a string without DEL, up to a quote. -/
theorem matchStringLoop_sound : ∀ {n : Nat} {l l' : Lexer}, matchStringLoop n l l.peek = .ok l' →
    ∃ v x, l.lookahead = v ++ '"' :: x ∧ Chars codePlain v ∧ l' = l.adv v.length := by
  intro n
  induction n using Nat.strong_induction_on with
  | _ n ih =>
    intro l l' h
    match n with
    | 0 => exact nomatch h
    | n + 1 =>
      rw [matchStringLoop] at h
      by_cases hquote : l.peek = '"'
      · rw [if_pos hquote] at h
        obtain rfl := Except.ok.inj h
        obtain ⟨x, hx⟩ := exists_cons hquote (by decide)
        exact ⟨[], x, hx, .nil, rfl⟩
      rw [if_neg hquote] at h
      by_cases hback : l.peek = '\\'
      · rw [if_pos hback] at h
        obtain ⟨x, hx⟩ := exists_cons hback (by decide)
        obtain ⟨⟨l₁, c⟩, hnext, h⟩ := bind_eq_ok.mp h
        obtain ⟨a, y, hl, rfl, rfl, hadv⟩ := nextOrErr_ok hnext
        obtain ⟨rfl, rfl⟩ := List.cons.inj (hx.symm.trans hl)
        dsimp only at h
        by_cases hu : (l.adv 1).peek = 'u'
        · rw [if_pos hu] at h
          obtain ⟨l₂, hhex, h⟩ := bind_eq_ok.mp h
          obtain ⟨rfl, a, ds, y, hcons, hlen, hds⟩ := matchHexLoop_sound hhex
          have hcons := hcons (by decide)
          obtain rfl : a = 'u' := (peek_of_cons hcons).symm.trans hu
          -- the turn of the loop that passes over the last digit
          rw [hu] at h
          match n with
          | 0 => exact nomatch h
          | n + 1 =>
            have hlast : ((l.adv 1).adv 4).lookahead ≠ [] := by
              rw [lookahead_adv, hcons]
              intro hnil
              have := List.drop_eq_nil_iff.mp hnil
              simp only [List.length_cons, List.length_append] at this
              omega
            obtain ⟨d, z, hd⟩ := List.exists_cons_of_ne_nil hlast
            rw [matchStringLoop_u hd] at h
            obtain ⟨v, w, hw, hv, rfl⟩ := ih n (by omega) h
            have hlook : (((l.adv 1).adv 4).adv 1).lookahead = y := by
              rw [adv_adv, ← hlen]
              exact lookahead_adv_append (t := 'u' :: ds) hcons
            refine ⟨'\\' :: 'u' :: (ds ++ v), w, ?_, .unicode hlen hds hv, ?_⟩
            · rw [hx, ← hadv, hcons, ← hlook, hw]
              simp
            · rw [adv_adv, adv_adv, adv_adv]
              simp only [List.length_cons, List.length_append, hlen]
              congr 1
              omega
        · rw [if_neg hu] at h
          by_cases hesc : (l.adv 1).peek ∈ escapes
          · rw [if_pos hesc] at h
            obtain ⟨⟨l₂, c⟩, hnext', h⟩ := bind_eq_ok.mp h
            obtain ⟨a, y, hl', rfl, rfl, hadv'⟩ := nextOrErr_ok hnext'
            obtain ⟨v, w, hw, hv, rfl⟩ := ih n (by omega) h
            rw [peek_of_cons hl'] at hesc
            refine ⟨'\\' :: a :: v, w, ?_, .escape hesc hv, ?_⟩
            · rw [hx, ← hadv, hl', ← hadv', hw]
              rfl
            · rw [adv_adv, adv_adv, List.length_cons, List.length_cons]
              congr 1
              omega
          · rw [if_neg hesc] at h
            exact nomatch h
      rw [if_neg hback] at h
      cases hcntrl : isCntrl l.peek with
      | true =>
        rw [hcntrl] at h
        exact nomatch h
      | false =>
        rw [hcntrl] at h
        obtain ⟨⟨l₁, c⟩, hnext, h⟩ := bind_eq_ok.mp h
        obtain ⟨a, y, hl, rfl, rfl, hadv⟩ := nextOrErr_ok hnext
        obtain ⟨v, w, hw, hv, rfl⟩ := ih n (by omega) h
        rw [peek_of_cons hl] at hquote hback hcntrl
        have hplain : codePlain a = true := by simp [codePlain, hcntrl, hquote, hback]
        refine ⟨a :: v, w, ?_, .plain hplain hv, ?_⟩
        · rw [hl, ← hadv, hw]
          rfl
        · rw [adv_adv, List.length_cons, Nat.add_comm]

/-- No more is left than there was. -/
theorem lookahead_length_le : l.lookahead.length ≤ l.slen := by
  rw [lookahead, List.length_drop]
  exact Nat.sub_le ..

/-- The lexer behind a string of `n` characters, with its match between the quotes. -/
def afterString (l : Lexer) (n : Nat) : Lexer :=
  { l with pos := l.pos + n + 2, lmatch := l.pos + 1, rmatch := l.pos + 1 + n }

/-- The lexer behind a number of `n` characters, with its match and the character behind it. -/
def afterNumber (l : Lexer) (n : Nat) : Lexer := { l with pos := l.pos + n, rmatch := l.pos + n }

/-- Put a lexeme into the object, if there is one. -/
def fill (jo : Option Json) (type : JsonType) (val : List Char) : Option Json :=
  jo.map fun jo => { jo with type, val }

/-- A match is trimmed of its last character, when it fits the buffer. -/
theorem trimMatch_outcome (h : l.s.drop l.lmatch = v ++ c :: x)
    (hr : l.rmatch = l.lmatch + v.length) :
    Outcome (trimMatch l) (v.length + 1 < tokenSz) (· = v) := by
  have hmatch := @getMatch_eq l (v ++ [c]) x (by rw [h, List.append_assoc]; rfl)
    (by rw [hr, List.length_append]; rfl) (by simp)
  rw [List.length_append, List.length_singleton] at hmatch
  rw [trimMatch, hmatch]
  by_cases hlen : tokenSz ≤ v.length + 1
  · rw [if_pos hlen]
    exact Outcome.error (Nat.not_lt.mpr hlen)
  · have hdrop : (v ++ [c]).dropLast = v := List.dropLast_concat
    rw [if_neg hlen]
    exact (Outcome.pure (P := (· = v)) hdrop).congr (iff_of_true trivial (Nat.not_le.mp hlen))

/-- A match is stored if it fits its buffer. -/
theorem store_outcome {jo : Json} {type : JsonType} (htype : type = .string ∨ type = .number)
    (h : l.s.drop l.lmatch = v ++ c :: x) (hr : l.rmatch = l.lmatch + v.length) :
    Outcome (store l jo type) (v.length + 1 < tokenSz) (· = (l, fill (some jo) type v)) := by
  refine ((trimMatch_outcome h hr).bind ?_).congr (and_true _).to_iff
  rintro hshort m rfl
  have hcpy : strlcpy m = some m := if_pos (Nat.lt_of_succ_lt hshort)
  have hset : (jo.setType type).setVal m = some { jo with type, val := m } := by
    rcases htype with rfl | rfl <;> simp [setVal, setType, hcpy]
  rw [hset]
  exact Outcome.pure rfl

/-- A string is matched, and only then stored. -/
theorem matchString_some (jo : Json) :
    matchString l (some jo) = matchString l none >>= fun p => store p.1 jo .string := by
  unfold matchString
  split
  · rfl
  · simp only [bind_assoc]
    rfl

/-- **The string matcher** on a string of the lenient grammar: it succeeds unless there is a DEL in
it or, when a tree is built, it does not fit. -/
theorem matchString_outcome (hv : Chars rfcPlain v) (h : l.lookahead = '"' :: (v ++ '"' :: x))
    (jo : Option Json) :
    Outcome (matchString l jo) (del ∉ v ∧ ∀ j ∈ jo, v.length + 1 < tokenSz)
      (· = (afterString l v.length, fill jo .string v)) := by
  have hadv : (l.adv 1).lookahead = v ++ '"' :: x := lookahead_adv_append (t := ['"']) h
  have hnone : Outcome (matchString l none) (del ∉ v) (· = (afterString l v.length, none)) := by
    rw [matchString, if_neg (by simp [peek_of_cons h])]
    refine .bind_of_eq (nextOrErr_cons h) ?_
    have hlen : v.length < (l.adv 1).slen + 1 := by
      have hle := @lookahead_length_le (l.adv 1)
      rw [hadv, List.length_append] at hle
      omega
    have hloop := @matchStringLoop_outcome v x hv _ (l.adv 1).recordLmatch hadv hlen
    refine (hloop.bind ?_).congr (and_true _).to_iff
    rintro - _ rfl
    have hend : (((l.adv 1).recordLmatch.adv v.length).recordRmatch).lookahead = '"' :: x :=
      lookahead_adv_append (l := (l.adv 1).recordLmatch) hadv
    refine .bind_of_eq (nextOrErr_cons hend) (Outcome.pure ?_)
    simp [afterString, adv, recordLmatch, recordRmatch]
    omega
  cases jo with
  | none => exact hnone.congr (by simp)
  | some jo =>
    rw [matchString_some]
    suffices hs : Outcome (matchString l none >>= fun p => store p.1 jo .string)
        (del ∉ v ∧ v.length + 1 < tokenSz) _ from hs.congr (by simp)
    refine hnone.bind ?_
    rintro - _ rfl
    exact store_outcome (.inl rfl) hadv rfl

/-- A string that has been matched is one of the code's grammar. -/
theorem matchString_sound {jo jo' : Option Json} (h : matchString l jo = .ok (l', jo')) :
    ∃ v x, l.lookahead = '"' :: (v ++ '"' :: x) ∧ Chars codePlain v ∧
      l' = afterString l v.length := by
  have hnone : ∃ jo'', matchString l none = .ok (l', jo'') := by
    cases jo with
    | none => exact ⟨jo', h⟩
    | some jo =>
      rw [matchString_some] at h
      obtain ⟨⟨l₁, jo₁⟩, hm, hst⟩ := bind_eq_ok.mp h
      obtain ⟨m, -, hst⟩ := bind_eq_ok.mp hst
      obtain ⟨jo₂, -, hst⟩ := bind_eq_ok.mp hst
      obtain ⟨rfl, -⟩ := Prod.mk.inj (Except.ok.inj hst)
      exact ⟨jo₁, hm⟩
  obtain ⟨jo'', hm⟩ := hnone
  rw [matchString] at hm
  by_cases hquote : l.peek = '"'
  · rw [if_neg (by simp [hquote])] at hm
    obtain ⟨x, hx⟩ := exists_cons hquote (by decide)
    obtain ⟨⟨l₁, c⟩, hnext, hm⟩ := bind_eq_ok.mp hm
    obtain ⟨a, y, hl, rfl, rfl, hadv⟩ := nextOrErr_ok hnext
    obtain ⟨l₂, hloop, hm⟩ := bind_eq_ok.mp hm
    obtain ⟨v, z, hv, hchars, rfl⟩ := matchStringLoop_sound (l := (l.adv 1).recordLmatch) hloop
    obtain ⟨⟨l₃, c⟩, hnext', hm⟩ := bind_eq_ok.mp hm
    obtain ⟨a', y', hl', rfl, rfl, hadv'⟩ := nextOrErr_ok hnext'
    obtain ⟨rfl, -⟩ := Prod.mk.inj (Except.ok.inj hm)
    obtain ⟨-, rfl⟩ := List.cons.inj (hx.symm.trans hl)
    refine ⟨v, z, ?_, hchars, ?_⟩
    · rw [hx, ← hadv]
      exact congrArg _ hv
    · simp [afterString, adv, recordLmatch, recordRmatch]
      omega
  · rw [if_pos hquote] at hm
    cases hm

/-! ## 3. Numbers -/

/-- The next character ends a run of digits, and starts no fraction and no exponent. -/
def endsNumber (c : Char) : Bool := !c.isDigit && c ≠ '.' && c ≠ 'e' && c ≠ 'E'

/-- Text that cannot go on a number: its first character is no digit, point or letter of an
exponent. -/
def EndsNumber (x : List Char) : Prop := ∀ c ∈ x.head?, endsNumber c = true

/-- Text that ends a number stops a run of digits. -/
theorem EndsNumber.stops (h : EndsNumber x) : Stops Char.isDigit x := by
  intro c hc
  have := h c hc
  simp only [endsNumber, Bool.and_eq_true, Bool.not_eq_true'] at this
  exact this.1.1.1

/-- Text that ends a number starts with neither a fraction nor an exponent. -/
theorem EndsNumber.peek (h : EndsNumber x) (hl : l.lookahead = x) :
    l.peek ≠ '.' ∧ l.peek ≠ 'e' ∧ l.peek ≠ 'E' := by
  cases x with
  | nil =>
    rw [peek_of_nil hl]
    decide
  | cons c x =>
    have := h c rfl
    simp only [endsNumber, Bool.and_eq_true, decide_eq_true_eq] at this
    rw [peek_of_cons hl]
    exact ⟨this.1.1.2, this.1.2, this.2⟩

/-- A run of digits is passed over as a whole. -/
theorem digits_eq {d : Char} {ds : List Char} (h : l.lookahead = d :: (ds ++ x))
    (hd : d.isDigit = true) (hds : AllIn Char.isDigit ds) (hx : Stops Char.isDigit x) :
    l.nextWhile Char.isDigit = l.adv (ds.length + 1) :=
  nextWhile_append (t := d :: ds) h (allIn_cons.mpr ⟨hd, hds⟩) hx

/-- A digit under the cursor starts a run of digits. -/
theorem digits_sound (h : l.peek.isDigit = true) :
    ∃ d ds y, l.lookahead = d :: (ds ++ y) ∧ d.isDigit = true ∧ AllIn Char.isDigit ds ∧
      l.nextWhile Char.isDigit = l.adv (ds.length + 1) := by
  have hnul : l.peek ≠ '\x00' := by
    intro hnul
    rw [hnul] at h
    exact absurd h (by decide)
  obtain ⟨z, hz⟩ := exists_cons rfl hnul
  refine ⟨l.peek, z.takeWhile Char.isDigit, z.dropWhile Char.isDigit, ?_, h, allIn_takeWhile, ?_⟩
  · rw [List.takeWhile_append_dropWhile, hz]
  · rw [nextWhile_eq, hz, List.takeWhile_cons, if_pos h]
    rfl

/-- `do ... while (isdigit(c))` from a digit is `while (isdigit(c)) ...`. -/
theorem nextWhile_adv {d : Char} {y : List Char} (h : l.lookahead = d :: y)
    (hd : d.isDigit = true) : (l.adv 1).nextWhile Char.isDigit = l.nextWhile Char.isDigit := by
  have hadv : (l.adv 1).lookahead = y := lookahead_adv_append (t := [d]) h
  rw [nextWhile_eq, nextWhile_eq, h, hadv, List.takeWhile_cons, if_pos hd, adv_adv,
    List.length_cons, Nat.add_comm]

/-- An integer part starts with a digit. -/
theorem IntPart.head (h : IntPart v) : ∃ d ds, v = d :: ds ∧ d.isDigit = true := by
  cases h with
  | zero => exact ⟨'0', [], rfl, rfl⟩
  | pos hd _ _ => exact ⟨_, _, rfl, hd⟩

/-- The digits of the C locale. -/
theorem isDigit_iff : c.isDigit = true ↔ '0' ≤ c ∧ c ≤ '9' := by
  rw [Char.isDigit, Bool.and_eq_true, decide_eq_true_eq, decide_eq_true_eq]
  exact Iff.rfl

/-- The matchers of the parts of a number on such a part: integer, fraction and exponent, each of
them with the converse (`matchDigits_sound`, `matchFracOpt_sound`, `matchExpOpt_sound`). -/
theorem matchDigits_eq (hv : IntPart v) (h : l.lookahead = v ++ x) (hx : Stops Char.isDigit x) :
    matchDigits l l.peek = .ok (l.adv v.length) := by
  cases hv with
  | zero =>
    rw [peek_of_cons h, matchDigits, if_pos rfl, nextOrErr_cons h]
    rfl
  | @pos d ds hd h0 hds =>
    have hrange : ('0' ≤ d && d ≤ '9') = true := by
      rw [Bool.and_eq_true, decide_eq_true_eq, decide_eq_true_eq]
      exact isDigit_iff.mp hd
    rw [peek_of_cons h, matchDigits, if_neg h0, if_pos hrange, nextOrErr_cons h]
    exact congrArg Except.ok ((nextWhile_adv h hd).trans (digits_eq h hd hds hx))

theorem matchDigits_sound (h : matchDigits l l.peek = .ok l') :
    ∃ v x, l.lookahead = v ++ x ∧ IntPart v ∧ l' = l.adv v.length := by
  rw [matchDigits] at h
  split at h
  · next h0 =>
    obtain ⟨x, hx⟩ := exists_cons h0 (by decide)
    rw [nextOrErr_cons hx] at h
    obtain rfl := Except.ok.inj h
    exact ⟨['0'], x, hx, .zero, rfl⟩
  · next h0 =>
    split at h
    · next hd =>
      rw [Bool.and_eq_true, decide_eq_true_eq, decide_eq_true_eq] at hd
      obtain ⟨⟨l₁, c⟩, hnext, h⟩ := bind_eq_ok.mp h
      obtain ⟨a, y, hl, rfl, rfl, hadv⟩ := nextOrErr_ok hnext
      obtain rfl := Except.ok.inj h
      obtain ⟨d, ds, z, hz, hd', hds, hrun⟩ := digits_sound (isDigit_iff.mpr hd)
      rw [peek_of_cons hz] at h0
      exact ⟨d :: ds, z, hz, .pos hd' h0 hds, (nextWhile_adv hz hd').trans hrun⟩
    · exact nomatch h

theorem matchFracOpt_eq (hv : FracPart v) (h : l.lookahead = v ++ x) (hx : Stops Char.isDigit x)
    (hdot : v = [] → l.peek ≠ '.') : matchFracOpt l = .ok (l.adv v.length) := by
  cases hv with
  | none =>
    rw [matchFracOpt, if_neg (hdot rfl)]
    rfl
  | @some d ds hd hds =>
    have hadv : (l.adv 1).lookahead = d :: (ds ++ x) := lookahead_adv_append (t := ['.']) h
    rw [matchFracOpt, if_pos (peek_of_cons h), matchFrac, if_neg (by simp [peek_of_cons h]),
      nextOrErr_cons h]
    change (if !(l.adv 1).peek.isDigit then _ else pure ((l.adv 1).nextWhile Char.isDigit)) = _
    rw [digits_eq hadv hd hds hx, peek_of_cons hadv, hd, adv_adv, Nat.add_comm]
    rfl

theorem matchFracOpt_sound (h : matchFracOpt l = .ok l') :
    ∃ v x, l.lookahead = v ++ x ∧ FracPart v ∧ l' = l.adv v.length := by
  rw [matchFracOpt] at h
  split at h
  · next hdot =>
    rw [matchFrac, if_neg (by simp [hdot])] at h
    obtain ⟨⟨l₁, c⟩, hnext, h⟩ := bind_eq_ok.mp h
    obtain ⟨a, y, hl, rfl, rfl, hadv⟩ := nextOrErr_ok hnext
    obtain rfl : a = '.' := (peek_of_cons hl).symm.trans hdot
    dsimp only at h
    split at h
    · exact nomatch h
    · next hd =>
      obtain rfl := Except.ok.inj h
      obtain ⟨d, ds, z, hz, hd', hds, hrun⟩ := digits_sound (l := l.adv 1) (by simpa using hd)
      refine ⟨'.' :: d :: ds, z, ?_, .some hd' hds, ?_⟩
      · rw [hl, ← hadv, hz]
        rfl
      · rw [hrun, adv_adv, Nat.add_comm]
        rfl
  · obtain rfl := Except.ok.inj h
    exact ⟨[], l.lookahead, rfl, .none, rfl⟩

/-- The exponent after its letter: an optional sign and digits. -/
def matchSigned (l : Lexer) : Res Lexer :=
  if l.peek = '+' || l.peek = '-' then l.nextOrErr >>= fun p => matchExpDigits p.1 p.2
  else matchExpDigits l l.peek

/-- Behind the letter of an exponent there are the sign and the digits. -/
theorem matchExpOpt_cons {e : Char} (he : e = 'e' ∨ e = 'E') (h : l.lookahead = e :: x) :
    matchExpOpt l = matchSigned (l.adv 1) := by
  rw [matchExpOpt, if_pos (by simpa [peek_of_cons h] using he), matchExp, if_neg, nextOrErr_cons h]
  · rfl
  · rcases he with rfl | rfl <;> simp [peek_of_cons h]

/-- The digits of an exponent without a sign. -/
theorem matchSigned_digits {d : Char} {ds : List Char} (h : l.lookahead = d :: (ds ++ x))
    (hd : d.isDigit = true) (hds : AllIn Char.isDigit ds) (hx : Stops Char.isDigit x) :
    matchSigned l = .ok (l.adv (ds.length + 1)) := by
  have hsign : ¬ (d = '+' ∨ d = '-') := by
    rintro (rfl | rfl) <;> exact absurd hd (by decide)
  rw [matchSigned, if_neg (by simpa [peek_of_cons h] using hsign), peek_of_cons h, matchExpDigits,
    hd, digits_eq h hd hds hx]
  rfl

/-- The digits of an exponent behind a sign. -/
theorem matchSigned_sign {g d : Char} {ds : List Char} (hg : g = '+' ∨ g = '-')
    (h : l.lookahead = g :: d :: (ds ++ x)) (hd : d.isDigit = true) (hds : AllIn Char.isDigit ds)
    (hx : Stops Char.isDigit x) : matchSigned l = .ok (l.adv (ds.length + 2)) := by
  have hadv : (l.adv 1).lookahead = d :: (ds ++ x) := lookahead_adv_append (t := [g]) h
  rw [matchSigned, if_pos (by simpa [peek_of_cons h] using hg), nextOrErr_cons h]
  change matchExpDigits (l.adv 1) (l.adv 1).peek = _
  rw [matchExpDigits, peek_of_cons hadv, hd, digits_eq hadv hd hds hx, adv_adv, Nat.add_comm]
  rfl

theorem matchExpOpt_eq (hv : ExpPart v) (h : l.lookahead = v ++ x) (hx : Stops Char.isDigit x)
    (hexp : v = [] → l.peek ≠ 'e' ∧ l.peek ≠ 'E') : matchExpOpt l = .ok (l.adv v.length) := by
  cases hv with
  | none =>
    obtain ⟨he, hE⟩ := hexp rfl
    rw [matchExpOpt, if_neg (by simp [he, hE])]
    rfl
  | @unsigned e d ds he hd hds =>
    have hadv : (l.adv 1).lookahead = d :: (ds ++ x) := lookahead_adv_append (t := [e]) h
    rw [matchExpOpt_cons he h, matchSigned_digits hadv hd hds hx, adv_adv, Nat.add_comm]
    rfl
  | @signed e g d ds he hg hd hds =>
    have hadv : (l.adv 1).lookahead = g :: d :: (ds ++ x) := lookahead_adv_append (t := [e]) h
    rw [matchExpOpt_cons he h, matchSigned_sign hg hadv hd hds hx, adv_adv, Nat.add_comm]
    rfl

/-- What has been passed behind the letter is an optional sign and digits. -/
theorem matchSigned_sound (h : matchSigned l = .ok l') :
    ∃ g d ds y, (g = [] ∨ g = ['+'] ∨ g = ['-']) ∧ l.lookahead = g ++ d :: (ds ++ y) ∧
      d.isDigit = true ∧ AllIn Char.isDigit ds ∧ l' = l.adv (g.length + (ds.length + 1)) := by
  have hdigits : ∀ {l₁ : Lexer}, matchExpDigits l₁ l₁.peek = .ok l' → ∃ d ds y,
      l₁.lookahead = d :: (ds ++ y) ∧ d.isDigit = true ∧ AllIn Char.isDigit ds ∧
        l' = l₁.adv (ds.length + 1) := by
    intro l₁ h
    rw [matchExpDigits] at h
    split at h
    · exact nomatch h
    · next hd =>
      obtain ⟨d, ds, z, hz, hd', hds, hrun⟩ := digits_sound (l := l₁) (by simpa using hd)
      exact ⟨d, ds, z, hz, hd', hds, (Except.ok.inj h).symm.trans hrun⟩
  rw [matchSigned] at h
  split at h
  · next hg =>
    obtain ⟨⟨l₁, c⟩, hnext, h⟩ := bind_eq_ok.mp h
    obtain ⟨a, y, hl, rfl, rfl, hadv⟩ := nextOrErr_ok hnext
    obtain ⟨d, ds, z, hz, hd, hds, rfl⟩ := hdigits h
    rw [Bool.or_eq_true, decide_eq_true_eq, decide_eq_true_eq, peek_of_cons hl] at hg
    refine ⟨[a], d, ds, z, ?_, ?_, hd, hds, by rw [adv_adv]; rfl⟩
    · rcases hg with rfl | rfl
      · exact .inr (.inl rfl)
      · exact .inr (.inr rfl)
    · rw [hl, ← hadv, hz]
      rfl
  · obtain ⟨d, ds, z, hz, hd, hds, rfl⟩ := hdigits h
    exact ⟨[], d, ds, z, .inl rfl, hz, hd, hds, by rw [List.length_nil, Nat.zero_add]⟩

theorem matchExpOpt_sound (h : matchExpOpt l = .ok l') :
    ∃ v x, l.lookahead = v ++ x ∧ ExpPart v ∧ l' = l.adv v.length := by
  by_cases he : l.peek = 'e' ∨ l.peek = 'E'
  · have hnul : l.peek ≠ '\x00' := by
      intro hnul
      rw [hnul] at he
      exact absurd he (by decide)
    obtain ⟨y, hy⟩ := exists_cons rfl hnul
    have hadv : (l.adv 1).lookahead = y := lookahead_adv_append (t := [l.peek]) hy
    rw [matchExpOpt_cons he hy] at h
    obtain ⟨g, d, ds, z, hg, hz, hd, hds, rfl⟩ := matchSigned_sound h
    rw [hadv] at hz
    refine ⟨l.peek :: (g ++ d :: ds), z, by simp [hy, hz], ?_, ?_⟩
    · rcases hg with rfl | rfl | rfl
      · exact .unsigned he hd hds
      · exact .signed he (.inl rfl) hd hds
      · exact .signed he (.inr rfl) hd hds
    · rw [adv_adv, List.length_cons, List.length_append, List.length_cons, Nat.add_comm]
  · rw [matchExpOpt, if_neg (by simpa using he)] at h
    obtain rfl := Except.ok.inj h
    exact ⟨[], l.lookahead, rfl, .none, rfl⟩

/-- A fraction starts with a point, or is none. -/
theorem FracPart.head (h : FracPart v) : v = [] ∨ ∃ ds, v = '.' :: ds := by
  cases h with
  | none => exact .inl rfl
  | some _ _ => exact .inr ⟨_, rfl⟩

/-- An exponent starts with its letter, or is none. -/
theorem ExpPart.head (h : ExpPart v) : v = [] ∨ ∃ e ds, (e = 'e' ∨ e = 'E') ∧ v = e :: ds := by
  cases h with
  | none => exact .inl rfl
  | unsigned he _ _ => exact .inr ⟨_, _, he, rfl⟩
  | signed he _ _ _ => exact .inr ⟨_, _, he, rfl⟩

/-- An integer part without a minus sign. -/
theorem matchInt_unsigned {i : List Char} (hi : IntPart i) (h : l.lookahead = i ++ x)
    (hx : Stops Char.isDigit x) : matchInt l = .ok (l.adv i.length) := by
  obtain ⟨d, ds, rfl, hd⟩ := hi.head
  have hminus : l.peek ≠ '-' := by
    rw [peek_of_cons h]
    rintro rfl
    exact absurd hd (by decide)
  rw [matchInt, if_neg hminus, matchDigits_eq hi h hx]

/-- An integer part with a minus sign. -/
theorem matchInt_minus {i : List Char} (hi : IntPart i) (h : l.lookahead = '-' :: (i ++ x))
    (hx : Stops Char.isDigit x) : matchInt l = .ok (l.adv (i.length + 1)) := by
  have hadv : (l.adv 1).lookahead = i ++ x := lookahead_adv_append (t := ['-']) h
  rw [matchInt, if_pos (peek_of_cons h), nextOrErr_cons h]
  change matchDigits (l.adv 1) (l.adv 1).peek = _
  rw [matchDigits_eq hi hadv hx, adv_adv, Nat.add_comm]

/-- What has been passed is an optional minus sign and an integer part. -/
theorem matchInt_sound (h : matchInt l = .ok l') : ∃ g i y, (g = [] ∨ g = ['-']) ∧ IntPart i ∧
    l.lookahead = g ++ (i ++ y) ∧ l' = l.adv (g.length + i.length) := by
  rw [matchInt] at h
  split at h
  · next hminus =>
    obtain ⟨⟨l₁, c⟩, hnext, h⟩ := bind_eq_ok.mp h
    obtain ⟨a, y, hl, rfl, rfl, hadv⟩ := nextOrErr_ok hnext
    obtain rfl : a = '-' := (peek_of_cons hl).symm.trans hminus
    obtain ⟨i, z, hz, hi, rfl⟩ := matchDigits_sound h
    refine ⟨['-'], i, z, .inr rfl, hi, ?_, by rw [adv_adv]; rfl⟩
    rw [hl, ← hadv, hz]
    rfl
  · obtain ⟨i, z, hz, hi, rfl⟩ := matchDigits_sound h
    exact ⟨[], i, z, .inl rfl, hi, hz, by rw [List.length_nil, Nat.zero_add]⟩

/-- A fraction or an exponent goes on no run of digits. -/
theorem stops_fracExp {f e : List Char} (hf : FracPart f) (he : ExpPart e) (hx : EndsNumber x) :
    Stops Char.isDigit (e ++ x) ∧ Stops Char.isDigit (f ++ (e ++ x)) := by
  have hexp : Stops Char.isDigit (e ++ x) := by
    rcases he.head with rfl | ⟨c, ds, rfl | rfl, rfl⟩
    · exact hx.stops
    · exact stops_cons.mpr (by decide)
    · exact stops_cons.mpr (by decide)
  refine ⟨hexp, ?_⟩
  rcases hf.head with rfl | ⟨ds, rfl⟩
  · exact hexp
  · exact stops_cons.mpr (by decide)

/-- After the integer part: the optional parts of a number. -/
theorem fracExp_eq {f e : List Char} (hf : FracPart f) (he : ExpPart e)
    (h : l.lookahead = f ++ (e ++ x)) (hx : EndsNumber x) :
    (matchFracOpt l >>= matchExpOpt) = .ok (l.adv (f.length + e.length)) := by
  have hadv : (l.adv f.length).lookahead = e ++ x := lookahead_adv_append h
  have hdot : f = [] → l.peek ≠ '.' := by
    rintro rfl
    rcases he.head with rfl | ⟨c, ds, hc, rfl⟩
    · exact (hx.peek h).1
    · rw [peek_of_cons h]
      rcases hc with rfl | rfl <;> decide
  have hexp : e = [] → (l.adv f.length).peek ≠ 'e' ∧ (l.adv f.length).peek ≠ 'E' := by
    rintro rfl
    exact (hx.peek hadv).2
  rw [matchFracOpt_eq hf h (stops_fracExp hf he hx).1 hdot]
  change matchExpOpt (l.adv f.length) = _
  rw [matchExpOpt_eq he hadv hx.stops hexp, adv_adv]

/-- The number matcher is its three parts, and the match is stored at the end. -/
theorem matchNumber_eq (jo : Option Json) :
    matchNumber l jo = (matchInt l >>= fun l => matchFracOpt l >>= matchExpOpt) >>= fun l =>
      match jo with
      | none => pure (l.recordRmatch, none)
      | some jo => store l.recordRmatch jo .number := by
  rw [bind_assoc]
  refine congrArg (matchInt l >>= ·) (funext fun l => ?_)
  exact (bind_assoc _ _ _).symm

/-- The matcher stops at the end of a number. -/
theorem matchNumber_run (hv : Number v) (h : l.lookahead = v ++ x) (hx : EndsNumber x) :
    (matchInt l >>= fun l => matchFracOpt l >>= matchExpOpt) = .ok (l.adv v.length) := by
  cases hv with
  | @unsigned i f e hi hf he =>
    have hassoc : l.lookahead = i ++ (f ++ (e ++ x)) := by simpa using h
    rw [matchInt_unsigned hi hassoc (stops_fracExp hf he hx).2]
    change (matchFracOpt (l.adv i.length) >>= matchExpOpt) = _
    rw [fracExp_eq hf he (lookahead_adv_append hassoc) hx, adv_adv]
    simp
  | @minus i f e hi hf he =>
    have hassoc : l.lookahead = '-' :: (i ++ (f ++ (e ++ x))) := by simpa using h
    have hadv : (l.adv (i.length + 1)).lookahead = f ++ (e ++ x) :=
      lookahead_adv_append (t := '-' :: i) hassoc
    rw [matchInt_minus hi hassoc (stops_fracExp hf he hx).2]
    change (matchFracOpt (l.adv (i.length + 1)) >>= matchExpOpt) = _
    rw [fracExp_eq hf he hadv hx, adv_adv]
    simp [Nat.add_right_comm]

/-- **The number matcher** on a number, with the left match recorded. -/
theorem matchNumber_outcome (hv : Number v) (h : l.lookahead = v ++ c :: x)
    (hc : endsNumber c = true) (hl : l.lmatch = l.pos) (jo : Option Json) :
    Outcome (matchNumber l jo) (∀ j ∈ jo, v.length + 1 < tokenSz)
      (· = (afterNumber l v.length, fill jo .number v)) := by
  have hrun := matchNumber_run hv h (x := c :: x) (by simpa [EndsNumber] using hc)
  rw [matchNumber_eq, hrun]
  cases jo with
  | none => exact (Outcome.pure (P := (· = (afterNumber l v.length, none))) rfl).congr (by simp)
  | some jo =>
    have hmatch : ((l.adv v.length).recordRmatch).s.drop (l.adv v.length).recordRmatch.lmatch
        = v ++ c :: x := by
      rw [← h, lookahead, ← hl]
      rfl
    have hr : (l.adv v.length).recordRmatch.rmatch
        = (l.adv v.length).recordRmatch.lmatch + v.length := by
      change l.pos + v.length = l.lmatch + v.length
      rw [hl]
    exact (store_outcome (.inr rfl) hmatch hr).congr (by simp)

/-- A number that has been matched is one of RFC 8259. -/
theorem matchNumber_sound {jo jo' : Option Json} (h : matchNumber l jo = .ok (l', jo')) :
    ∃ v x, l.lookahead = v ++ x ∧ Number v ∧ l' = afterNumber l v.length := by
  rw [matchNumber_eq] at h
  obtain ⟨l₁, hrun, h⟩ := bind_eq_ok.mp h
  have hl' : l' = l₁.recordRmatch := by
    cases jo with
    | none => exact (Prod.mk.inj (Except.ok.inj h)).1.symm
    | some jo =>
      obtain ⟨m, -, h⟩ := bind_eq_ok.mp h
      obtain ⟨jo₂, -, h⟩ := bind_eq_ok.mp h
      exact (Prod.mk.inj (Except.ok.inj h)).1.symm
  obtain ⟨l₂, hint, hrun⟩ := bind_eq_ok.mp hrun
  obtain ⟨l₃, hfrac, hexp⟩ := bind_eq_ok.mp hrun
  obtain ⟨g, i, y, hg, hi, hl, rfl⟩ := matchInt_sound hint
  obtain ⟨f, y', hf', hf, rfl⟩ := matchFracOpt_sound hfrac
  obtain ⟨e, y'', he', he, rfl⟩ := matchExpOpt_sound hexp
  have hy : (l.adv (g.length + i.length)).lookahead = y := by
    rw [← List.length_append]
    exact lookahead_adv_append (by simpa using hl)
  have hy' : ((l.adv (g.length + i.length)).adv f.length).lookahead = y' := lookahead_adv_append hf'
  rw [hy] at hf'
  rw [hy'] at he'
  refine ⟨g ++ (i ++ (f ++ e)), y'', by simp [hl, hf', he'], ?_, ?_⟩
  · rcases hg with rfl | rfl
    · have hnum : Number (i ++ (f ++ e)) := .unsigned hi hf he
      exact hnum
    · have hnum : Number ('-' :: (i ++ (f ++ e))) := .minus hi hf he
      exact hnum
  · rw [hl', adv_adv, adv_adv]
    simp [afterNumber, recordRmatch, adv, Nat.add_assoc]

/-! ## 4. Literal names -/

/-- Neither white space nor NUL, so the lexer neither skips it nor ends at it. -/
def isLetter (c : Char) : Bool := !isSpace c && c ≠ '\x00'

/-- The letters of a word go on after white space, which the loop passes over. -/
theorem matchSeqLoop_eq {w t : List Char} (hw : Spelled lenient w t) :
    ∀ {l : Lexer} {a : Char} {rem : List Char}, w = a :: rem → AllIn isLetter rem → x ≠ [] →
      l.lookahead = t ++ x →
      ∃ l' b, matchSeqLoop rem l = .ok l' ∧ l'.lookahead = b :: x ∧ l'.s = l.s := by
  induction hw with
  | last c =>
    intro l a rem hwa _ _ h
    obtain ⟨rfl, rfl⟩ := List.cons.inj hwa
    exact ⟨l, c, rfl, h, rfl⟩
  | @next c w s t _ hs hw ih =>
    intro l a rem hwa hrem hx h
    obtain ⟨rfl, rfl⟩ := List.cons.inj hwa
    obtain ⟨d, t', w', rfl, rfl⟩ : ∃ d t' w', w = d :: w' ∧ t = d :: t' := by
      cases hw with
      | last d => exact ⟨d, [], [], rfl, rfl⟩
      | next _ _ _ => exact ⟨_, _, _, rfl, rfl⟩
    obtain ⟨hd, hrem'⟩ := allIn_cons.mp hrem
    have hassoc : l.lookahead = c :: (s ++ (d :: (t' ++ x))) := by simpa using h
    obtain ⟨l₁, hskip, hlook, hs₁⟩ := skipOrErr_cons hassoc (by simp)
    have hdrop : (s ++ (d :: (t' ++ x))).dropWhile isSpace = d :: (t' ++ x) := by
      rw [dropWhile_append (p := isSpace) hs]
      simp only [isLetter, Bool.and_eq_true, Bool.not_eq_true'] at hd
      exact (stops_cons.mpr hd.1).dropWhile
    rw [hdrop] at hlook
    obtain ⟨l₂, b, hloop, hb, hs₂⟩ := ih (l := l₁) rfl hrem' hx hlook
    refine ⟨l₂, b, ?_, hb, hs₂.trans hs₁⟩
    rw [matchSeqLoop, hskip]
    change (if l₁.peek ≠ d then _ else matchSeqLoop w' l₁) = _
    rw [peek_of_cons hlook, if_neg (by simp), hloop]

/-- **The literal matcher** on a name of the lenient grammar: it also passes over the white space
behind it. -/
theorem matchSeq_eq {first : Char} {rem t : List Char} {type : JsonType}
    (hw : Spelled lenient (first :: rem) t) (hrem : AllIn isLetter rem) (hx : x ≠ [])
    (h : l.lookahead = t ++ x) (jo : Option Json) :
    ∃ l', matchSeq type first rem l jo = .ok (l', jo.map (·.setType type)) ∧
      l'.lookahead = x.dropWhile isSpace ∧ l'.s = l.s := by
  obtain ⟨t', rfl⟩ : ∃ t', t = first :: t' := by
    cases hw with
    | last => exact ⟨[], rfl⟩
    | next _ _ _ => exact ⟨_, rfl⟩
  obtain ⟨l₁, b, hloop, hb, hs₁⟩ := matchSeqLoop_eq hw rfl hrem hx h
  obtain ⟨l₂, hskip, hlook, hs₂⟩ := skipOrErr_cons hb hx
  refine ⟨l₂, ?_, hlook, hs₂.trans hs₁⟩
  rw [matchSeq, if_neg (by simp [peek_of_cons h]), hloop]
  change (l₁.skipOrErr >>= _) = _
  rw [hskip]
  rfl

/-- The loop over a word has read its letters, with white space between them at most. -/
theorem matchSeqLoop_sound : ∀ {rem : List Char} {l l' : Lexer} {a : Char} {y : List Char},
    matchSeqLoop rem l = .ok l' → AllIn isLetter rem → l.lookahead = a :: y →
    ∃ t x b, Spelled code (a :: rem) t ∧ a :: y = t ++ x ∧ l'.lookahead = b :: x ∧ l'.s = l.s
  | [], l, l', a, y, h, _, hl => by
    obtain rfl := Except.ok.inj h
    exact ⟨[a], y, a, .last a, rfl, hl, rfl⟩
  | d :: rem, l, l', a, y, h, hrem, hl => by
    obtain ⟨hd, hrem⟩ := allIn_cons.mp hrem
    simp only [isLetter, Bool.and_eq_true, decide_eq_true_eq] at hd
    obtain ⟨⟨l₁, c⟩, hskip, h⟩ := bind_eq_ok.mp h
    obtain ⟨a', y', hl', hne, hlook, hs₁, rfl⟩ := skipOrErr_ok hskip
    obtain ⟨rfl, rfl⟩ := List.cons.inj (hl.symm.trans hl')
    dsimp only at h
    by_cases hpeek : l₁.peek = d
    · rw [if_neg (by simp [hpeek])] at h
      obtain ⟨s, hs, hy⟩ := exists_front isSpace y
      obtain ⟨z, hz⟩ := exists_cons hpeek hd.2
      obtain ⟨t, x, b, ht, heq, hb, hs₂⟩ := matchSeqLoop_sound h hrem hz
      refine ⟨a :: (s ++ t), x, b, .next (fun _ => rfl) hs ht, ?_, hb, hs₂.trans hs₁⟩
      rw [hy, ← hlook, hz, heq]
      simp
    · rw [if_pos hpeek] at h
      exact nomatch h

/-- A word that has been matched is spelled as the code's grammar allows. -/
theorem matchSeq_sound {first : Char} {rem : List Char} {type : JsonType} {jo jo' : Option Json}
    (h : matchSeq type first rem l jo = .ok (l', jo')) (hfirst : first ≠ '\x00')
    (hrem : AllIn isLetter rem) :
    ∃ t x, Spelled code (first :: rem) t ∧ l.lookahead = t ++ x ∧
      l'.lookahead = x.dropWhile isSpace ∧ l'.s = l.s := by
  rw [matchSeq] at h
  by_cases hpeek : l.peek = first
  · rw [if_neg (by simp [hpeek])] at h
    obtain ⟨y, hy⟩ := exists_cons hpeek hfirst
    obtain ⟨l₁, hloop, h⟩ := bind_eq_ok.mp h
    obtain ⟨⟨l₂, c⟩, hskip, h⟩ := bind_eq_ok.mp h
    obtain ⟨rfl, -⟩ := Prod.mk.inj (Except.ok.inj h)
    obtain ⟨t, x, b, ht, heq, hb, hs₁⟩ := matchSeqLoop_sound hloop hrem hy
    obtain ⟨b', x', hb', -, hlook, hs₂, -⟩ := skipOrErr_ok hskip
    obtain ⟨-, rfl⟩ := List.cons.inj (hb.symm.trans hb')
    exact ⟨t, x, ht, hy.trans heq, hlook, hs₂.trans hs₁⟩
  · rw [if_pos hpeek] at h
    exact nomatch h

end Json

end Libu
