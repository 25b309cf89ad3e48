/-
# Sections and their braces (`toolbox/config.c`)

A section is opened by a `{` on the line behind its name and closed by a `}`.

* §1: the lines of a text, and what makes a text well formed (`WellFormed`).
* §2: what the loader makes sure of as it reads (`Accepts`).  The name of a section is kept until a
  brace is read, so that values may stand between it and the `{`; the end of the source ends every
  section.
* §3: a text of lines that fit the buffer of `cs_getline` is read line by line
  (`readLines_bufSource`).  A last line without its newline is not read.
* §4: a text that is loaded is well formed exactly when no `{` is behind a value and there are as
  many `{` as `}` (`wellFormed_iff`).
-/
import Libu.Config.Load

namespace Libu.Config

open Verif

/-! ## 1. Well-formed texts -/

/-- The lines of a text; the last one is what stands behind the last line end.  A carriage return is
a line end when it is the last character. -/
def textLines : List Char → List (List Char)
  | [] => [[]]
  | c :: s =>
    if c = '\n' ∨ c = '\r' ∧ s = [] then [] :: textLines s
    else
      match textLines s with
      | [] => [[c]]
      | line :: lines => (c :: line) :: lines

/-- What the lines say, but for those that say nothing. -/
def tokens (lines : List (List Char)) : List Line := (lines.filterMap parseLine).filter (· ≠ .empty)

def Line.isOpening : Line → Bool
  | .opening _ => true
  | _ => false

def Line.isClosing : Line → Bool
  | .closing _ => true
  | _ => false

/-- As the documentation has it: a `{` is directly behind the name of its section, and each `{` has
its `}`. -/
structure WellFormed (ls : List Line) : Prop where
  named : ∀ pre alone post, ls = pre ++ .opening alone :: post → ∃ pre' key, pre =
    pre' ++ [.assign key []]
  matched : ls.countP Line.isOpening = ls.countP Line.isClosing
  opened : ∀ pre, pre <+: ls → pre.countP Line.isClosing ≤ pre.countP Line.isOpening

/-- No `{` is directly behind a key with a value. -/
def NoValueBefore (ls : List Line) : Prop :=
  ∀ pre key value alone post, ls = pre ++ .assign key value :: .opening alone :: post → value = []

/-! ## 2. What the loader accepts -/

/-- Lines that are read without an error, inside `d` sections, where `named` tells of a name that is
kept. -/
def Accepts : Nat → Bool → List Line → Prop
  | _, _, [] => True
  | d, named, .empty :: ls => Accepts d named ls
  | d, named, .opening _ :: ls => named = true ∧ Accepts (d + 1) false ls
  | d, _, .closing _ :: ls => 0 < d ∧ Accepts (d - 1) false ls
  | d, named, .assign _ value :: ls => Accepts d (if value = [] then true else named) ls

/-- Whether a name is kept behind the lines. -/
def keeps (named : Bool) : List Line → Bool
  | [] => named
  | .empty :: ls => keeps named ls
  | .opening _ :: ls => keeps false ls
  | .closing _ :: ls => keeps false ls
  | .assign _ value :: ls => keeps (if value = [] then true else named) ls

section Accepts

variable {d : Nat} {named : Bool} {ls pre post : List Line}

theorem Accepts.of_append (h : Accepts d named (pre ++ post)) : Accepts d named pre := by
  induction pre generalizing d named with
  | nil => trivial
  | cons l pre ih =>
    cases l with
    | empty => exact ih h
    | opening alone => exact ⟨h.1, ih h.2⟩
    | closing alone => exact ⟨h.1, ih h.2⟩
    | assign key value => exact ih h

/-- No `}` is read outside the sections. -/
theorem Accepts.closings (h : Accepts d named ls) :
    ls.countP Line.isClosing ≤ d + ls.countP Line.isOpening := by
  induction ls generalizing d named with
  | nil => exact Nat.zero_le _
  | cons l ls ih =>
    cases l with
    | empty => simpa [Line.isClosing, Line.isOpening] using ih h
    | opening alone =>
      have hle := ih h.2
      simp only [List.countP_cons, Line.isClosing, Line.isOpening, if_true,
        Bool.false_eq_true, if_false]
      omega
    | closing alone =>
      have hpos := h.1
      have hle := ih h.2
      simp only [List.countP_cons, Line.isClosing, Line.isOpening, if_true,
        Bool.false_eq_true, if_false]
      omega
    | assign key value => simpa [Line.isClosing, Line.isOpening] using ih h

/-- A `{` is read only while a name is kept. -/
theorem Accepts.keeps_of_opening {alone : Bool} (h : Accepts d named
    (pre ++ .opening alone :: post)) : keeps named pre = true := by
  induction pre generalizing d named with
  | nil => exact h.1
  | cons l pre ih =>
    cases l with
    | empty => exact ih h
    | opening alone => exact ih h.2
    | closing alone => exact ih h.2
    | assign key value => exact ih h

/-- The last line decides whether a name is kept, if it is not a value. -/
theorem keeps_concat (named : Bool) (pre : List Line) (l : Line) :
    keeps named (pre ++ [l]) = keeps (keeps named pre) [l] := by
  induction pre generalizing named with
  | nil => rfl
  | cons l' pre ih =>
    cases l' <;> exact ih _

/-- Lines that say nothing do not matter. -/
theorem accepts_filter : Accepts d named (ls.filter (· ≠ .empty)) ↔ Accepts d named ls := by
  induction ls generalizing d named with
  | nil => exact Iff.rfl
  | cons l ls ih =>
    cases l with
    | empty => exact ih
    | opening alone => exact and_congr_right fun _ => ih
    | closing alone => exact and_congr_right fun _ => ih
    | assign key value => exact ih

/-- **What has been accepted is well formed**, with one more line that has not been read, exactly
when no `{` is behind a value and the braces are equally many. -/
theorem wellFormed_iff_of_accepts {l : Option Line} (h : Accepts 0 false ls)
    (hempty : .empty ∉ ls) : WellFormed (ls ++ l.toList) ↔ NoValueBefore (ls ++ l.toList) ∧
      (ls ++ l.toList).countP Line.isOpening = (ls ++ l.toList).countP Line.isClosing := by
  constructor
  · intro hwf
    refine ⟨?_, hwf.matched⟩
    intro pre key value alone post heq
    obtain ⟨pre', key', hpre⟩ := hwf.named (pre ++ [.assign key value]) alone post (by simp [heq])
    obtain ⟨-, hlast⟩ := List.append_inj' hpre rfl
    exact (Line.assign.inj (List.cons.inj hlast).1).2
  · rintro ⟨hvalue, hmatched⟩
    have hclosings := h.closings
    -- a `{` that has been read is behind a line that keeps a name
    have hread : ∀ pre alone post, ls = pre ++ .opening alone :: post → ∃ pre' key, pre =
      pre' ++ [.assign key []] := by
      rintro pre alone post rfl
      have hkeeps := h.keeps_of_opening
      rcases List.eq_nil_or_concat' pre with rfl | ⟨pre', l', rfl⟩
      · cases hkeeps
      · rw [keeps_concat] at hkeeps
        cases l' with
        | empty => exact absurd (by simp) hempty
        | opening alone => cases hkeeps
        | closing alone => cases hkeeps
        | assign key value =>
          refine ⟨pre', key, ?_⟩
          rw [hvalue pre' key value alone (post ++ l.toList) (by simp)]
    have hopened : ∀ pre, pre <+: ls → pre.countP Line.isClosing ≤ pre.countP Line.isOpening := by
      rintro pre ⟨post, rfl⟩
      simpa using h.of_append.closings
    cases l with
    | none =>
      rw [Option.toList_none, List.append_nil] at hmatched ⊢
      exact ⟨hread, hmatched, hopened⟩
    | some l =>
      rw [Option.toList_some] at hmatched ⊢
      refine ⟨?_, hmatched, ?_⟩
      · intro pre alone post heq
        rcases List.eq_nil_or_concat' post with rfl | ⟨post', l', rfl⟩
        · -- the braces would not be equally many
          obtain ⟨rfl, hlast⟩ := List.append_inj' heq rfl
          obtain rfl := (List.cons.inj hlast).1
          simp only [List.countP_append, List.countP_singleton, Line.isOpening, Line.isClosing,
            if_true, Bool.false_eq_true, if_false] at hmatched
          omega
        · rw [← List.cons_append, ← List.append_assoc] at heq
          obtain ⟨hls, -⟩ := List.append_inj' heq rfl
          exact hread pre alone post' hls
      · intro pre hpre
        rcases List.prefix_concat_iff.mp hpre with rfl | hpre
        · exact Nat.le_of_eq hmatched.symm
        · exact hopened pre hpre

end Accepts

/-! ## 3. Reading -/

/-- The lines that `cs_getline` gets from a source, behind what it has of the first. -/
def readLines : List Char → Source → List (List Char)
  | _, [] => []
  | ln, buf :: src =>
    let buf := buf.takeWhile (· ≠ '\x00')
    match buf.getLast? with
    | none => ln :: readLines [] src
    | some c =>
      if isnl c then (ln ++ buf.dropLast) :: readLines [] src else readLines
        (ln ++ buf.dropLast) src

section Reading

variable {drv : Driver} {overwrite : Bool} {f : Frame} {src src' : Source}
    {ln line : List Char} {l : Line}

theorem readLines_of_none (h : csGetline ln src = none) : readLines ln src = [] := by
  induction src generalizing ln with
  | nil => rfl
  | cons buf src ih =>
    rw [csGetline] at h
    rw [readLines]
    cases hc : (buf.takeWhile (· ≠ '\x00')).getLast? with
    | none =>
      rw [hc] at h
      cases h
    | some c =>
      rw [hc] at h
      by_cases hnl : isnl c = true
      · simp only [if_pos hnl] at h
        cases h
      · simp only [if_neg hnl] at h ⊢
        exact ih h

theorem readLines_of_some (h : csGetline ln src = some (line, src')) :
    readLines ln src = line :: readLines [] src' := by
  induction src generalizing ln with
  | nil => cases h
  | cons buf src ih =>
    rw [csGetline] at h
    rw [readLines]
    cases hc : (buf.takeWhile (· ≠ '\x00')).getLast? with
    | none =>
      rw [hc] at h
      obtain ⟨rfl, rfl⟩ := Prod.mk.inj (Option.some.inj h)
      rfl
    | some c =>
      rw [hc] at h
      by_cases hnl : isnl c = true
      · simp only [if_pos hnl] at h ⊢
        obtain ⟨rfl, rfl⟩ := Prod.mk.inj (Option.some.inj h)
        rfl
      · simp only [if_neg hnl] at h ⊢
        exact ih h

/-- What the lines of a source say. -/
def lines (src : Source) : List Line := (readLines [] src).filterMap parseLine

theorem Reads.lines (h : Reads src l src') : Config.lines src = l :: Config.lines src' := by
  obtain ⟨line, hline, hparse⟩ := h
  unfold Config.lines
  rw [readLines_of_some hline, List.filterMap_cons_some hparse]

/-- A line with a key has one. -/
theorem key_ne_nil {key value : List Char} (h : parseLine line = some (.assign key value)) :
    key ≠ [] := by
  rw [parseLine] at h
  obtain ⟨line', -, h⟩ := Option.bind_eq_some_iff.mp h
  dsimp only at h
  split at h
  · cases h
  · next hne =>
    -- the line starts with a character that is not a blank
    obtain ⟨c, s, hs⟩ := List.exists_cons_of_ne_nil hne
    obtain ⟨t, ht⟩ := List.rdropWhile_prefix isnl (trim line')
    have hc : isblank c = false := by
      have hhead := List.head?_dropWhile_not isblank (line'.rdropWhile isblank)
      have htrim : (line'.rdropWhile isblank).dropWhile isblank = c :: (s ++ t) := by
        rw [← List.cons_append, ← hs, ht]
        rfl
      rwa [htrim, List.head?_cons] at hhead
    rw [hs, List.dropWhile_cons, if_neg (by simp [hc])] at h
    split at h
    · cases h
    · cases h
    · obtain ⟨rfl, -⟩ := Line.assign.inj (Option.some.inj h)
      simp [hc]

/-- **What a call of the loader reads is accepted**, when what is left of the source is where it is
read on. The root is read to the end of the source. -/
theorem accepts_of_returns {r : Loaded} (h : Returns (round drv overwrite) f r) (hr : r.1 = .ok) :
    (f.p = [] → r.2.2 = []) ∧
      (Accepts (f.p.length - 1) false (lines r.2.2) → Accepts f.p.length (decide (f.lastkey ≠ []))
        (lines f.src)) := by
  refine Returns.rule (P := fun f r => r.1 = .ok → (f.p = [] → r.2.2 = []) ∧
    (Accepts (f.p.length - 1) false (lines r.2.2) → Accepts f.p.length
      (decide (f.lastkey ≠ [])) (lines f.src)))
    ?_ h hr
  intro f r hyields hr
  cases round_yields hyields with
  | eof hnone =>
    refine ⟨fun _ => rfl, fun _ => ?_⟩
    rw [lines, readLines_of_none hnone]
    trivial
  | bad => cases hr
  | close hread hp =>
    refine ⟨fun h => absurd h hp, fun h => ?_⟩
    rw [hread.lines]
    exact ⟨List.length_pos_of_ne_nil hp, h⟩
  | directive _ _ hret => exact absurd hr hret
  | set _ _ _ _ hret => exact absurd hr hret
  | inside _ _ _ _ hret => exact absurd hr hret
  | next hnext hin =>
    obtain ⟨hroot, haccepts⟩ := hin.2.2 hr
    cases hnext with
    | empty hread =>
      refine ⟨hroot, fun h => ?_⟩
      rw [hread.lines]
      exact haccepts h
    | leave hread hkey _ hsection =>
      refine ⟨hroot, fun h => ?_⟩
      have hinside := (hsection.2.2 rfl).2
      rw [List.length_append, List.length_singleton, Nat.add_sub_cancel] at hinside
      rw [hread.lines]
      exact ⟨by simpa using hkey, hinside (haccepts h)⟩
    | name hread =>
      refine ⟨hroot, fun h => ?_⟩
      obtain ⟨line, -, hparse⟩ := id hread
      have hkey := decide_eq_true (key_ne_nil hparse)
      rw [hread.lines]
      rw [hkey] at haccepts
      exact haccepts h
    | value hread hvalue =>
      refine ⟨hroot, fun h => ?_⟩
      rw [hread.lines, Accepts, if_neg hvalue]
      exact haccepts h

end Reading

section Buffer

variable {l rest text : List Char}

theorem bufChunk_line {size : Nat} (hl : '\n' ∉ l) (hlen : l.length < size) :
    bufChunk size (l ++ '\n' :: rest) = (l ++ ['\n'], rest) := by
  induction l generalizing size with
  | nil =>
    obtain ⟨size, rfl⟩ := Nat.exists_eq_succ_of_ne_zero (by omega : size ≠ 0)
    simp [bufChunk]
  | cons c l ih =>
    obtain ⟨size, rfl⟩ := Nat.exists_eq_succ_of_ne_zero (by omega : size ≠ 0)
    rw [List.mem_cons, not_or] at hl
    rw [List.cons_append, bufChunk, if_neg (Ne.symm hl.1),
      ih hl.2 (Nat.lt_of_succ_lt_succ hlen), List.cons_append]

theorem bufChunk_end {size : Nat} (hl : '\n' ∉ l) (hlen : l.length ≤ size) :
    bufChunk size l = (l, []) := by
  induction l generalizing size with
  | nil => cases size <;> rfl
  | cons c l ih =>
    obtain ⟨size, rfl⟩ := Nat.exists_eq_succ_of_ne_zero
      (by rw [List.length_cons] at hlen; omega : size ≠ 0)
    rw [List.mem_cons, not_or] at hl
    rw [bufChunk, if_neg (Ne.symm hl.1), ih hl.2 (Nat.le_of_succ_le_succ hlen)]

theorem textLines_line (hl : '\n' ∉ l) : textLines (l ++ '\n' :: rest) = l :: textLines rest := by
  induction l with
  | nil => simp [textLines]
  | cons c l ih =>
    rw [List.mem_cons, not_or] at hl
    rw [List.cons_append, textLines, if_neg (by simp [Ne.symm hl.1]), ih hl.2]

theorem textLines_end (hl : '\n' ∉ l) :
    textLines l = if l.getLast? = some '\r' then [l.dropLast, []] else [l] := by
  induction l with
  | nil => rfl
  | cons c l ih =>
    rw [List.mem_cons, not_or] at hl
    rw [textLines]
    cases l with
    | nil =>
      by_cases hc : c = '\r'
      · simp [hc, textLines]
      · simp [hc, Ne.symm hl.1, textLines]
    | cons c' l =>
      rw [if_neg (by simp [Ne.symm hl.1]), ih hl.2, List.getLast?_cons_cons]
      by_cases hlast : (c' :: l).getLast? = some '\r'
      · rw [if_pos hlast, if_pos hlast]
        rfl
      · rw [if_neg hlast, if_neg hlast]

theorem textLines_ne_nil (text : List Char) : textLines text ≠ [] := by
  cases text with
  | nil => simp [textLines]
  | cons c s =>
    rw [textLines]
    split
    · simp
    · split <;> simp

theorem bufSource_nil (n : Nat) : bufSource n [] = [] := by
  cases n <;> rfl

theorem bufSource_cons (n : Nat) {c : Char} (hc : c ≠ '\x00') (s : List Char) :
    bufSource (n + 1) (c :: s) =
    (bufChunk (bufsz - 1) (c :: s)).1 :: bufSource n (bufChunk (bufsz - 1) (c :: s)).2 := by
  have hgets : bufGets bufsz (c :: s) = some (bufChunk (bufsz - 1) (c :: s)) := by
    rw [bufGets, if_neg (by decide)]
    exact if_neg hc
  rw [bufSource, hgets]

theorem takeWhile_of_notMem (h : '\x00' ∉ l) : l.takeWhile (· ≠ '\x00') = l :=
  List.takeWhile_eq_self_iff.mpr fun x hx => by simpa using fun heq : x = '\x00' => h (heq ▸ hx)

/-- A chunk that ends with a line end. -/
theorem readLines_ended {c : Char} (hl : '\x00' ∉ l ++ [c]) (hc : isnl c = true)
    (ln : List Char) (src : Source) :
    readLines ln ((l ++ [c]) :: src) = (ln ++ l) :: readLines [] src := by
  rw [readLines]
  simp only [takeWhile_of_notMem hl, List.getLast?_concat, if_pos hc, List.dropLast_concat]

/-- A last chunk that does not. -/
theorem readLines_unended {c : Char} (hl : '\x00' ∉ l ++ [c]) (hc : isnl c = false)
    (ln : List Char) : readLines ln [l ++ [c]] = [] := by
  rw [readLines]
  simp only [takeWhile_of_notMem hl, List.getLast?_concat, hc, Bool.false_eq_true, if_false]
  rfl

/-- A text that `cs_getline` reads line by line: it is a C string, and its lines fit the buffer. -/
def Fits (text : List Char) : Prop :=
  '\x00' ∉ text ∧ ∀ line ∈ textLines text, line.length + 1 < bufsz

/-- **The lines of a text are read as they are**, but the last one. -/
theorem readLines_bufSource (h : Fits text) {n : Nat} (hn : text.length ≤ n) :
    readLines [] (bufSource n text) = (textLines text).dropLast := by
  induction n generalizing text with
  | zero =>
    obtain rfl := List.eq_nil_of_length_eq_zero (Nat.le_zero.mp hn)
    rfl
  | succ n ih =>
    obtain ⟨hnul, hfits⟩ := h
    cases text with
    | nil => rfl
    | cons c s =>
      rw [bufSource_cons n (fun h => hnul (h ▸ List.mem_cons_self))]
      by_cases hnl : '\n' ∈ c :: s
      · obtain ⟨l, rest, heq, hl⟩ := List.eq_append_cons_of_mem hnl
        rw [heq] at hnul hfits hn ⊢
        rw [textLines_line hl] at hfits ⊢
        have hlen := hfits l List.mem_cons_self
        have hrest : Fits rest :=
          ⟨fun h => hnul (by simp [h]), fun line hline => hfits line (List.mem_cons_of_mem _ hline)⟩
        have hchunk : '\x00' ∉ l ++ ['\n'] := fun h => hnul (by
          rcases List.mem_append.mp h with h | h
          · exact List.mem_append_left _ h
          · exact absurd (List.mem_singleton.mp h) (by decide))
        rw [bufChunk_line hl (by omega), readLines_ended hchunk rfl,
          List.dropLast_cons_of_ne_nil (textLines_ne_nil rest), ih hrest, List.nil_append]
        rw [List.length_append, List.length_cons] at hn
        omega
      · -- the last line is read only when a carriage return ends it
        have hne : c :: s ≠ [] := List.cons_ne_nil c s
        obtain ⟨l, x, heq⟩ := (List.eq_nil_or_concat' (c :: s)).resolve_left hne
        rw [heq] at hnl hnul hfits ⊢
        rw [textLines_end hnl, List.getLast?_concat, List.dropLast_concat] at hfits ⊢
        by_cases hx : some x = some '\r'
        · rw [if_pos hx] at hfits ⊢
          have hlen := hfits l List.mem_cons_self
          obtain rfl := Option.some.inj hx
          rw [bufChunk_end hnl (by rw [List.length_append, List.length_singleton]; omega),
            bufSource_nil, readLines_ended hnul rfl]
          rfl
        · rw [if_neg hx] at hfits ⊢
          have hlen := hfits (l ++ [x]) List.mem_cons_self
          have hnot : isnl x = false := by
            have hn : x ≠ '\n' := fun h => hnl (by simp [h])
            simpa [isnl, hn] using fun h : x = '\r' => hx (congrArg some h)
          rw [bufChunk_end hnl (by omega), bufSource_nil, readLines_unended hnul hnot]
          rfl

end Buffer

/-! ## 4. Loading a text -/

/-- The lines of a text, without those that say nothing. -/
def textTokens (text : List Char) : List Line := tokens (textLines text)

theorem empty_notMem_tokens (lines : List (List Char)) : .empty ∉ tokens lines := by
  unfold tokens
  simp

theorem tokens_concat (lines : List (List Char)) (line : List Char) :
    ∃ l : Option Line, tokens (lines ++ [line]) = tokens lines ++ l.toList := by
  unfold tokens
  rw [List.filterMap_append, List.filter_append]
  cases hparse : parseLine line with
  | none => exact ⟨none, by simp [hparse]⟩
  | some l =>
    by_cases hl : l = .empty
    · exact ⟨none, by simp [hparse, hl]⟩
    · exact ⟨some l, by simp [hparse, hl]⟩

/-- **A text that is loaded is well formed exactly when** no `{` is directly behind a key with a
value and there are as many `{` as `}`.  The loader refuses a `}` too many, but takes the end of the
source for the end of all sections, and it has forgotten at a `{` whether the key before it had a
value. -/
theorem wellFormed_iff {text : List Char} {c : Config} (hfits : Fits text)
    (hload : loadFromBuf text = some c) :
    WellFormed (textTokens text) ↔ NoValueBefore (textTokens text) ∧
      (textTokens text).countP Line.isOpening = (textTokens text).countP Line.isClosing := by
  obtain ⟨src, hreturns⟩ := returns_of_loadFromBuf hload
  obtain ⟨hroot, haccepts⟩ := accepts_of_returns hreturns rfl
  have hread : Accepts 0 false ((textLines text).dropLast.filterMap parseLine) := by
    rw [← readLines_bufSource hfits (Nat.le_refl _)]
    refine haccepts ?_
    rw [hroot rfl]
    trivial
  have hlast := List.dropLast_concat_getLast (textLines_ne_nil text)
  obtain ⟨l, hl⟩ := tokens_concat (textLines text).dropLast ((textLines text).getLast
    (textLines_ne_nil text))
  rw [hlast] at hl
  rw [textTokens, hl]
  exact wellFormed_iff_of_accepts (accepts_filter.mpr hread) (empty_notMem_tokens _)

/-- The `{` of a section whose name is two lines above it: the text is loaded. -/
theorem not_wellFormed_behind_value : ¬ WellFormed (textTokens
    ['x', '\n', 'a', ' ', '1', '\n', '{', '\n', '}', '\n']) := by
  intro h
  obtain ⟨c, hload⟩ := Option.isSome_iff_exists.mp
    (by decide +kernel : (loadFromBuf ['x', '\n', 'a', ' ', '1', '\n', '{', '\n',
      '}', '\n']).isSome)
  have hvalue := ((wellFormed_iff ⟨by decide, by decide⟩ hload).mp h).1
    [.assign ['x'] []] ['a'] ['1'] true [.closing true] (by decide)
  cases hvalue

/-- **A section that is not closed** is loaded like any other. -/
theorem section_not_closed : (loadFromBuf ['x', '\n', '{', '\n']).isSome ∧
    ¬ WellFormed (textTokens ['x', '\n', '{', '\n']) := by
  refine ⟨by decide +kernel, fun h => ?_⟩
  have hmatched := h.matched
  revert hmatched
  decide

end Libu.Config
