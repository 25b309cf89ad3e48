/-
# Comments and lines (`u_config_remove_comment`, `cs_getline`)

* §1 is the loop of `u_config_remove_comment` on its buffer, where the rest of the line is moved
  over a backslash and the cursor stays.  It is `scanComment`, which has the part before the cursor
  reversed.
* §2 says what is left of a line: the text before its first `#` that no backslash is before, with
  the escaped ones unescaped (`removeComment_eq`).
* §3 is what a `gets` callback may make of a text.
* §4: `cs_getline` drops the last character of every chunk, which is a line end when the line fits
  the buffer and is not the last one without its newline.  It reads the lines of a text exactly when
  that is so of all of them (`getline_lines_iff`).
-/
import Libu.Config.Grammar

namespace Libu.Config

open Verif

/-! ## 1. The buffer of `u_config_remove_comment` -/

/-- The loop of `u_config_remove_comment`: `ln` is the buffer and `p` the index of the cursor. -/
def commentLoop (ln : List Char) (p : Nat) (last : Char) : List Char :=
  if h : p < ln.length then
    if ln[p] = '#' then
      if last ≠ '\\' then ln.take p
      -- `memmove(p - 1, p, rlen)`, and `p` is not advanced
      else commentLoop (ln.eraseIdx (p - 1)) p ln[p]
    else commentLoop ln (p + 1) ln[p]
  else ln
termination_by ln.length - p
decreasing_by
  · rw [List.length_eraseIdx_of_lt (by omega)]
    omega
  · omega

section Comment

variable {line pre seen s : List Char} {c last : Char}

/-- **The buffer is scanned as its characters are**, when `last` is one of those gone over. -/
theorem commentLoop_eq (hlast : last = '\\' → seen ≠ []) :
    commentLoop (seen.reverse ++ s) seen.length last = scanComment seen last s := by
  induction s generalizing seen last with
  | nil =>
    rw [commentLoop, dif_neg (by simp), List.append_nil, scanComment]
  | cons c s ih =>
    have hlt : seen.length < (seen.reverse ++ c :: s).length := by simp
    have hget : (seen.reverse ++ c :: s)[seen.length] = c := by simp
    rw [commentLoop, dif_pos hlt, hget, scanComment]
    by_cases hc : c = '#'
    · rw [if_pos hc, if_pos hc]
      by_cases hesc : last ≠ '\\'
      · rw [if_pos hesc, if_pos hesc, List.take_append_of_le_length (by simp),
          List.take_of_length_le (by simp)]
      · rw [if_neg hesc, if_neg hesc]
        cases seen with
        | nil => exact absurd rfl (hlast (not_not.mp hesc))
        | cons b seen =>
          have herase : ((b :: seen).reverse ++ c :: s).eraseIdx ((b :: seen).length - 1) =
              (c :: seen).reverse ++ s := by
            simp [List.eraseIdx_append_of_length_le]
          rw [herase, List.tail_cons]
          exact ih (by simp)
    · rw [if_neg hc, if_neg hc]
      have happend : seen.reverse ++ c :: s = (c :: seen).reverse ++ s := by simp
      rw [happend]
      exact ih (by simp)

theorem removeComment_loop (line : List Char) :
    removeComment line = if 2048 ≤ line.length then none else some (commentLoop line 0 '\x00') := by
  have hloop := @commentLoop_eq [] line '\x00' (by decide)
  rw [List.reverse_nil, List.nil_append, List.length_nil] at hloop
  rw [removeComment, hloop]

/-! ## 2. What is left of a line -/

/-- A `#` that is not right behind a backslash. -/
def StartsComment (ln : List Char) (i : Nat) : Prop :=
  ln[i]? = some '#' ∧ ∀ j, i = j + 1 → ln[j]? ≠ some '\\'

/-- Every `\#` is a `#`. -/
def unescape : List Char → List Char
  | [] => []
  | '\\' :: '#' :: s => '#' :: unescape s
  | c :: s => c :: unescape s

theorem unescape_cons (h : ¬ ['\\', '#'] <+: c :: s) : unescape (c :: s) = c :: unescape s := by
  rw [unescape]
  rintro rest rfl rfl
  exact h (List.prefix_append ['\\', '#'] rest)

/-- A text is unescaped piece by piece, where the pieces do not part a `\#`. -/
theorem unescape_append (h : pre.getLast? = some '\\' → s.head? ≠ some '#') :
    unescape (pre ++ s) = unescape pre ++ unescape s := by
  fun_induction unescape pre with
  | case1 => rfl
  | case2 pre ih =>
    rw [List.cons_append, List.cons_append, unescape, ih, List.cons_append]
    intro hlast
    cases pre with
    | nil => cases hlast
    | cons d pre => exact h (by simpa using hlast)
  | case3 d pre hpair ih =>
    have hcons : ¬ ['\\', '#'] <+: d :: (pre ++ s) := by
      intro hstart
      obtain ⟨rfl, hbehind⟩ := List.cons_prefix_cons.mp hstart
      cases pre with
      | nil =>
        obtain ⟨t, rfl⟩ := hbehind
        exact h rfl rfl
      | cons b pre =>
        obtain ⟨rfl, -⟩ := List.cons_prefix_cons.mp hbehind
        exact hpair pre rfl rfl
    rw [List.cons_append, unescape_cons hcons, ih, List.cons_append]
    intro hlast
    cases pre with
    | nil => cases hlast
    | cons b pre => exact h (by simpa using hlast)

/-- What the loop is at behind the text `pre` of a line: it has unescaped it, and `last` is its last
character. -/
structure At (pre seen : List Char) (last : Char) : Prop where
  seen : seen.reverse = unescape pre
  last : last = pre.getLast?.getD '\x00'

/-- A character that is not a `#`. -/
theorem At.next (h : At pre seen last) (hc : c ≠ '#') : At (pre ++ [c]) (c :: seen) c := by
  refine ⟨?_, by simp⟩
  rw [List.reverse_cons, h.seen, unescape_append (by simpa using fun _ => hc),
    unescape_cons (by simp)]
  rfl

/-- A `#` behind a backslash takes its place. -/
theorem At.escaped (h : At pre seen '\\') : At (pre ++ ['#']) ('#' :: seen.tail) '#' := by
  refine ⟨?_, by simp⟩
  obtain ⟨pre', rfl⟩ : ∃ pre', pre = pre' ++ ['\\'] := by
    have hlast := h.last
    rcases List.eq_nil_or_concat' pre with rfl | ⟨pre', b, rfl⟩
    · exact absurd hlast (by decide)
    · rw [List.getLast?_concat, Option.getD_some] at hlast
      exact ⟨pre', by rw [hlast]⟩
  have hseen : seen = '\\' :: (unescape pre').reverse := by
    have hrev := congrArg List.reverse h.seen
    rw [unescape_append (by simp), List.reverse_reverse, List.reverse_append] at hrev
    exact hrev
  rw [hseen, List.tail_cons, List.append_assoc, unescape_append (by simp)]
  simp [unescape]

theorem startsComment_length : StartsComment (pre ++ c :: s) pre.length ↔ c = '#' ∧
    pre.getLast? ≠ some '\\' := by
  unfold StartsComment
  rw [List.getElem?_append_right (Nat.le_refl _), Nat.sub_self, List.getElem?_cons_zero,
    Option.some.injEq]
  refine and_congr_right fun _ => ?_
  rcases List.eq_nil_or_concat' pre with rfl | ⟨pre', b, rfl⟩
  · simp
  · simp

/-- **What the loop leaves** of a line is its text up to the first comment. -/
theorem At.scan (h : At pre seen last) (hclean : ∀ i < pre.length, ¬ StartsComment (pre ++ s) i) :
    ∃ n ≤ (pre ++ s).length, (∀ i < n, ¬ StartsComment (pre ++ s) i) ∧
      (n = (pre ++ s).length ∨ StartsComment (pre ++ s) n) ∧
      scanComment seen last s = unescape ((pre ++ s).take n) := by
  induction s generalizing pre seen last with
  | nil =>
    refine ⟨pre.length, by simp, hclean, .inl (by simp), ?_⟩
    rw [List.append_nil, List.take_length, scanComment, h.seen]
  | cons c s ih =>
    by_cases hstarts : StartsComment (pre ++ c :: s) pre.length
    · refine ⟨pre.length, by simp, hclean, .inr hstarts, ?_⟩
      obtain ⟨rfl, hlast⟩ := startsComment_length.mp hstarts
      have hesc : last ≠ '\\' := by
        rw [h.last]
        cases hget : pre.getLast? with
        | none => decide
        | some b => simpa [hget] using hlast
      rw [scanComment, if_pos rfl, if_pos hesc, h.seen, List.take_left]
    · have hnext : ∀ i < (pre ++ [c]).length, ¬ StartsComment ((pre ++ [c]) ++ s) i := by
        intro i hi
        rw [List.append_assoc, List.singleton_append]
        rcases Nat.lt_succ_iff_lt_or_eq.mp (by simpa using hi) with hi | rfl
        · exact hclean i hi
        · exact hstarts
      have happend : pre ++ c :: s = (pre ++ [c]) ++ s := by simp
      rw [happend, scanComment]
      by_cases hc : c = '#'
      · have hesc : last = '\\' := by
          rw [h.last]
          have hlast : pre.getLast? = some '\\' := not_not.mp fun hlast => hstarts
            (startsComment_length.mpr ⟨hc, hlast⟩)
          rw [hlast, Option.getD_some]
        subst hesc hc
        rw [if_pos rfl, if_neg (not_not.mpr rfl)]
        exact ih h.escaped hnext
      · rw [if_neg hc]
        exact ih (h.next hc) hnext

/-- **`u_config_remove_comment`** leaves the text before the first comment, with every `\#` a `#`.
The source shifts the rest of the line over each backslash that it finds, in place; what is proved
is that the loop, with its counter and its shifts, is this one pass over the line. -/
theorem removeComment_eq (line : List Char) (h : line.length < 2048) :
    ∃ n ≤ line.length, (∀ i < n, ¬ StartsComment line i) ∧
    (n = line.length ∨ StartsComment line n) ∧
      removeComment line = some (unescape (line.take n)) := by
  have hstart : At [] [] '\x00' := ⟨rfl, rfl⟩
  obtain ⟨n, hn, hclean, hend, hscan⟩ := @At.scan [] [] line '\x00' hstart (by simp)
  rw [List.nil_append] at hn hclean hend hscan
  exact ⟨n, hn, hclean, hend, by rw [removeComment, if_neg (by omega), hscan]⟩

/-- An escaped `#`, and one behind it that is not. -/
theorem removeComment_escapes : ∃ n, removeComment ['a', '\\', '#', '#', ' ', 'b'] =
    some (unescape (['a', '\\', '#', '#', ' ', 'b'].take n)) := by
  obtain ⟨n, -, -, -, heq⟩ := removeComment_eq ['a', '\\', '#', '#', ' ', 'b'] (by decide)
  exact ⟨n, heq⟩

end Comment

/-! ## 3. Chunks -/

/-- The lines of a text.  The last one may lack its newline. -/
def wholeLines : List Char → List (List Char)
  | [] => []
  | c :: s =>
    if c = '\n' then [] :: wholeLines s
    else
      match wholeLines s with
      | [] => [[c]]
      | line :: lines => (c :: line) :: lines

/-- What a `gets` callback may make of a text, call after call: a chunk ends at a newline, where the
buffer is full or where the text ends. -/
inductive Cuts : List Char → Source → Prop
  | eof : Cuts [] []
  | chunk {buf rest : List Char} {src : Source} : buf ≠ [] → buf.length < bufsz →
    '\n' ∉ buf.dropLast →
      buf.getLast? = some '\n' ∨ buf.length = bufsz - 1 ∨ rest = [] → Cuts rest src →
      Cuts (buf ++ rest) (buf :: src)

section Chunks

variable {text l rest : List Char} {src : Source}

theorem wholeLines_line (hl : '\n' ∉ l) : wholeLines (l ++ '\n' :: rest) =
    l :: wholeLines rest := by
  induction l with
  | nil => simp [wholeLines]
  | cons c l ih =>
    rw [List.mem_cons, not_or] at hl
    rw [List.cons_append, wholeLines, if_neg (Ne.symm hl.1), ih hl.2]

/-- A line is not shorter than what is known of it. -/
theorem wholeLines_open (hl : '\n' ∉ l) (hne : l ≠ []) : ∃ line ∈ wholeLines (l ++ rest),
    l.length ≤ line.length := by
  suffices h : ∃ line lines, wholeLines (l ++ rest) = line :: lines ∧ l.length ≤ line.length by
    obtain ⟨line, lines, heq, hlen⟩ := h
    exact ⟨line, by rw [heq]; exact List.mem_cons_self, hlen⟩
  induction l with
  | nil => exact absurd rfl hne
  | cons c l ih =>
    rw [List.mem_cons, not_or] at hl
    rw [List.cons_append, wholeLines, if_neg (Ne.symm hl.1)]
    cases l with
    | nil =>
      rw [List.nil_append]
      cases wholeLines rest with
      | nil => exact ⟨[c], [], rfl, Nat.le_refl _⟩
      | cons line lines => exact ⟨c :: line, lines, rfl, by simp⟩
    | cons d l =>
      obtain ⟨line, lines, heq, hlen⟩ := ih hl.2 (by simp)
      rw [heq]
      exact ⟨c :: line, lines, rfl, Nat.succ_le_succ hlen⟩

/-- The characters of the lines are those of the text but for its newlines. -/
theorem length_wholeLines (text : List Char) : (wholeLines text).flatten.length + text.count
    '\n' = text.length := by
  fun_induction wholeLines text with
  | case1 => rfl
  | case2 s ih =>
    rw [List.flatten_cons, List.nil_append, List.count_cons_self, List.length_cons, ← ih]; rfl
  | case3 c s hc hnil ih =>
    rw [hnil] at ih
    rw [List.count_cons_of_ne hc, List.length_cons, ← ih]
    simp only [List.flatten_cons, List.flatten_nil, List.length_append,
      List.length_cons, List.length_nil]
    omega
  | case4 c s hc line lines hlines ih =>
    rw [hlines] at ih
    rw [List.count_cons_of_ne hc, List.length_cons, ← ih]
    simp only [List.flatten_cons, List.length_append, List.length_cons]
    omega

/-- A chunk that ends with no newline has none. -/
theorem notMem_chunk {buf : List Char} (hdrop : '\n' ∉ buf.dropLast)
    (hlast : buf.getLast? ≠ some '\n') : '\n' ∉ buf := by
  rcases List.eq_nil_or_concat' buf with rfl | ⟨l, c, rfl⟩
  · exact List.not_mem_nil
  · rw [List.dropLast_concat] at hdrop
    rw [List.getLast?_concat] at hlast
    simpa [hdrop] using fun h : '\n' = c => hlast (congrArg some h.symm)

/-- There are no more newlines than chunks. -/
theorem Cuts.count (h : Cuts text src) : text.count '\n' ≤ src.length ∧
    (src.length ≤ text.count '\n' → ∀ buf ∈ src, buf.getLast? = some '\n') := by
  induction h with
  | eof => simp
  | @chunk buf rest src _ _ hdrop _ _ ih =>
    rw [List.count_append, List.length_cons]
    by_cases hlast : buf.getLast? = some '\n'
    · obtain ⟨l, rfl⟩ := List.getLast?_eq_some_iff.mp hlast
      rw [List.dropLast_concat] at hdrop
      rw [List.count_append, List.count_eq_zero.mpr hdrop, List.count_singleton_self]
      refine ⟨by omega, fun hle => ?_⟩
      rw [List.forall_mem_cons]
      exact ⟨hlast, ih.2 (by omega)⟩
    · rw [List.count_eq_zero.mpr (notMem_chunk hdrop hlast)]
      exact ⟨by omega, fun hle => by omega⟩

/-- **`u_config_buf_gets` keeps to the contract.** -/
theorem bufChunk_spec (size : Nat) (data : List Char) :
    (bufChunk size data).1 ++ (bufChunk size data).2 = data ∧ (bufChunk size data).1.length ≤ size ∧
      '\n' ∉ (bufChunk size data).1.dropLast ∧ ((bufChunk size data).1.getLast? = some '\n' ∨
        (bufChunk size data).1.length = size ∨ (bufChunk size data).2 = []) := by
  fun_induction bufChunk size data with
  | case1 => simp
  | case2 => simp
  | case3 => simp
  | case4 size c data hc s data' heq ih =>
    rw [heq] at ih
    obtain ⟨happend, hlen, hdrop, hend⟩ := ih
    refine ⟨congrArg (c :: ·) happend, Nat.succ_le_succ hlen, ?_, ?_⟩
    · cases s with
      | nil => simp
      | cons d s => simpa [Ne.symm hc] using hdrop
    · rcases hend with hlast | hfull | hrest
      · cases s with
        | nil => cases hlast
        | cons d s => exact .inl (by simpa using hlast)
      · exact .inr (.inl (congrArg (· + 1) hfull))
      · exact .inr (.inr hrest)

theorem cuts_bufSource {n : Nat} (hnul : '\x00' ∉ text) (hn : text.length ≤ n) :
    Cuts text (bufSource n text) := by
  induction n generalizing text with
  | zero =>
    obtain rfl := List.eq_nil_of_length_eq_zero (Nat.le_zero.mp hn)
    exact .eof
  | succ n ih =>
    cases text with
    | nil => exact .eof
    | cons c s =>
      have hc : c ≠ '\x00' := fun h => hnul (h ▸ List.mem_cons_self)
      obtain ⟨happend, hlen, hdrop, hend⟩ := bufChunk_spec (bufsz - 1) (c :: s)
      have hne : (bufChunk (bufsz - 1) (c :: s)).1 ≠ [] := by
        show (bufChunk (1022 + 1) (c :: s)).1 ≠ []
        rw [bufChunk]
        split <;> simp
      have hpos := List.length_pos_of_ne_nil hne
      have hsum := congrArg List.length happend
      rw [List.length_append] at hsum
      have hrest := @ih (bufChunk (bufsz - 1) (c :: s)).2
        (fun h => hnul (happend ▸ List.mem_append_right _ h)) (by omega)
      have hcuts := Cuts.chunk hne (Nat.lt_of_le_of_lt hlen (by decide)) hdrop hend hrest
      rwa [happend, ← bufSource_cons n hc s] at hcuts

end Chunks

/-! ## 4. Lines -/

section Lines

variable {text ln : List Char} {src : Source}

/-- The characters of the lines that are read: every chunk has lost one. -/
theorem length_readLines (h : Cuts text src) (hnul : '\x00' ∉ text) (ln : List Char) :
    (readLines ln src).flatten.length + src.length ≤ ln.length + text.length := by
  induction h generalizing ln with
  | eof => simp [readLines]
  | @chunk buf rest src hne _ _ _ _ ih =>
    rw [List.mem_append, not_or] at hnul
    obtain ⟨l, c, rfl⟩ := (List.eq_nil_or_concat' buf).resolve_left hne
    rw [readLines]
    simp only [takeWhile_of_notMem hnul.1, List.getLast?_concat, List.dropLast_concat]
    by_cases hc : isnl c = true
    · have hle := ih hnul.2 []
      rw [if_pos hc]
      simp only [List.flatten_cons, List.length_append, List.length_cons, List.length_nil] at hle ⊢
      omega
    · have hle := ih hnul.2 (ln ++ l)
      rw [if_neg hc]
      simp only [List.length_append, List.length_cons, List.length_nil] at hle ⊢
      omega

/-- Chunks that are lines are read as such. -/
theorem readLines_lines (h : Cuts text src) (hnul : '\x00' ∉ text) (hlines : ∀ buf ∈ src,
    buf.getLast? = some '\n') : readLines [] src = wholeLines text := by
  induction h with
  | eof => rfl
  | @chunk buf rest src _ _ hdrop _ _ ih =>
    rw [List.mem_append, not_or] at hnul
    rw [List.forall_mem_cons] at hlines
    obtain ⟨l, rfl⟩ := List.getLast?_eq_some_iff.mp hlines.1
    rw [List.dropLast_concat] at hdrop
    rw [readLines_ended hnul.1 rfl, ih hnul.2 hlines.2, List.append_assoc, List.singleton_append,
      wholeLines_line hdrop, List.nil_append]

/-- The lines that fit the buffer with their newlines. -/
structure AllEnded (text : List Char) : Prop where
  fits : ∀ line ∈ wholeLines text, line.length + 1 < bufsz
  ended : ∀ c ∈ text.getLast?, c = '\n'

theorem Cuts.allEnded_iff (h : Cuts text src) : AllEnded text ↔ ∀ buf ∈ src,
    buf.getLast? = some '\n' := by
  induction h with
  | eof => exact ⟨fun _ => by simp, fun _ => ⟨by simp [wholeLines], by simp⟩⟩
  | @chunk buf rest src hne hlen hdrop hend hcuts ih =>
    rw [List.forall_mem_cons, ← ih]
    by_cases hlast : buf.getLast? = some '\n'
    · obtain ⟨l, rfl⟩ := List.getLast?_eq_some_iff.mp hlast
      rw [List.dropLast_concat] at hdrop
      rw [List.length_append, List.length_singleton] at hlen
      rw [List.append_assoc, List.singleton_append, and_iff_right hlast]
      have hends : (∀ c ∈ (l ++ '\n' :: rest).getLast?, c = '\n') ↔
        ∀ c ∈ rest.getLast?, c = '\n' := by
        cases rest with
        | nil => simp
        | cons d rest => simp
      constructor
      · rintro ⟨hfits, hended⟩
        rw [wholeLines_line hdrop, List.forall_mem_cons] at hfits
        exact ⟨hfits.2, hends.mp hended⟩
      · rintro ⟨hfits, hended⟩
        refine ⟨?_, hends.mpr hended⟩
        rw [wholeLines_line hdrop, List.forall_mem_cons]
        exact ⟨hlen, hfits⟩
    · -- the chunk is a whole buffer without a newline, or what is left of the text
      have hnl := notMem_chunk hdrop hlast
      refine iff_of_false ?_ fun h => hlast h.1
      rintro ⟨hfits, hended⟩
      rcases hend with h | hfull | rfl
      · exact hlast h
      · obtain ⟨line, hline, hle⟩ := @wholeLines_open buf rest hnl hne
        have hlt := hfits line hline
        omega
      · rw [List.append_nil] at hended
        obtain ⟨l, c, rfl⟩ := (List.eq_nil_or_concat' buf).resolve_left hne
        rw [List.getLast?_concat] at hlast hended
        exact hlast (congrArg some (hended c rfl))

/-- **`cs_getline` reads the lines of a text exactly when each fits the buffer with its newline**,
however the text comes in chunks.  A longer line comes in pieces, of which the characters at the
cuts are lost, and a last line without a newline is not returned at all. -/
theorem getline_lines_iff (hnul : '\x00' ∉ text) (hcuts : Cuts text src) :
    readLines [] src = wholeLines text ↔ AllEnded text := by
  rw [hcuts.allEnded_iff]
  constructor
  · intro heq
    have hread := length_readLines hcuts hnul []
    have hlines := length_wholeLines text
    rw [heq, List.length_nil] at hread
    exact hcuts.count.2 (by omega)
  · exact readLines_lines hcuts hnul

/-- Two lines. -/
theorem getline_lines_two : readLines [] [['a', '\n'], ['\n']] = wholeLines ['a', '\n', '\n'] := by
  have hcuts : Cuts (['a', '\n'] ++ (['\n'] ++ [])) [['a', '\n'], ['\n']] :=
    .chunk (by decide) (by decide) (by decide) (.inl rfl) (.chunk (by decide) (by decide)
      (by decide) (.inl rfl) .eof)
  exact (getline_lines_iff (by decide) hcuts).mpr ⟨by decide, by simp⟩

/-- A line that is as long as the buffer is read without its last character. -/
theorem readLines_glued {l : List Char} {c : Char} (hnul : '\x00' ∉ l ++ [c])
    (hc : isnl c = false) : readLines [] [l ++ [c], ['\n']] = [l] := by
  rw [readLines]
  simp only [takeWhile_of_notMem hnul, List.getLast?_concat, List.dropLast_concat, hc,
    Bool.false_eq_true, if_false, List.nil_append]
  exact (readLines_ended (l := []) (by decide) rfl l []).trans (by rw [List.append_nil]; rfl)

/-- A line of 1023 characters comes in two chunks. -/
theorem long_line_cut : ∃ l, l = List.replicate 1022 'a' ∧ '\x00' ∉ l ++ ['a', '\n'] ∧
    Cuts (l ++ ['a', '\n']) [l ++ ['a'], ['\n']] ∧
    readLines [] [l ++ ['a'], ['\n']] ≠ wholeLines (l ++ ['a', '\n']) := by
  obtain ⟨l, hl', hlen, hl⟩ : ∃ l : List Char, l = List.replicate 1022 'a' ∧ l.length = 1022 ∧
      ∀ c ∈ l, c = 'a' :=
    ⟨_, rfl, List.length_replicate, fun c hc => List.eq_of_mem_replicate hc⟩
  have hmem : ∀ c ∈ l ++ ['a'], c = 'a' := by
    intro c hc
    rcases List.mem_append.mp hc with hc | hc
    · exact hl c hc
    · exact List.mem_singleton.mp hc
  have hnl : '\n' ∉ l ++ ['a'] := fun hin => absurd (hmem _ hin) (by decide)
  have hnul : '\x00' ∉ l ++ ['a'] := fun hin => absurd (hmem _ hin) (by decide)
  have hfull : (l ++ ['a']).length = bufsz - 1 := by
    rw [List.length_append, hlen]
    rfl
  have hcuts : Cuts ((l ++ ['a']) ++ (['\n'] ++ [])) [l ++ ['a'], ['\n']] :=
    .chunk (by simp) (by rw [hfull]; decide) (fun hin => hnl (List.dropLast_subset _ hin))
    (.inr (.inl hfull))
      (.chunk (by decide) (by decide) (by decide) (.inl rfl) .eof)
  have htext : l ++ ['a', '\n'] = (l ++ ['a']) ++ (['\n'] ++ []) := by simp
  rw [← htext] at hcuts
  refine ⟨l, hl', by simpa using hnul, hcuts, fun hread => ?_⟩
  rw [htext] at hread
  rw [readLines_glued hnul rfl, List.append_nil, wholeLines_line hnl] at hread
  have heq := congrArg List.length (List.cons.inj hread).1
  rw [List.length_append, List.length_singleton] at heq
  omega

end Lines

end Libu.Config
