/-
# Which texts are accepted

The parser's theorems turned into statements about texts.

* §1 compares decoding with validation: they agree on the texts whose elements fit the buffers and
  the nesting limit (`decode_iff_validate`).
* §2 is what validation lets through beyond the tolerated deviations from RFC 4627: white space
  between the letters of a literal name.  `splits` finds it in a text by scanning it once, and
  `validate_tolerant_iff` says that an accepted text is in the documented language exactly when the
  scan finds none.
* §3 is what decoding refuses within RFC 4627: DEL in a string.  `decode_rfc_iff` says that this is
  all, and that the tree is what the text denotes.
-/
import Libu.Json.Parse

namespace Libu.Json

open Verif Lexer

variable {s t x : List Char} {f : Forest JsonItem} {o : Bool}

/-! ## 1. Decoding and validating -/

/-- Every string and number of the text is shorter than `U_TOKEN_SZ - 1`. -/
def Short (f : Forest JsonItem) : Prop :=
  f.AllAt (fun _ i => i.key.length < tokenSz - 1 ∧ i.val.length < tokenSz - 1) 0

/-- No element is nested at depth `U_JSON_MAX_DEPTH` or more, so that a tree of the text can be
built. -/
def Shallow (f : Forest JsonItem) : Prop := f.AllAt (fun d _ => d < jsonMaxDepth) 0

/-- The character is in no name and in no lexeme of the element. -/
def Lacks (b : Char) (_ : Nat) (i : JsonItem) : Prop := b ∉ i.key ∧ b ∉ i.val

/-- No string has a DEL in it, which is what the code refuses in both modes. -/
def Clean (f : Forest JsonItem) : Prop := f.AllAt (Lacks del) 0

instance : DecidablePred Short := fun f =>
  inferInstanceAs (Decidable (f.AllAt (fun _ i => i.key.length < tokenSz - 1 ∧
    i.val.length < tokenSz - 1) 0))

instance : DecidablePred Shallow := fun f =>
  inferInstanceAs (Decidable (f.AllAt (fun d _ => d < jsonMaxDepth) 0))

/-- What validation accepts. -/
theorem accepts_false : f.AllAt (Accepts false) 0 ↔ Clean f :=
  ⟨Forest.AllAt.imp fun _ _ h => h.1, Forest.AllAt.imp fun _ _ h => ⟨h, fun hb => (nomatch hb)⟩⟩

/-- What decoding accepts: it must fit the buffers and the nesting limit besides. -/
theorem accepts_true : f.AllAt (Accepts true) 0 ↔ Clean f ∧ Shallow f ∧ Short f := by
  rw [Clean, Shallow, Short, ← Forest.allAt_and, ← Forest.allAt_and]
  have hsz : ∀ n : Nat, n < tokenSz - 1 ↔ n + 1 < tokenSz := fun n => Nat.lt_sub_iff_add_lt
  constructor
  · refine Forest.AllAt.imp fun d i h => ⟨h.1, ?_⟩
    rw [hsz, hsz]
    exact h.2 rfl
  · refine Forest.AllAt.imp fun d i h => ⟨h.1, fun _ => ?_⟩
    have hfits := h.2
    rw [hsz, hsz] at hfits
    exact hfits

/-- **Decoding and validation agree.**  On a text whose strings and numbers are short, decoding
succeeds if and only if validation does and no element is nested too deep. -/
theorem decode_iff_validate (s : List Char) (hshort : ∀ f, Reads code (cString s) f → Short f) :
    (∃ jo, decode s = .ok jo) ↔
      validate s = .ok () ∧ ∀ f, Reads code (cString s) f → Shallow f := by
  constructor
  · rintro ⟨jo, h⟩
    obtain ⟨hreads, hgood⟩ := decode_sound h
    have hclean := (accepts_true.mp hgood).1
    obtain ⟨⟨⟩, hv, -⟩ :=
      (validate_outcome (hreads.mono code_le_lenient)).ok (accepts_false.mpr hclean)
    refine ⟨hv, fun f hf => ?_⟩
    have hout := decode_outcome (hf.mono code_le_lenient)
    exact (accepts_true.mp (hout.good jo h)).2.1
  · rintro ⟨hv, hdeep⟩
    obtain ⟨f, hf⟩ := validate_sound hv
    have hclean := accepts_false.mp ((validate_outcome (hf.mono code_le_lenient)).good () hv)
    obtain ⟨jo, h, -⟩ := (decode_outcome (hf.mono code_le_lenient)).ok
      (accepts_true.mpr ⟨hclean, hdeep f hf, hshort f hf⟩)
    exact ⟨jo, h⟩

/-- What a text that is decoded reads as is the tree that is built. -/
theorem reads_unique {jo : Json} (h : decode s = .ok jo) (hf : Reads lenient (cString s) f) :
    jo.tree = f :=
  (decode_outcome hf).post h

/-- `[1,{"a":true}]`: an array with a number, and an object with one of the words. -/
def sampleText : List Char :=
  ['[', '1', ',', '\x7b', '"', 'a', '"', ':', 't', 'r', 'u', 'e', '\x7d', ']']

/-- The tree of `sampleText`, as the parser builds it. -/
def sampleTree : Json :=
  ⟨⟨.array, [], [], 0, 2⟩,
    .node ⟨.number, [], ['1'], 1, 0⟩ .nil
      (.node ⟨.object, [], [], 1, 0⟩ (.node ⟨.true, ['a'], [], 2, 0⟩ .nil .nil) .nil)⟩

theorem decode_sampleText : decode sampleText = .ok sampleTree := by rfl

theorem decode_iff_validate_sample :
    (∃ jo, decode sampleText = .ok jo) ↔
      validate sampleText = .ok () ∧ ∀ f, Reads code (cString sampleText) f → Shallow f :=
  decode_iff_validate sampleText fun f hf => by
    rw [← reads_unique decode_sampleText (hf.mono code_le_lenient)]
    decide

/-! ## 2. White space inside literal names -/

/-- Where a scan of the text is: between tokens, in a string, behind a backslash, or in a literal
name of which `n` letters are to come. -/
inductive Scan
  | plain | string | escape
  | word (n : Nat)
  deriving DecidableEq

/-- White space stands between the letters of a literal name, before the container that the text
starts with is closed.  `depth` counts the open brackets. -/
def splits : Nat → Scan → List Char → Bool
  | _, _, [] => false
  | depth, .plain, c :: s =>
    if c = '"' then splits depth .string s
    else if c = '[' || c = '\x7b' then splits (depth + 1) .plain s
    else if c = ']' || c = '\x7d' then
      if depth ≤ 1 then false else splits (depth - 1) .plain s
    else if c = 't' || c = 'n' then splits depth (.word 3) s
    else if c = 'f' then splits depth (.word 4) s
    else splits depth .plain s
  | depth, .string, c :: s =>
    if c = '"' then splits depth .plain s
    else if c = '\\' then splits depth .escape s
    else splits depth .string s
  | depth, .escape, _ :: s => splits depth .string s
  | depth, .word n, c :: s =>
    isSpace c || if n ≤ 1 then splits depth .plain s else splits depth (.word (n - 1)) s

/-- A scan inside a container goes on behind `t` as it was: there is no split name in it, and what
is opened is closed. -/
def Passes (t : List Char) : Prop :=
  ∀ depth x, splits (depth + 1) .plain (t ++ x) = splits (depth + 1) .plain x

/-- A scan inside a container finds a split name in `t`, whatever is behind it. -/
def Splits (t : List Char) : Prop := ∀ depth x, splits (depth + 1) .plain (t ++ x) = true

/-- Two texts that are passed, one behind the other. -/
theorem Passes.append {u : List Char} (h : Passes t) (hu : Passes u) : Passes (t ++ u) := by
  intro depth x
  rw [List.append_assoc, h, hu]

/-- A split name is found behind a text that is passed. -/
theorem Passes.splits {u : List Char} (h : Passes t) (hu : Splits u) : Splits (t ++ u) := by
  intro depth x
  rw [List.append_assoc, h, hu]

/-- What is behind a split name does not matter any more. -/
theorem Splits.append (u : List Char) (h : Splits t) : Splits (t ++ u) := by
  intro depth x
  rw [List.append_assoc]
  exact h depth _

/-- The characters that mean something to the scan between tokens. -/
def marks : List Char := ['"', '[', '\x7b', ']', '\x7d', 't', 'n', 'f']

/-- A character that changes nothing between tokens: it neither starts a string or a name nor opens
or closes a container. -/
def inert (c : Char) : Bool := c ∉ marks

/-- A class without a character that the scan looks for consists of inert ones. -/
theorem inert_of_class {p : Char → Bool} (hp : marks.any p = false) {c : Char}
    (h : p c = true) : inert c = true := by
  refine decide_eq_true fun hc => ?_
  exact List.any_eq_false.mp hp c hc h

/-- An inert character is passed over. -/
theorem splits_inert {c : Char} (h : inert c = true) (depth : Nat) (x : List Char) :
    Json.splits depth .plain (c :: x) = Json.splits depth .plain x := by
  have hc := of_decide_eq_true h
  simp only [marks, List.mem_cons, List.not_mem_nil, or_false, not_or] at hc
  simp [Json.splits, hc]

/-- Any number of inert characters are passed over. -/
theorem splits_allInert {w : List Char} (h : AllIn inert w) (depth : Nat) (x : List Char) :
    Json.splits depth .plain (w ++ x) = Json.splits depth .plain x := by
  induction w with
  | nil => rfl
  | cons c w ih =>
    obtain ⟨hc, hw⟩ := allIn_cons.mp h
    rw [List.cons_append, splits_inert hc, ih hw]

theorem passes_inert {w : List Char} (h : AllIn inert w) : Passes w :=
  fun depth => splits_allInert h (depth + 1)

/-- White space is inert. -/
theorem inert_of_isSpace {c : Char} : isSpace c = true → inert c = true :=
  inert_of_class rfl

/-- The characters of a number are inert. -/
theorem inert_of_numberChar {c : Char} : numberChar c = true → inert c = true :=
  inert_of_class rfl

/-- Inside a string the scan goes to the closing quote, escapes and all. -/
theorem splits_chars {v : List Char} (hv : Chars rfcPlain v) (depth : Nat) (x : List Char) :
    splits depth .string (v ++ '"' :: x) = splits depth .plain x := by
  induction hv with
  | nil => simp [splits]
  | @plain c v hc _ ih =>
    simp only [rfcPlain, Bool.and_eq_true, decide_eq_true_eq] at hc
    rw [List.cons_append, splits, if_neg hc.1.2, if_neg hc.2, ih]
  | escape _ _ ih => simpa [splits] using ih
  | @unicode ds v _ hds _ ih =>
    have hdigits : ∀ {ds : List Char}, AllIn isXDigit ds → ∀ y,
        splits depth .string (ds ++ y) = splits depth .string y := by
      intro ds hds y
      induction ds with
      | nil => rfl
      | cons d ds ihd =>
        obtain ⟨hd, hds⟩ := allIn_cons.mp hds
        have hne : d ≠ '"' ∧ d ≠ '\\' := by
          constructor <;> (rintro rfl; exact absurd hd (by decide))
        rw [List.cons_append, splits, if_neg hne.1, if_neg hne.2, ihd hds]
    simp [splits, hdigits hds, ih]

/-- A string is passed, with whatever letters are in it. -/
theorem passes_string {v : List Char} (hv : Chars rfcPlain v) : Passes ('"' :: (v ++ ['"'])) := by
  intro depth x
  simp only [List.cons_append, List.append_assoc, List.nil_append]
  rw [splits, if_pos rfl, splits_chars hv]

/-- The rest of a literal name, after its first letter: it is spelled in a row, or the scan finds
the white space. -/
theorem splits_word {D : Dialect} (hsp : ∀ c, D.space c = true → isSpace c = true)
    {w t : List Char} (ht : Spelled D w t) : ∀ {a : Char} {rem t' : List Char}, w = a :: rem →
      t = a :: t' → AllIn isLetter rem → rem ≠ [] →
      (t' = rem ∧ ∀ depth x, splits depth (.word rem.length) (t' ++ x) = splits depth .plain x) ∨
        (D.spaced = true ∧ ∀ depth x, splits depth (.word rem.length) (t' ++ x) = true) := by
  induction ht with
  | last c =>
    rintro a rem t' hw ht - hne
    exact absurd (List.cons.inj hw).2.symm hne
  | @next c w s u hs hspace hw ih =>
    rintro a rem t' hwa hta hrem -
    obtain ⟨-, rfl⟩ := List.cons.inj hwa
    obtain ⟨-, rfl⟩ := List.cons.inj hta
    cases s with
    | cons b s =>
      have hb := hsp b ((allIn_cons.mp hspace).1)
      refine .inr ⟨hs (List.cons_ne_nil b s), fun depth x => ?_⟩
      simp [splits, hb]
    | nil =>
      obtain ⟨d, w', rfl⟩ : ∃ d w', w = d :: w' := by
        cases hw with
        | last d => exact ⟨d, [], rfl⟩
        | next _ _ _ => exact ⟨_, _, rfl⟩
      obtain ⟨u', rfl⟩ := hw.head
      obtain ⟨hd, hrem'⟩ := allIn_cons.mp hrem
      simp only [isLetter, Bool.and_eq_true, Bool.not_eq_true'] at hd
      have hstep : ∀ depth x, splits depth (.word (d :: w').length) ((d :: u') ++ x)
          = if w' = [] then splits depth .plain (u' ++ x)
            else splits depth (.word w'.length) (u' ++ x) := by
        intro depth x
        cases w' with
        | nil => simp [splits, hd.1]
        | cons b w' => simp [splits, hd.1]
      rw [List.nil_append]
      by_cases hnil : w' = []
      · subst hnil
        obtain rfl : u' = [] := by cases hw with
          | last => rfl
          | next _ _ h => cases h
        exact .inl ⟨rfl, fun depth x => by rw [hstep, if_pos rfl, List.nil_append]⟩
      · rcases ih rfl rfl hrem' hnil with ⟨rfl, hpass⟩ | ⟨hspaced, hsplit⟩
        · exact .inl ⟨rfl, fun depth x => by rw [hstep, if_neg hnil, hpass]⟩
        · exact .inr ⟨hspaced, fun depth x => by rw [hstep, if_neg hnil, hsplit]⟩

/-- The dialect with the letters of names in a row, and otherwise the same. -/
def Dialect.unspaced (D : Dialect) : Dialect := { D with spaced := false }

/-- A name is spelled by itself. -/
theorem spelled_self {D : Dialect} : ∀ {w : List Char}, w ≠ [] → Spelled D w w
  | [], h => absurd rfl h
  | [c], _ => .last c
  | _ :: d :: w, _ =>
    .next (s := []) (fun h => absurd rfl h) allIn_nil (spelled_self (List.cons_ne_nil d w))

/-- A name is spelled in a row and passes, or it is split. -/
theorem scan_literal {D : Dialect} (hle : D.Le lenient) {type : JsonType} {w : List Char}
    (hw : word type = some w) (ht : Spelled D w t) :
    (Spelled D.unspaced w t ∧ Passes t) ∨ (D.spaced = true ∧ Splits t) := by
  obtain ⟨first, rem, rfl, hrem, hne, hstart⟩ : ∃ first rem, w = first :: rem ∧
      AllIn isLetter rem ∧ rem ≠ [] ∧ ∀ depth x,
        splits depth .plain (first :: x) = splits depth (.word rem.length) x := by
    cases type with
    | true =>
      obtain rfl := Option.some.inj hw
      exact ⟨'t', _, rfl, by decide, by simp, fun _ _ => by simp [splits]⟩
    | false =>
      obtain rfl := Option.some.inj hw
      exact ⟨'f', _, rfl, by decide, by simp, fun _ _ => by simp [splits]⟩
    | null =>
      obtain rfl := Option.some.inj hw
      exact ⟨'n', _, rfl, by decide, by simp, fun _ _ => by simp [splits]⟩
    | _ => exact nomatch hw
  obtain ⟨t', rfl⟩ := ht.head
  rcases splits_word hle.space ht rfl rfl hrem hne with ⟨rfl, hpass⟩ | ⟨hspaced, hsplit⟩
  · refine .inl ⟨spelled_self (by simp), fun depth x => ?_⟩
    rw [List.cons_append, hstart, hpass]
  · refine .inr ⟨hspaced, fun depth x => ?_⟩
    rw [List.cons_append, hstart, hsplit]

/-- An opening bracket is one level more. -/
theorem splits_opening (o : Bool) (depth : Nat) (x : List Char) :
    splits depth .plain (opening o :: x) = splits (depth + 1) .plain x := by
  cases o <;> simp [splits, opening]

/-- A closing bracket is one level less, and at the last one the scan is over. -/
theorem splits_closing (o : Bool) (depth : Nat) (x : List Char) :
    splits depth .plain (closing o :: x) = if depth ≤ 1 then false
    else splits (depth - 1) .plain x := by
  cases o <;> simp [splits, closing]

/-- **What the scan finds in a text of the grammar**: nothing, and then no name is split, or a split
name. -/
theorem scan_derives {D : Dialect} (hle : D.Le lenient) {sym : Sym} (h : Derives D sym t f) :
    (Derives D.unspaced sym t f ∧ Passes t) ∨ (D.spaced = true ∧ Splits t) := by
  have hspace : ∀ {w : List Char}, AllIn D.space w → Passes w := fun hw =>
    passes_inert fun c hc => inert_of_isSpace (hle.space c (hw c hc))
  induction h with
  | string hv => exact .inl ⟨.string hv, passes_string (hv.mono hle.plain)⟩
  | number hv =>
    exact .inl ⟨.number hv, passes_inert fun c hc => inert_of_numberChar (hv.chars c hc)⟩
  | literal hw ht =>
    rcases scan_literal hle hw ht with ⟨ht', hpass⟩ | hsplit
    · exact .inl ⟨.literal hw ht', hpass⟩
    · exact .inr hsplit
  | @container k t o f _ ih =>
    rcases ih with ⟨hd, hpass⟩ | ⟨hspaced, hsplit⟩
    · refine .inl ⟨.container hd, fun depth x => ?_⟩
      rw [List.cons_append, splits_opening, List.append_assoc, hpass]
      exact (splits_closing o (depth + 2) x).trans (if_neg (by omega))
    · refine .inr ⟨hspaced, fun depth x => ?_⟩
      rw [List.cons_append, splits_opening, List.append_assoc, hsplit]
  | element _ ih =>
    rcases ih with ⟨hd, hpass⟩ | hsplit
    · exact .inl ⟨.element hd, hpass⟩
    · exact .inr hsplit
  | @member k w w' t f hk hw hw' _ ih =>
    have hname : Passes ('"' :: (k ++ ['"']) ++ (w ++ (':' :: w'))) :=
      (passes_string (hk.mono hle.plain)).append ((hspace hw).append
        ((passes_inert (w := [':']) (by decide)).append (hspace hw')))
    have htext : '"' :: (k ++ '"' :: (w ++ ':' :: (w' ++ t)))
        = ('"' :: (k ++ ['"']) ++ (w ++ (':' :: w'))) ++ t := by simp
    rcases ih with ⟨hd, hpass⟩ | ⟨hspaced, hsplit⟩
    · exact .inl ⟨.member hk hw hw' hd, htext ▸ hname.append hpass⟩
    · exact .inr ⟨hspaced, htext ▸ hname.splits hsplit⟩
  | none hw => exact .inl ⟨.none hw, hspace hw⟩
  | last hw _ hw' ih =>
    rcases ih with ⟨hd, hpass⟩ | ⟨hspaced, hsplit⟩
    · exact .inl ⟨.last hw hd hw', (hspace hw).append (hpass.append (hspace hw'))⟩
    · exact .inr ⟨hspaced, (hspace hw).splits (hsplit.append _)⟩
  | @more o w t w' t' f g hw _ hw' _ hg ih ih' =>
    have hcomma : Passes [','] := passes_inert (by decide)
    rcases ih with ⟨hd, hpass⟩ | ⟨hspaced, hsplit⟩
    · rcases ih' with ⟨hd', hpass'⟩ | ⟨hspaced, hsplit'⟩
      · exact .inl ⟨.more hw hd hw' hd' hg, (hspace hw).append
          (hpass.append ((hspace hw').append (hcomma.append hpass')))⟩
      · exact .inr ⟨hspaced, (hspace hw).splits
          (hpass.splits ((hspace hw').splits (hcomma.splits hsplit')))⟩
    · exact .inr ⟨hspaced, (hspace hw).splits (hsplit.append _)⟩

/-- The scan of a whole text: it is one without split names, or the scan finds one. -/
theorem scan_reads {D : Dialect} (hle : D.Le lenient) (h : Reads D s f) :
    (Reads D.unspaced s f ∧ splits 0 .plain s = false) ∨
      (D.spaced = true ∧ splits 0 .plain s = true) := by
  obtain ⟨x, hc, w, t, hw, hd, rfl⟩ := h
  obtain ⟨o, u, g, rfl, hitems, rfl⟩ := hd.container_shape hc
  have hstart : splits 0 .plain (w ++ (opening o :: (u ++ [closing o]) ++ x))
      = splits 1 .plain (u ++ closing o :: x) := by
    rw [splits_allInert fun c hcw => inert_of_isSpace (hle.space c (hw c hcw)), List.cons_append,
      splits_opening, List.append_assoc]
    rfl
  rw [hstart]
  rcases scan_derives hle hitems with ⟨hd', hpass⟩ | ⟨hspaced, hsplit⟩
  · refine .inl ⟨⟨x, hc, w, _, hw, .container hd', rfl⟩, ?_⟩
    rw [hpass 0, splits_closing]
    rfl
  · exact .inr ⟨hspaced, hsplit 0 _⟩

/-- Without white space in its names, the code's grammar is within the documented language. -/
theorem unspaced_code_le : code.unspaced.Le tolerant :=
  ⟨fun _ => id, fun c hc => ((codePlain_iff c).mp hc).1, id, id⟩

/-- An accepted text is in the documented language exactly when the scan finds no split name. -/
theorem reads_tolerant_iff (h : Reads code s f) :
    (∃ g, Reads tolerant s g) ↔ splits 0 .plain s = false := by
  constructor
  · rintro ⟨g, hg⟩
    rcases scan_reads tolerant_le_lenient hg with ⟨-, hscan⟩ | ⟨hspaced, -⟩
    · exact hscan
    · exact nomatch hspaced
  · intro hscan
    rcases scan_reads code_le_lenient h with ⟨hr, -⟩ | ⟨-, hsplit⟩
    · exact ⟨f, hr.mono unspaced_code_le⟩
    · rw [hscan] at hsplit
      exact nomatch hsplit

/-- **When an accepted text is in the documented language.**  A text that validation accepts starts
with a container of RFC 4627, up to an extra comma and trailing text, if and only if no literal
name of that container is split by white space. -/
theorem validate_tolerant_iff (s : List Char) (h : validate s = .ok ()) :
    (∃ f, Reads tolerant (cString s) f) ↔ splits 0 .plain (cString s) = false := by
  obtain ⟨f, hf⟩ := validate_sound h
  exact reads_tolerant_iff hf

theorem validate_tolerant_iff_sample :
    (∃ f, Reads tolerant (cString sampleText) f) ↔ splits 0 .plain (cString sampleText) = false :=
  validate_tolerant_iff sampleText rfl

/-- `[tr ue]` is accepted, and is not in the documented language. -/
theorem validate_split_name :
    validate ['[', 't', 'r', ' ', 'u', 'e', ']'] = .ok () ∧
      ¬ ∃ f, Reads tolerant (cString ['[', 't', 'r', ' ', 'u', 'e', ']']) f := by
  have hok : validate ['[', 't', 'r', ' ', 'u', 'e', ']'] = .ok () := rfl
  obtain ⟨f, hf⟩ := validate_sound hok
  refine ⟨hok, fun hex => ?_⟩
  exact absurd ((reads_tolerant_iff hf).mp hex) (by decide)

/-! ## 3. DEL in strings -/

/-- The whole text `s` is a text of RFC 4627 that denotes `f`; nothing but white space is behind it.
-/
def RfcText (s : List Char) (f : Forest JsonItem) : Prop :=
  ∃ x, ReadsTo rfc s f x ∧ AllIn rfcSpace x

/-- The grammar uses the character nowhere outside of strings and numbers, so a text has it only if
one of these does. -/
structure Foreign (b : Char) : Prop where
  space : isSpace b = false
  mark : b ∉ ['"', ':', ',', '[', ']', '\x7b', '\x7d']
  word : ∀ type w, word type = some w → b ∉ w

/-- The name of a value is not part of its text, so it must be without the character by itself. -/
def NameLacks (b : Char) : Sym → Prop
  | .value k => b ∉ k
  | _ => True

/-- A class without the character. -/
theorem not_mem_of_allIn {b : Char} {p : Char → Bool} {w : List Char} (h : AllIn p w)
    (hp : p b = false) : b ∉ w := by
  intro hmem
  rw [h b hmem] at hp
  exact nomatch hp

/-- The characters that the grammar uses by themselves. -/
theorem foreign_of_not_mem {b : Char} (hsp : isSpace b = false)
    (hmark : b ∉ ['"', ':', ',', '[', ']', '\x7b', '\x7d'])
    (hword : b ∉ ['t', 'r', 'u', 'e', 'f', 'a', 'l', 's', 'n']) : Foreign b := by
  refine ⟨hsp, hmark, fun type w hw hmem => hword ?_⟩
  cases type with
  | true | false | null =>
    obtain rfl := Option.some.inj hw
    simp only [List.mem_cons, List.not_mem_nil, or_false] at hmem ⊢
    tauto
  | _ => exact nomatch hw

/-- A name that is spelled has only its letters and white space. -/
theorem not_mem_spelled {b : Char} (hb : isSpace b = false) {D : Dialect} (hle : D.Le lenient)
    {w : List Char} (ht : Spelled D w t) : b ∉ w → b ∉ t := by
  induction ht with
  | last c => exact id
  | next _ hs _ ih =>
    intro hw
    simp only [List.mem_cons, not_or] at hw
    simp only [List.mem_cons, List.mem_append, not_or]
    exact ⟨hw.1, not_mem_of_allIn (fun c hc => hle.space c (hs c hc)) hb, ih hw.2⟩

/-- **A foreign character is in the elements where it is in the text.** -/
theorem lacks_iff {b : Char} (hb : Foreign b) {D : Dialect} (hle : D.Le lenient) {sym : Sym}
    (h : Derives D sym t f) : NameLacks b sym → ∀ d, f.AllAt (Lacks b) d ↔ b ∉ t := by
  have hspace : ∀ {w : List Char}, AllIn D.space w → b ∉ w := fun hw =>
    not_mem_of_allIn (fun c hc => hle.space c (hw c hc)) hb.space
  have hmark := hb.mark
  simp only [List.mem_cons, List.not_mem_nil, or_false, not_or] at hmark
  obtain ⟨hquote, hcolon, hcomma, h1, h2, h3, h4⟩ := hmark
  have hbracket : ∀ o, b ≠ opening o ∧ b ≠ closing o := by
    rintro (_ | _)
    · exact ⟨h1, h2⟩
    · exact ⟨h3, h4⟩
  induction h with
  | string hv =>
    intro hk d
    replace hk : b ∉ _ := hk
    simp [Lacks, hk, hquote]
  | number hv =>
    intro hk d
    replace hk : b ∉ _ := hk
    simp [Lacks, hk]
  | literal hw ht =>
    intro hk d
    replace hk : b ∉ _ := hk
    have hnot := not_mem_spelled hb.space hle ht (hb.word _ _ hw)
    simp [Lacks, hk, hnot]
  | @container k t o f _ ih =>
    intro hk d
    replace hk : b ∉ k := hk
    simp [Lacks, hk, hbracket o, ih trivial (d + 1)]
  | element _ ih => exact fun _ d => ih List.not_mem_nil d
  | @member k w w' t f hchars hw hw' hd ih =>
    intro _ d
    by_cases hk : b ∈ k
    · obtain ⟨type, v, g, rfl⟩ := hd.value_shape
      simp [Lacks, hk]
    · rw [ih hk d]
      simp [hk, hquote, hcolon, hspace hw, hspace hw']
  | none hw =>
    intro _ d
    simp [hspace hw]
  | last hw _ hw' ih =>
    intro _ d
    rw [ih trivial d]
    simp [hspace hw, hspace hw']
  | more hw _ hw' _ _ ih ih' =>
    intro _ d
    rw [Forest.allAt_append, ih trivial d, ih' trivial d]
    simp [hspace hw, hspace hw', hcomma]

/-- DEL is used nowhere outside of strings and numbers. -/
theorem foreign_del : Foreign del := foreign_of_not_mem (by decide) (by decide) (by decide)

/-- **When a text of RFC 4627 is decoded to what it denotes.**  With strings and numbers shorter
than `U_TOKEN_SZ - 1` and nesting below `U_JSON_MAX_DEPTH`: if and only if there is no DEL in it. -/
theorem decode_rfc_iff (s : List Char) (f : Forest JsonItem) (h : RfcText (cString s) f)
    (hshort : Short f) (hdeep : Shallow f) :
    (∃ jo, decode s = .ok jo ∧ jo.tree = f) ↔ del ∉ cString s := by
  obtain ⟨x, hreads, hx⟩ := h
  have hlenient : Reads lenient (cString s) f := Reads.mono rfc_le_lenient ⟨x, hreads⟩
  have hout := decode_outcome hlenient
  obtain ⟨hc, w, t, hw, hd, hs⟩ := hreads
  have hclean : Clean f ↔ del ∉ cString s := by
    have hws : ∀ {w : List Char}, AllIn rfcSpace w → del ∉ w := fun hw =>
      not_mem_of_allIn hw (by decide)
    have hiff : Clean f ↔ del ∉ t := lacks_iff foreign_del rfc_le_lenient hd List.not_mem_nil 0
    rw [hs]
    simpa [hws hw, hws hx] using hiff
  rw [← hclean]
  constructor
  · rintro ⟨jo, hok, -⟩
    exact (accepts_true.mp (hout.good jo hok)).1
  · exact fun hcl => hout.ok (accepts_true.mpr ⟨hcl, hdeep, hshort⟩)

theorem sampleText_rfc : RfcText (cString sampleText) sampleTree.tree := by
  have hnum : Number ['1'] := .unsigned (.pos rfl (by decide) allIn_nil) .none .none
  have hpair : Derives rfc (.entry true)
    ('"' :: (['a'] ++ '"' :: ([] ++ ':' :: ([] ++ ['t', 'r', 'u', 'e']))))
      (.node ⟨.true, ['a'], []⟩ .nil .nil) :=
    .member (.plain rfl .nil) allIn_nil allIn_nil (.literal rfl (spelled_self (by simp)))
  have hobject : Derives rfc (.entry false) _ _ := .element (.container (o := true) hpair.one)
  have hitems := Derives.more allIn_nil (.element (.number (k := []) hnum)) allIn_nil hobject.one
    (fun h => nomatch h)
  exact ⟨[], ⟨rfl, [], _, allIn_nil, .container (o := false) hitems, rfl⟩, allIn_nil⟩

theorem decode_rfc_iff_sample :
    (∃ jo, decode sampleText = .ok jo ∧ jo.tree = sampleTree.tree) ↔ del ∉ cString sampleText :=
  decode_rfc_iff sampleText sampleTree.tree sampleText_rfc (by decide) (by decide)

/-- `["` DEL `"]`: a text of RFC 4627, as DEL is no control character there. -/
def delText : List Char := ['[', '"', del, '"', ']']

/-- What `delText` denotes: an array of one string. -/
def delTree : Forest JsonItem :=
  .node ⟨.array, [], []⟩ (.node ⟨.string, [], [del]⟩ .nil .nil) .nil

/-- A string of one DEL is a string of RFC 4627, and is refused. -/
theorem decode_refuses_del :
    RfcText (cString delText) delTree ∧ Short delTree ∧ Shallow delTree ∧
      ¬ ∃ jo, decode delText = .ok jo := by
  have hitem : Derives rfc (.entry false) ('"' :: ([del] ++ ['"'])) _ :=
    .element (.string (.plain rfl .nil))
  have hitems := hitem.one
  refine ⟨⟨[], ⟨rfl, [], _, allIn_nil, .container (o := false) hitems, rfl⟩, allIn_nil⟩,
    by decide, by decide, ?_⟩
  rintro ⟨jo, h⟩
  have herr : (decode delText).toBool = false := rfl
  rw [h] at herr
  exact nomatch herr

end Libu.Json
