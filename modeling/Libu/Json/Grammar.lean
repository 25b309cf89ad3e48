/-
# The grammar of JSON texts

The productions of RFC 4627, as a relation between a text and the forest of elements it denotes.
One family of productions serves several languages, which differ in four points (`Dialect`): what
white space is, which characters of a string stand for themselves, whether a comma may stand
before a closing bracket, and whether white space may stand between the letters of `true`, `false`
and `null`.

* `rfc` is RFC 4627 itself.
* `tolerant` has the white space of `isspace` and the extra comma.
* `code` is what the matchers read: `tolerant`, but no DEL in strings and letters that may be
  spaced out.
* `lenient` contains all of these.

`Reads D s f` says that the text `s` starts, after white space, with a container that denotes `f`.
-/
import Libu.Json.Basic

namespace Libu

open Verif

/-! ## 1. What a text denotes -/

/-- An element of a text: its type, its name when it is a member of an object, and the lexeme of a
string (without quotes) or of a number. -/
structure JsonItem where
  type : JsonType
  key : List Char
  val : List Char
  deriving DecidableEq

def JsonNode.item (jo : JsonNode) : JsonItem := ⟨jo.type, jo.key, jo.val⟩

namespace Json

/-- The elements below and at a node, in order. -/
def tree (jo : Json) : Forest JsonItem := jo.root.map JsonNode.item

/-! ## 2. Terminals -/

structure Dialect where
  space : Char → Bool
  plain : Char → Bool
  comma : Bool
  spaced : Bool

/-- A character that RFC 4627 leaves unescaped in a string. -/
def rfcPlain (c : Char) : Bool := 32 ≤ c.toNat && c ≠ '"' && c ≠ '\\'

def rfcSpace (c : Char) : Bool := c = ' ' || c = '\t' || c = '\n' || c = '\r'

/-- A character that the loop of `matchString` passes over as it stands. -/
def codePlain (c : Char) : Bool := !isCntrl c && c ≠ '"' && c ≠ '\\'

def rfc : Dialect := ⟨rfcSpace, rfcPlain, false, false⟩

def tolerant : Dialect := ⟨isSpace, rfcPlain, true, false⟩

def code : Dialect := ⟨isSpace, codePlain, true, true⟩

def lenient : Dialect := ⟨isSpace, rfcPlain, true, true⟩

/-- `D'` derives at least what `D` derives. -/
structure Dialect.Le (D D' : Dialect) : Prop where
  space : ∀ c, D.space c = true → D'.space c = true
  plain : ∀ c, D.plain c = true → D'.plain c = true
  comma : D.comma = true → D'.comma = true
  spaced : D.spaced = true → D'.spaced = true

/-- The characters between the quotes of a string. -/
inductive Chars (plain : Char → Bool) : List Char → Prop
  | nil : Chars plain []
  | plain {c : Char} {v : List Char} : plain c = true → Chars plain v → Chars plain (c :: v)
  | escape {c : Char} {v : List Char} :
      c ∈ escapes → Chars plain v → Chars plain ('\\' :: c :: v)
  | unicode {ds v : List Char} : ds.length = 4 → AllIn isXDigit ds → Chars plain v →
      Chars plain ('\\' :: 'u' :: (ds ++ v))

/-- `int`, without its sign. -/
inductive IntPart : List Char → Prop
  | zero : IntPart ['0']
  | pos {d : Char} {ds : List Char} :
      d.isDigit = true → d ≠ '0' → AllIn Char.isDigit ds → IntPart (d :: ds)

inductive FracPart : List Char → Prop
  | none : FracPart []
  | some {d : Char} {ds : List Char} :
      d.isDigit = true → AllIn Char.isDigit ds → FracPart ('.' :: d :: ds)

inductive ExpPart : List Char → Prop
  | none : ExpPart []
  | unsigned {e d : Char} {ds : List Char} : e = 'e' ∨ e = 'E' →
      d.isDigit = true → AllIn Char.isDigit ds → ExpPart (e :: d :: ds)
  | signed {e g d : Char} {ds : List Char} : e = 'e' ∨ e = 'E' → g = '+' ∨ g = '-' →
      d.isDigit = true → AllIn Char.isDigit ds → ExpPart (e :: g :: d :: ds)

inductive Number : List Char → Prop
  | unsigned {i f e : List Char} : IntPart i → FracPart f → ExpPart e → Number (i ++ (f ++ e))
  | minus {i f e : List Char} : IntPart i → FracPart f → ExpPart e →
      Number ('-' :: (i ++ (f ++ e)))

/-- The letters of a literal name. -/
def word : JsonType → Option (List Char)
  | .true => some ['t', 'r', 'u', 'e']
  | .false => some ['f', 'a', 'l', 's', 'e']
  | .null => some ['n', 'u', 'l', 'l']
  | _ => none

/-- The letters `w` in a row, in a spaced dialect with white space between them. -/
inductive Spelled (D : Dialect) : List Char → List Char → Prop
  | last (c : Char) : Spelled D [c] [c]
  | next {c : Char} {w s t : List Char} : (s ≠ [] → D.spaced = true) → AllIn D.space s →
      Spelled D w t → Spelled D (c :: w) (c :: (s ++ t))

/-! ## 3. Productions -/

/-- The nonterminals.  `entry o` is a member when `o` holds and an element when not; `items o` is
what stands between an opening bracket or a comma and the closing bracket. -/
inductive Sym
  | value (key : List Char)
  | entry (object : Bool)
  | items (object : Bool)

def containerType (object : Bool) : JsonType := if object then .object else .array

def opening (object : Bool) : Char := if object then '\x7b' else '['

def closing (object : Bool) : Char := if object then '\x7d' else ']'

/-- **The texts of a nonterminal and what they denote.** -/
inductive Derives (D : Dialect) : Sym → List Char → Forest JsonItem → Prop
  | string {k v : List Char} : Chars D.plain v →
      Derives D (.value k) ('"' :: (v ++ ['"'])) (.node ⟨.string, k, v⟩ .nil .nil)
  | number {k v : List Char} : Number v → Derives D (.value k) v (.node ⟨.number, k, v⟩ .nil .nil)
  | literal {k w t : List Char} {type : JsonType} : word type = some w → Spelled D w t →
      Derives D (.value k) t (.node ⟨type, k, []⟩ .nil .nil)
  | container {k t : List Char} {o : Bool} {f : Forest JsonItem} : Derives D (.items o) t f →
      Derives D (.value k) (opening o :: (t ++ [closing o])) (.node ⟨containerType o, k, []⟩ f .nil)
  | element {t : List Char} {f : Forest JsonItem} : Derives D (.value []) t f →
      Derives D (.entry false) t f
  | member {k w w' t : List Char} {f : Forest JsonItem} : Chars D.plain k → AllIn D.space w →
      AllIn D.space w' → Derives D (.value k) t f →
      Derives D (.entry true) ('"' :: (k ++ '"' :: (w ++ ':' :: (w' ++ t)))) f
  | none {o : Bool} {w : List Char} : AllIn D.space w → Derives D (.items o) w .nil
  | last {o : Bool} {w t w' : List Char} {f : Forest JsonItem} : AllIn D.space w →
      Derives D (.entry o) t f → AllIn D.space w' → Derives D (.items o) (w ++ (t ++ w')) f
  | more {o : Bool} {w t w' t' : List Char} {f g : Forest JsonItem} : AllIn D.space w →
      Derives D (.entry o) t f → AllIn D.space w' → Derives D (.items o) t' g →
      (g = .nil → D.comma = true) → Derives D (.items o)
      (w ++ (t ++ (w' ++ ',' :: t'))) (f.append g)

/-- An entry without white space around it. -/
theorem Derives.one {D : Dialect} {o : Bool} {t : List Char} {f : Forest JsonItem}
    (h : Derives D (.entry o) t f) : Derives D (.items o) t f := by
  have hlast := Derives.last allIn_nil h allIn_nil
  simpa using hlast

/-- The type of the first node is a container's. -/
def IsContainer : Forest JsonItem → Prop
  | .nil => False
  | .node i _ _ => Json.isContainer i.type = true

/-- The text `s` is white space, a container that denotes `f`, and `x`. -/
structure ReadsTo (D : Dialect) (s : List Char) (f : Forest JsonItem) (x : List Char) : Prop where
  container : IsContainer f
  derives : ∃ w t, AllIn D.space w ∧ Derives D (.value []) t f ∧ s = w ++ (t ++ x)

/-- The text `s` starts, after white space, with a container that denotes `f`. -/
def Reads (D : Dialect) (s : List Char) (f : Forest JsonItem) : Prop := ∃ x, ReadsTo D s f x

/-! ## 4. Languages compared -/

theorem Chars.mono {p q : Char → Bool} (h : ∀ c, p c = true → q c = true) {v : List Char}
    (hv : Chars p v) : Chars q v := by
  induction hv with
  | nil => exact .nil
  | plain hc _ ih => exact .plain (h _ hc) ih
  | escape hc _ ih => exact .escape hc ih
  | unicode hlen hds _ ih => exact .unicode hlen hds ih

theorem Spelled.mono {D D' : Dialect} (h : D.Le D') {w t : List Char} (hw : Spelled D w t) :
    Spelled D' w t := by
  induction hw with
  | last c => exact .last c
  | next hs hsp _ ih =>
    exact .next (fun hne => h.spaced (hs hne)) (fun c hc => h.space c (hsp c hc)) ih

theorem Derives.mono {D D' : Dialect} (h : D.Le D') {sym : Sym} {t : List Char}
    {f : Forest JsonItem} (hd : Derives D sym t f) : Derives D' sym t f := by
  have hsp : ∀ {w : List Char}, AllIn D.space w → AllIn D'.space w :=
    fun hw c hc => h.space c (hw c hc)
  induction hd with
  | string hv => exact .string (hv.mono h.plain)
  | number hv => exact .number hv
  | literal hw hs => exact .literal hw (hs.mono h)
  | container _ ih => exact .container ih
  | element _ ih => exact .element ih
  | member hk hw hw' _ ih => exact .member (hk.mono h.plain) (hsp hw) (hsp hw') ih
  | none hw => exact .none (hsp hw)
  | last hw _ hw' ih => exact .last (hsp hw) ih (hsp hw')
  | more hw _ hw' _ hg ih ih' => exact .more (hsp hw) ih (hsp hw') ih' fun hnil => h.comma (hg hnil)

theorem Reads.mono {D D' : Dialect} (h : D.Le D') {s : List Char} {f : Forest JsonItem} :
    Reads D s f → Reads D' s f := by
  rintro ⟨x, hc, w, t, hw, hd, hs⟩
  exact ⟨x, hc, w, t, fun c hcw => h.space c (hw c hcw), hd.mono h, hs⟩

/-- The characters of a number. -/
def numberChar (c : Char) : Bool := c.isDigit || c ∈ ['-', '+', '.', 'e', 'E']

theorem numberChar_of_isDigit {c : Char} (h : c.isDigit = true) : numberChar c = true := by
  rw [numberChar, h]
  rfl

theorem numberChar_of_digits {ds : List Char} (h : AllIn Char.isDigit ds) : AllIn numberChar ds :=
  fun c hc => numberChar_of_isDigit (h c hc)

theorem Number.chars {v : List Char} (h : Number v) : AllIn numberChar v := by
  have hint : ∀ {i : List Char}, IntPart i → AllIn numberChar i := by
    rintro i (_ | ⟨hd, -, hds⟩)
    · decide
    · exact allIn_cons.mpr ⟨numberChar_of_isDigit hd, numberChar_of_digits hds⟩
  have hfrac : ∀ {f : List Char}, FracPart f → AllIn numberChar f := by
    rintro f (_ | ⟨hd, hds⟩)
    · exact allIn_nil
    · exact allIn_cons.mpr ⟨by decide, allIn_cons.mpr
        ⟨numberChar_of_isDigit hd, numberChar_of_digits hds⟩⟩
  have hexp : ∀ {e : List Char}, ExpPart e → AllIn numberChar e := by
    rintro e (_ | ⟨he, hd, hds⟩ | ⟨he, hg, hd, hds⟩)
    · exact allIn_nil
    · refine allIn_cons.mpr ⟨?_, allIn_cons.mpr ⟨numberChar_of_isDigit hd,
        numberChar_of_digits hds⟩⟩
      rcases he with rfl | rfl <;> decide
    · refine allIn_cons.mpr ⟨?_, allIn_cons.mpr ⟨?_, allIn_cons.mpr
        ⟨numberChar_of_isDigit hd, numberChar_of_digits hds⟩⟩⟩
      · rcases he with rfl | rfl <;> decide
      · rcases hg with rfl | rfl <;> decide
  cases h with
  | unsigned hi hf he => exact allIn_append.mpr ⟨hint hi, allIn_append.mpr ⟨hfrac hf, hexp he⟩⟩
  | minus hi hf he =>
    exact allIn_cons.mpr ⟨by decide, allIn_append.mpr ⟨hint hi,
      allIn_append.mpr ⟨hfrac hf, hexp he⟩⟩⟩

/-- `isspace` holds of the white space of the RFC. -/
theorem isSpace_of_rfcSpace {c : Char} (h : rfcSpace c = true) : isSpace c = true := by
  simp only [rfcSpace, Bool.or_eq_true, decide_eq_true_eq] at h
  rcases h with ((rfl | rfl) | rfl) | rfl <;> decide

/-- DEL. -/
def del : Char := '\x7f'

theorem codePlain_iff (c : Char) : codePlain c = true ↔ rfcPlain c = true ∧ c ≠ del := by
  have hdel : c = del ↔ c.toNat = 127 := by
    constructor
    · rintro rfl
      rfl
    · exact fun h => Char.toNat_inj.mp h
  simp only [codePlain, rfcPlain, isCntrl, hdel, ne_eq, decide_not, Bool.and_eq_true,
    Bool.not_eq_true', Bool.or_eq_false_iff, decide_eq_false_iff_not, decide_eq_true_eq, Nat.not_lt]
  exact ⟨fun ⟨⟨⟨h1, h2⟩, h3⟩, h4⟩ => ⟨⟨⟨h1, h3⟩, h4⟩, h2⟩, fun ⟨⟨⟨h1, h3⟩, h4⟩, h2⟩ =>
    ⟨⟨⟨h1, h2⟩, h3⟩, h4⟩⟩

theorem rfc_le_lenient : rfc.Le lenient :=
  ⟨fun _ => isSpace_of_rfcSpace, fun _ => id, fun h => (nomatch h), fun h => (nomatch h)⟩

theorem tolerant_le_lenient : tolerant.Le lenient :=
  ⟨fun _ => id, fun _ => id, id, fun h => (nomatch h)⟩

theorem code_le_lenient : code.Le lenient :=
  ⟨fun _ => id, fun c hc => ((codePlain_iff c).mp hc).1, id, id⟩

end Json

end Libu
