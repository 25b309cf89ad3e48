/-
# What the JSON parser reads

The matchers against the grammar, in both directions.

* §1 to §3 are completeness: on a text of the lenient grammar a matcher succeeds exactly when every
  element is acceptable (`Accepts`), and then it has built the elements the text denotes.  With a
  tree under construction an element must fit its buffers and the nesting limit; in both modes it
  must not contain a DEL.  The three nonterminals are proved in one induction over derivations, and
  their specifications are stated separately (`ValueSpec`, `EntrySpec`, `ItemsSpec`).
* §4 is soundness: a matcher that succeeds has read a text of the code's grammar.
* §5 puts the two together for the parser: `doParse` succeeds on the texts that start with a
  container of the code's grammar whose elements are acceptable, and on no other text.
-/
import Libu.Json.Lexeme

namespace Libu.Json

open Verif Lexer

variable {l l' : Lexer} {jo jo' : Option Json} {o : Bool} {c : Char} {k t x : List Char}
  {f : Forest JsonItem} {d : Nat}

/-! ## 1. Acceptable elements and what a matcher leaves behind -/

/-- An element the matchers take: no DEL in it, and, when a tree is built, room for it. -/
def Accepts (build : Bool) (d : Nat) (i : JsonItem) : Prop :=
  (del ∉ i.key ∧ del ∉ i.val) ∧
    (build = true → d < jsonMaxDepth ∧ i.key.length + 1 < tokenSz ∧ i.val.length + 1 < tokenSz)

/-- The cursor is at `x`, or behind the white space at its front: the matchers of containers skip
it, those of strings and numbers do not always. -/
def Rest (l : Lexer) (x : List Char) : Prop := l.lookahead = x ∨ l.lookahead = x.dropWhile isSpace

/-- What may follow a value inside a container: white space, a comma or a closing bracket. -/
def follows (c : Char) : Bool := isSpace c || c = ',' || c = ']' || c = '\x7d'

theorem follows_closing (o : Bool) : follows (closing o) = true := by cases o <;> decide

theorem endsNumber_of_follows (h : follows c = true) : endsNumber c = true := by
  have hrange : ∀ a : Char, '\t' ≤ a → a ≤ '\r' → a.isDigit = false ∧ a.toNat ≤ 13 := by
    intro a _ ha
    have hle : a.toNat ≤ 13 := ha
    refine ⟨Bool.eq_false_iff.mpr fun hd => ?_, hle⟩
    have h48 : 48 ≤ a.toNat := (isDigit_iff.mp hd).1
    omega
  simp only [follows, isSpace, Bool.or_eq_true, Bool.and_eq_true, decide_eq_true_eq] at h
  rcases h with (((rfl | ⟨h9, h13⟩) | rfl) | rfl) | rfl
  · decide
  · obtain ⟨hd, hle⟩ := hrange c h9 h13
    have hne : c ≠ '.' ∧ c ≠ 'e' ∧ c ≠ 'E' := by
      refine ⟨?_, ?_, ?_⟩ <;> (rintro rfl; exact absurd hle (by decide))
    simp [endsNumber, hd, hne]
  all_goals decide

/-- A new node for an element named `k` at depth `d`, when a tree is built. -/
def Fresh (jo : Option Json) (d : Nat) (k : List Char) : Prop :=
  ∀ j ∈ jo, j = ⟨⟨.unknown, k, [], d, 0⟩, .nil⟩ ∧ d < jsonMaxDepth ∧ k.length + 1 < tokenSz

/-- A container under construction at depth `d`. -/
def Open (jo : Option Json) (d : Nat) : Prop := ∀ j ∈ jo, j.depth = d ∧ isContainer j.type = true

/-- What the grammar knows of a node under construction. -/
def sketch (jo : Json) : JsonItem × Nat × Forest JsonItem :=
  (jo.item, jo.depth, jo.children.map JsonNode.item)

/-- The elements `f` were appended to the object. -/
def Appended (jo : Option Json) (f : Forest JsonItem) (jo' : Option Json) : Prop :=
  jo'.map sketch = jo.map fun j => (j.item, j.depth, (j.children.map JsonNode.item).append f)

theorem Appended.refl (jo : Option Json) : Appended jo .nil jo := by
  simp only [Appended, Forest.append_nil]
  rfl

theorem Appended.trans {jo'' : Option Json} {g : Forest JsonItem} (h : Appended jo f jo')
    (h' : Appended jo' g jo'') : Appended jo (f.append g) jo'' := by
  cases jo with
  | none =>
    obtain rfl : jo' = none := by simpa [Appended] using h
    exact h'
  | some j =>
    obtain ⟨j', rfl, hj'⟩ := Option.map_eq_some_iff.mp h
    obtain ⟨j'', rfl, hj''⟩ := Option.map_eq_some_iff.mp h'
    simp only [sketch, Prod.mk.injEq] at hj' hj''
    simp only [Appended, Option.map_some, sketch, Option.some.injEq, Prod.mk.injEq]
    refine ⟨hj''.1.trans hj'.1, hj''.2.1.trans hj'.2.1, ?_⟩
    rw [hj''.2.2, hj'.2.2, Forest.append_assoc]

/-- A container to which something has been appended is still open. -/
theorem Appended.open (h : Appended jo f jo') (ho : Open jo d) : Open jo' d := by
  cases jo with
  | none =>
    obtain rfl : jo' = none := by simpa [Appended] using h
    exact ho
  | some j =>
    obtain ⟨j', rfl, hj'⟩ := Option.map_eq_some_iff.mp h
    simp only [sketch, Prod.mk.injEq] at hj'
    intro j₁ hj₁
    obtain rfl := Option.some.inj hj₁
    obtain ⟨hd, hc⟩ := ho j rfl
    have htype : j'.type = j.type := congrArg JsonItem.type hj'.1
    exact ⟨hj'.2.1.trans hd, htype ▸ hc⟩

/-- There is a container after something has been appended exactly if there was one before. -/
theorem Appended.isSome (h : Appended jo f jo') : jo'.isSome = jo.isSome := by
  have := congrArg Option.isSome h
  rwa [Option.isSome_map, Option.isSome_map] at this

/-- Trailing white space is passed over, wherever the matcher before it stopped. -/
theorem trailingWs_eq {w : List Char} (hr : Rest l (w ++ c :: x)) (hw : AllIn isSpace w)
    (hc : isSpace c = false) :
    ∃ l', trailingWs l = .ok l' ∧ l'.lookahead = c :: x ∧ l'.s = l.s := by
  have hdrop : (w ++ c :: x).dropWhile isSpace = c :: x := by
    rw [dropWhile_append hw]
    exact (stops_cons.mpr hc).dropWhile
  have hstop : l.lookahead = c :: x → ∃ l', trailingWs l = .ok l' ∧ l'.lookahead = c :: x ∧
      l'.s = l.s := by
    intro h
    refine ⟨l, ?_, h, rfl⟩
    rw [trailingWs, peek_of_cons h, hc, if_neg Bool.false_ne_true]
    rfl
  rcases hr with h | h
  · cases w with
    | nil => exact hstop h
    | cons a w =>
      obtain ⟨ha, hw⟩ := allIn_cons.mp hw
      obtain ⟨l', hskip, hlook, hs⟩ := skipOrErr_cons h (by simp)
      refine ⟨l', ?_, ?_, hs⟩
      · rw [trailingWs, peek_of_cons h, if_pos ha, hskip]
        rfl
      · have hcons : (a :: w ++ c :: x).dropWhile isSpace = (w ++ c :: x).dropWhile isSpace := by
          rw [List.cons_append, List.dropWhile_cons, if_pos ha]
        exact hlook.trans (hcons.symm.trans hdrop)
  · exact hstop (h.trans hdrop)

/-- Behind trailing white space the cursor is at the first other character. -/
theorem trailingWs_sound (h : trailingWs l = .ok l') (hr : Rest l x) :
    l'.lookahead = x.dropWhile isSpace ∧ l'.s = l.s := by
  rw [trailingWs] at h
  split at h
  · next hsp =>
    have hne : l.peek ≠ '\x00' := by
      intro hnul
      rw [hnul] at hsp
      exact absurd hsp (by decide)
    obtain ⟨y, hy⟩ := exists_cons rfl hne
    obtain ⟨⟨l₁, c⟩, hskip, h⟩ := bind_eq_ok.mp h
    obtain ⟨a, z, hl, -, hlook, hs, -⟩ := skipOrErr_ok hskip
    obtain rfl := Except.ok.inj h
    rcases hr with hr | hr
    · rw [← hr, hl, List.dropWhile_cons, if_pos (peek_of_cons hl ▸ hsp)]
      exact ⟨hlook, hs⟩
    · -- the white space was passed over already
      have hstop : Stops isSpace l.lookahead := hr ▸ stops_dropWhile
      rw [hy, stops_cons, hsp] at hstop
      exact nomatch hstop
  · next hsp =>
    obtain rfl := Except.ok.inj h
    refine ⟨?_, rfl⟩
    rcases hr with hr | hr
    · have hstop : Stops isSpace l.lookahead := by
        cases hy : l.lookahead with
        | nil => exact stops_nil
        | cons a y => exact stops_cons.mpr (by simpa [peek_of_cons hy] using hsp)
      rw [← hr]
      exact hstop.dropWhile.symm
    · exact hr

/-! ## 2. Specifications of the nonterminals -/

/-- What is matched between commas: a value, or a name and a value. -/
def matchEntry (o : Bool) (value : Matcher) : Matcher :=
  if o then matchMember value else matchElem value

/-- The elements of `f` are acceptable, in the mode of `jo` and at the depth `d`. -/
abbrev Good (jo : Option Json) (d : Nat) (f : Forest JsonItem) : Prop :=
  f.AllAt (Accepts jo.isSome) d

/-- After a value: the lexer at what follows, and the object filled. -/
structure ValuePost (l : Lexer) (jo : Option Json) (x : List Char) (f : Forest JsonItem)
    (p : Lexer × Option Json) : Prop where
  s : p.1.s = l.s
  rest : Rest p.1 x
  built : p.2.map tree = jo.map fun _ => f

/-- After an element or a member: the lexer at what follows, and the element appended. -/
structure EntryPost (l : Lexer) (jo : Option Json) (x : List Char) (f : Forest JsonItem)
    (p : Lexer × Option Json) : Prop where
  s : p.1.s = l.s
  rest : Rest p.1 x
  appended : Appended jo f p.2

/-- After the loop: the lexer at the closing bracket, and the elements appended. -/
structure ItemsPost (l : Lexer) (jo : Option Json) (x : List Char) (f : Forest JsonItem)
    (p : Lexer × Option Json) : Prop where
  s : p.1.s = l.s
  rest : p.1.lookahead = x
  appended : Appended jo f p.2

/-- What the matcher of values does on the text of a value, behind which there is a character that
may follow it. -/
def ValueSpec (k t : List Char) (f : Forest JsonItem) : Prop :=
  ∀ {n : Nat} {l : Lexer} {jo : Option Json} {d : Nat} {c : Char} {x : List Char}, t.length ≤ n →
    l.lookahead = t ++ c :: x → follows c = true → Fresh jo d k → del ∉ k →
    Outcome (matchValue n l jo) (Good jo d f) (ValuePost l jo (c :: x) f)

/-- What is matched between commas, on the text of an entry. -/
def EntrySpec (o : Bool) (t : List Char) (f : Forest JsonItem) : Prop :=
  ∀ {n : Nat} {l : Lexer} {jo : Option Json} {d : Nat} {c : Char} {x : List Char}, t.length ≤ n →
    l.lookahead = t ++ c :: x → follows c = true → Open jo d →
    Outcome (matchEntry o (matchValue n) l jo) (Good jo (d + 1) f) (EntryPost l jo (c :: x) f)

/-- What the loop of a container does, from behind the opening bracket or a comma to the closing
bracket. -/
def ItemsSpec (o : Bool) (t : List Char) (f : Forest JsonItem) : Prop :=
  ∀ {n m : Nat} {l : Lexer} {jo : Option Json} {d : Nat} {a : Char} {x : List Char}, t.length ≤ n →
    t.length < m → l.lookahead = a :: (t ++ closing o :: x) → Open jo d →
    Outcome (containerLoop (closing o) (matchEntry o (matchValue n)) m l jo) (Good jo (d + 1) f)
      (ItemsPost l jo (closing o :: x) f)

/-- The specification of a nonterminal. -/
def SymSpec : Sym → List Char → Forest JsonItem → Prop
  | .value k => ValueSpec k
  | .entry o => EntrySpec o
  | .items o => ItemsSpec o

/-- A value is one node under its name. -/
theorem Derives.value_shape {D : Dialect} (h : Derives D (.value k) t f) :
    ∃ type v g, f = .node ⟨type, k, v⟩ g .nil := by
  cases h with
  | string _ => exact ⟨_, _, _, rfl⟩
  | number _ => exact ⟨_, _, _, rfl⟩
  | literal _ _ => exact ⟨_, _, _, rfl⟩
  | container _ => exact ⟨_, _, _, rfl⟩

/-- A fresh object filled with a lexeme is a leaf of the tree. -/
theorem fill_tree {type : JsonType} {v : List Char} (h : Fresh jo d k) :
    (fill jo type v).map tree = jo.map fun _ => .node ⟨type, k, v⟩ .nil .nil := by
  cases jo with
  | none => rfl
  | some j =>
    obtain ⟨rfl, -, -⟩ := h j rfl
    rfl

/-- A leaf is acceptable when its lexeme is: no DEL, and short enough for a buffer if a tree is
built. -/
theorem good_leaf {type : JsonType} {v : List Char} (h : Fresh jo d k) (hk : del ∉ k) :
    Good jo d (.node ⟨type, k, v⟩ .nil .nil)
      ↔ del ∉ v ∧ ∀ j ∈ jo, v.length + 1 < tokenSz := by
  cases jo with
  | none => simp [Good, Accepts, hk]
  | some j =>
    obtain ⟨-, hd, hlen⟩ := h j rfl
    simp [Good, Accepts, hk, hd, hlen]

/-! ## 3. Completeness -/

/-- At a double quote, a string is tried first. -/
theorem matchStringFirst_cons (h : l.lookahead = '"' :: x) :
    matchStringFirst l = some l.recordLmatch := by
  rw [matchStringFirst, if_pos (peek_of_cons h)]

/-- A string as a value. -/
theorem value_string {v : List Char} (hv : Chars rfcPlain v) :
    ValueSpec k ('"' :: (v ++ ['"'])) (.node ⟨.string, k, v⟩ .nil .nil) := by
  intro n l jo d c x hn h hc hfresh hk
  obtain ⟨n, rfl⟩ := Nat.exists_eq_succ_of_ne_zero (Nat.ne_zero_of_lt hn)
  have hassoc : l.lookahead = '"' :: (v ++ '"' :: (c :: x)) := by simpa using h
  have hlook : (afterString l.recordLmatch v.length).lookahead = c :: x := by
    have hadv := @lookahead_adv_append l ('"' :: (v ++ ['"'])) (c :: x) h
    rw [List.length_cons, List.length_append] at hadv
    exact hadv
  rw [matchValue, matchStringFirst_cons hassoc]
  refine ((matchString_outcome (l := l.recordLmatch) hv hassoc jo).congr
    (good_leaf hfresh hk).symm).imp ?_
  rintro _ rfl
  exact ⟨rfl, .inl hlook, fill_tree hfresh⟩

/-- A number starts with a minus sign or a digit, so it is told from all other values by that. -/
theorem Number.head {v : List Char} (hv : Number v) :
    ∃ a y, v = a :: y ∧ (a = '-' ∨ a.isDigit = true) := by
  cases hv with
  | minus _ _ _ => exact ⟨'-', _, rfl, .inl rfl⟩
  | unsigned hi _ _ =>
    obtain ⟨a, ds, rfl, ha⟩ := hi.head
    exact ⟨a, _, rfl, .inr ha⟩

/-- A number as a value, with something behind it that cannot go on it. -/
theorem value_number {v : List Char} (hv : Number v) :
    ValueSpec k v (.node ⟨.number, k, v⟩ .nil .nil) := by
  intro n l jo d c x hn h hc hfresh hk
  obtain ⟨a, y, rfl, ha⟩ := hv.head
  obtain ⟨n, rfl⟩ := Nat.exists_eq_succ_of_ne_zero (Nat.ne_zero_of_lt hn)
  have hquote : a ≠ '"' := by
    rintro rfl
    exact absurd ha (by decide)
  have hfirst : matchNumberFirst l = some l.recordLmatch := by
    rw [matchNumberFirst, if_pos (by simpa [peek_of_cons h] using ha)]
  rw [matchValue, matchStringFirst, if_neg (by simpa [peek_of_cons h] using hquote), hfirst]
  have hnum := @matchNumber_outcome l.recordLmatch c (a :: y) x hv h
    (endsNumber_of_follows hc) rfl jo
  refine (hnum.congr ?_).imp ?_
  · rw [good_leaf hfresh hk]
    exact (and_iff_right fun hdel => absurd (hv.chars _ hdel) (by decide)).symm
  · rintro _ rfl
    exact ⟨rfl, .inl (lookahead_adv_append h), fill_tree hfresh⟩

/-- A word is what its matcher spells: its first letter chooses the matcher. -/
theorem matchValue_word {type : JsonType} {w : List Char} (hw : word type = some w) :
    ∃ first rem, w = first :: rem ∧ AllIn isLetter rem ∧ first ≠ '\x00' ∧
      ∀ {n : Nat} {l : Lexer} {jo : Option Json}, l.peek = first →
        matchValue (n + 1) l jo = matchSeq type first rem l jo := by
  have hother : ∀ {n : Nat} {l : Lexer} {jo : Option Json},
      l.peek = 't' ∨ l.peek = 'f' ∨ l.peek = 'n' →
      matchValue (n + 1) l jo = if l.peek = 't' then matchTrue l jo
        else if l.peek = 'f' then matchFalse l jo else matchNull l jo := by
    intro n l jo hpeek
    rw [matchValue, matchStringFirst, if_neg, matchNumberFirst, if_neg]
    · rcases hpeek with h | h | h <;> simp [h]
    · rcases hpeek with h | h | h <;> simp [h]
    · rcases hpeek with h | h | h <;> simp [h]
  cases type with
  | true =>
    obtain rfl := Option.some.inj hw
    exact ⟨'t', _, rfl, by decide, by decide, fun h => by rw [hother (.inl h), if_pos h]; rfl⟩
  | false =>
    obtain rfl := Option.some.inj hw
    refine ⟨'f', _, rfl, by decide, by decide, fun h => ?_⟩
    rw [hother (.inr (.inl h)), if_neg (by simp [h]), if_pos h]
    rfl
  | null =>
    obtain rfl := Option.some.inj hw
    refine ⟨'n', _, rfl, by decide, by decide, fun h => ?_⟩
    rw [hother (.inr (.inr h)), if_neg (by simp [h]), if_neg (by simp [h])]
    rfl
  | _ => exact nomatch hw

/-- What is spelled starts with the first letter of the word. -/
theorem Spelled.head {D : Dialect} {a : Char} {w : List Char} (h : Spelled D (a :: w) t) :
    ∃ t', t = a :: t' := by
  cases h with
  | last => exact ⟨[], rfl⟩
  | next _ _ _ => exact ⟨_, rfl⟩

/-- One of the three words as a value. -/
theorem value_literal {type : JsonType} {w : List Char} (hw : word type = some w)
    (ht : Spelled lenient w t) : ValueSpec k t (.node ⟨type, k, []⟩ .nil .nil) := by
  intro n l jo d c x hn h hc hfresh hk
  obtain ⟨first, rem, rfl, hrem, -, hval⟩ := matchValue_word hw
  obtain ⟨t', rfl⟩ := ht.head
  obtain ⟨n, rfl⟩ := Nat.exists_eq_succ_of_ne_zero (Nat.ne_zero_of_lt hn)
  obtain ⟨l', hseq, hlook, hs⟩ : ∃ l', matchSeq type first rem l jo =
    .ok (l', jo.map (·.setType type)) ∧
      l'.lookahead = (c :: x).dropWhile isSpace ∧ l'.s = l.s :=
    matchSeq_eq ht hrem (List.cons_ne_nil c x) h jo
  rw [hval (peek_of_cons h)]
  have hfill : jo.map (·.setType type) = fill jo type [] := by
    cases jo with
    | none => rfl
    | some j =>
      obtain ⟨rfl, -, -⟩ := hfresh j rfl
      rfl
  refine (Outcome.of_eq hseq ⟨hs, .inr hlook, ?_⟩).congr ?_
  · rw [good_leaf hfresh hk, true_iff]
    exact ⟨List.not_mem_nil, fun _ _ => by decide⟩
  · rw [hfill]
    exact fill_tree hfresh

/-- What the container matchers leave behind: the text as it was, the cursor behind the closing
bracket and the white space after it, and the container with its entries. -/
structure ContainerPost (l : Lexer) (jo : Option Json) (x : List Char) (f : Forest JsonItem)
    (p : Lexer × Option Json) : Prop where
  s : p.1.s = l.s
  rest : p.1.lookahead = x.dropWhile isSpace
  built : p.2.map tree = jo.map fun _ => f

/-- **The container matchers**, whatever follows the closing bracket. -/
theorem container_outcome (hspec : ItemsSpec o t f) {n : Nat} (hn : t.length ≤ n)
    (h : l.lookahead = opening o :: (t ++ closing o :: x)) (hfresh : Fresh jo d k) (hk : del ∉ k) :
    Outcome (matchContainer (containerType o) (opening o) (closing o) (matchEntry o (matchValue n))
      l jo) (Good jo d (.node ⟨containerType o, k, []⟩ f .nil))
      (ContainerPost l jo x (.node ⟨containerType o, k, []⟩ f .nil)) := by
  have hcont : isContainer (containerType o) = true := by cases o <;> rfl
  have hopen : Open (jo.map (·.setType (containerType o))) d := by
    intro j hj
    obtain ⟨j', hj', rfl⟩ := Option.map_eq_some_iff.mp hj
    obtain ⟨rfl, -, -⟩ := hfresh j' hj'
    exact ⟨rfl, hcont⟩
  have hm : t.length < l.slen + 1 := by
    have hle := @lookahead_length_le l
    rw [h] at hle
    simp only [List.length_cons, List.length_append] at hle
    omega
  rw [matchContainer, if_neg (by simp [peek_of_cons h])]
  suffices hs : Outcome _ (Good (jo.map (·.setType (containerType o))) (d + 1) f ∧ True)
      (ContainerPost l jo x (.node ⟨containerType o, k, []⟩ f .nil)) by
    refine hs.congr ?_
    rw [and_true, Good, Good, Option.isSome_map, Forest.allAt_node]
    have hacc : Accepts jo.isSome d ⟨containerType o, k, []⟩ := by
      refine ⟨⟨hk, List.not_mem_nil⟩, fun hsome => ?_⟩
      obtain ⟨j, rfl⟩ := Option.isSome_iff_exists.mp hsome
      obtain ⟨-, hd, hlen⟩ := hfresh j rfl
      have hnil : ([] : List Char).length + 1 < tokenSz := by decide
      exact ⟨hd, hlen, hnil⟩
    exact ⟨fun hg => ⟨hacc, hg, trivial⟩, fun hg => hg.2.1⟩
  refine (hspec hn hm h hopen).bind ?_
  rintro - ⟨l', jo'⟩ ⟨hs, hlook, happ⟩
  have hpeek : l'.peek = closing o := peek_of_cons hlook
  dsimp only
  rw [if_neg (by simp [hpeek])]
  refine Outcome.pure ⟨skip_s.trans hs, lookahead_skip hlook, ?_⟩
  cases jo with
  | none =>
    obtain rfl : jo' = none := by simpa [Appended] using happ
    rfl
  | some j =>
    obtain ⟨rfl, -, -⟩ := hfresh j rfl
    obtain ⟨j', rfl, hj'⟩ := Option.map_eq_some_iff.mp happ
    simp only [sketch, Prod.mk.injEq] at hj'
    change some (Forest.node j'.item (j'.children.map JsonNode.item) Forest.nil) = _
    rw [hj'.1, hj'.2.2]
    rfl

/-- An opening bracket chooses the matcher of its container, with one fuel less for what is inside.
-/
theorem matchValue_container {n : Nat} (h : l.peek = opening o) :
    matchValue (n + 1) l jo =
      matchContainer (containerType o) (opening o) (closing o)
      (matchEntry o (matchValue n)) l jo := by
  rw [matchValue, matchStringFirst, if_neg, matchNumberFirst, if_neg]
  · cases o with
    | true => exact if_pos h
    | false => exact (if_neg (by rw [h]; decide)).trans (if_pos h)
  · rw [h]
    cases o <;> decide
  · rw [h]
    cases o <;> decide

/-- A container as a value, when the loop does what it should. -/
theorem value_container (hspec : ItemsSpec o t f) :
    ValueSpec k (opening o :: (t ++ [closing o])) (.node ⟨containerType o, k, []⟩ f .nil) := by
  intro n l jo d c x hn h hc hfresh hk
  simp only [List.length_cons, List.length_append, List.length_nil] at hn
  obtain ⟨n, rfl⟩ := Nat.exists_eq_succ_of_ne_zero (Nat.ne_zero_of_lt hn)
  have hassoc : l.lookahead = opening o :: (t ++ closing o :: (c :: x)) := by simpa using h
  rw [matchValue_container (peek_of_cons hassoc)]
  refine (container_outcome hspec (by omega) hassoc hfresh hk).imp ?_
  rintro p ⟨hs, hlook, hbuilt⟩
  exact ⟨hs, .inr hlook, hbuilt⟩

/-- A new node below a container, when there is room for one; the depth is limited only if a tree is
built. -/
theorem newBelow_outcome (ho : Open jo d) :
    Outcome (newBelow jo) (∀ j ∈ jo, d + 1 < jsonMaxDepth)
      (· = jo.map fun _ => ⟨⟨.unknown, [], [], d + 1, 0⟩, .nil⟩) := by
  cases jo with
  | none => exact (Outcome.pure (P := (· = none)) rfl).congr (by simp)
  | some j =>
    obtain ⟨rfl, -⟩ := ho j rfl
    rw [newBelow, setDepth]
    by_cases hd : jsonMaxDepth ≤ j.depth + 1
    · rw [if_pos hd]
      exact Outcome.error fun h => absurd (h j rfl) (Nat.not_lt.mpr hd)
    · rw [if_neg hd]
      exact (Outcome.of_eq (P := (· = some (⟨⟨.unknown, [], [], j.depth + 1, 0⟩, .nil⟩ : Json)))
        rfl rfl).congr (iff_of_true trivial fun _ _ => Nat.not_le.mp hd)

/-- The finished node is pushed to its parent, behind those that it has. -/
theorem addTo_eq {elem elem' : Option Json} (ho : Open jo d) (he : elem.isSome = jo.isSome)
    (hb : elem'.map tree = elem.map fun _ => f) :
    ∃ jo', addTo jo elem' = .ok jo' ∧ Appended jo f jo' := by
  cases jo with
  | none => exact ⟨none, by cases elem' <;> rfl, rfl⟩
  | some j =>
    obtain ⟨-, hc⟩ := ho j rfl
    obtain ⟨e, rfl⟩ := Option.isSome_iff_exists.mp he
    obtain ⟨e', rfl, rfl⟩ := Option.map_eq_some_iff.mp hb
    have hadd : ∃ j', j.add e' = some j' ∧ sketch j'
        = (j.item, j.depth, (j.children.map JsonNode.item).append (tree e')) := by
      refine ⟨_, by rw [add, hc]; exact if_neg Bool.false_ne_true, ?_⟩
      simp only [sketch, Forest.map_append]
      rfl
    obtain ⟨j', hj', hsk⟩ := hadd
    refine ⟨some j', by rw [addTo, hj']; rfl, ?_⟩
    exact congrArg some hsk

/-- An element of an array is a value without a name. -/
theorem entry_element (hd : Derives lenient (.value []) t f) (hspec : ValueSpec [] t f) :
    EntrySpec false t f := by
  intro n l jo d c x hn h hc ho
  obtain ⟨type, v, g, rfl⟩ := hd.value_shape
  suffices hs : Outcome (matchElem (matchValue n) l jo)
      ((∀ j ∈ jo, d + 1 < jsonMaxDepth) ∧ Good jo (d + 1) (.node ⟨type, [], v⟩ g .nil) ∧ True)
      (EntryPost l jo (c :: x) (.node ⟨type, [], v⟩ g .nil)) by
    refine hs.congr ⟨fun h => h.2.1, fun h => ⟨fun j hj => ?_, h, trivial⟩⟩
    obtain rfl := Option.mem_def.mp hj
    exact (h.1.2 rfl).1
  refine (newBelow_outcome ho).bind ?_
  rintro hroom _ rfl
  have hfresh : Fresh (jo.map fun _ => (⟨⟨.unknown, [], [], d + 1, 0⟩, .nil⟩ : Json))
    (d + 1) [] := by
    intro j hj
    obtain ⟨j', hj', rfl⟩ := Option.map_eq_some_iff.mp hj
    exact ⟨rfl, hroom j' hj', by decide⟩
  have hval := hspec hn h hc hfresh List.not_mem_nil
  rw [Good, Option.isSome_map] at hval
  refine hval.bind ?_
  rintro - ⟨l', elem⟩ ⟨hs, hrest, hbuilt⟩
  obtain ⟨jo', hadd, happ⟩ := addTo_eq ho (by simp) hbuilt
  dsimp only
  rw [hadd]
  exact Outcome.pure ⟨hs, hrest, happ⟩

/-- The name of a member is set when it fits its buffer. -/
theorem setName_outcome (jo : Option Json) {v : List Char} (h : l.s.drop l.lmatch = v ++ c :: x)
    (hr : l.rmatch = l.lmatch + v.length) :
    Outcome (setName l jo) (∀ j ∈ jo, v.length + 1 < tokenSz)
      (· = jo.map fun j => { j with key := v }) := by
  cases jo with
  | none => exact (Outcome.pure (P := (· = none)) rfl).congr (by simp)
  | some j =>
    suffices hs : Outcome (setName l (some j)) (v.length + 1 < tokenSz ∧ True)
        (· = some { j with key := v }) from hs.congr (by simp)
    refine (trimMatch_outcome h hr).bind ?_
    rintro hshort m rfl
    have hset : j.setKey (some m) = some { j with key := m } := by
      rw [setKey, Option.getD_some, strlcpy, if_pos (Nat.lt_of_succ_lt hshort)]
      rfl
    rw [hset]
    exact Outcome.pure rfl

/-- A member of an object: its name, a colon and its value, with white space between them. -/
theorem entry_member {w w' : List Char} (hchars : Chars rfcPlain k) (hw : AllIn isSpace w)
    (hw' : AllIn isSpace w') (hd : Derives lenient (.value k) t f) (hspec : ValueSpec k t f)
    (ht : ∃ a y, t = a :: y ∧ isSpace a = false) :
    EntrySpec true ('"' :: (k ++ '"' :: (w ++ ':' :: (w' ++ t)))) f := by
  intro n l jo d c x hn h hc ho
  obtain ⟨type, v, g, rfl⟩ := hd.value_shape
  have hassoc : l.lookahead = '"' :: (k ++ '"' :: (w ++ ':' :: (w' ++ (t ++ c :: x)))) := by
    simpa using h
  have hmember : matchEntry true (matchValue n) l jo = matchPair (matchValue n)
    l.recordLmatch jo := by
    change matchMember (matchValue n) l jo = _
    rw [matchMember, matchStringFirst_cons hassoc]
  rw [hmember]
  suffices hs : Outcome (matchPair (matchValue n) l.recordLmatch jo)
      ((del ∉ k ∧ ∀ j ∈ (none : Option Json), k.length + 1 < tokenSz) ∧
        (∀ j ∈ jo, d + 1 < jsonMaxDepth) ∧ (∀ j ∈ jo, k.length + 1 < tokenSz) ∧
          Good jo (d + 1) (.node ⟨type, k, v⟩ g .nil) ∧ True)
      (EntryPost l jo (c :: x) (.node ⟨type, k, v⟩ g .nil)) by
    refine hs.congr ⟨fun h => h.2.2.2.1, fun h => ⟨⟨h.1.1.1, fun _ hj => nomatch hj⟩,
      ?_, ?_, h, trivial⟩⟩
    · intro j hj
      obtain rfl := Option.mem_def.mp hj
      exact (h.1.2 rfl).1
    · intro j hj
      obtain rfl := Option.mem_def.mp hj
      exact (h.1.2 rfl).2.1
  refine (matchString_outcome (l := l.recordLmatch) hchars hassoc none).bind ?_
  rintro ⟨hdel, -⟩ _ rfl
  refine (newBelow_outcome ho).bind ?_
  rintro hroom _ rfl
  have hmatch : (afterString l.recordLmatch k.length).s.drop
      (afterString l.recordLmatch k.length).lmatch
        = k ++ '"' :: (w ++ ':' :: (w' ++ (t ++ c :: x))) :=
    lookahead_adv_append (t := ['"']) hassoc
  have hname := setName_outcome (jo.map fun _ => (⟨⟨.unknown, [], [], d + 1, 0⟩, .nil⟩ : Json))
    hmatch rfl
  refine (hname.congr ?_).bind ?_
  · simp
  rintro hshort _ rfl
  have hafter : (afterString l.recordLmatch k.length).lookahead
      = w ++ ':' :: (w' ++ (t ++ c :: x)) := by
    have hcat : l.lookahead = ('"' :: (k ++ ['"'])) ++ (w ++ ':' :: (w' ++ (t ++ c :: x))) := by
      simpa using hassoc
    have hadv := lookahead_adv_append hcat
    rw [List.length_cons, List.length_append] at hadv
    exact hadv
  obtain ⟨l₁, htrail, hlook₁, hs₁⟩ := trailingWs_eq (.inl hafter) hw (by decide)
  refine .bind_of_eq htrail ?_
  rw [peek_of_cons hlook₁, if_neg (by simp)]
  obtain ⟨l₂, hskip, hlook₂, hs₂⟩ := skipOrErr_cons hlook₁ (by simp)
  refine .bind_of_eq hskip ?_
  obtain ⟨a, y, rfl, ha⟩ := ht
  have hlook₃ : l₂.lookahead = (a :: y) ++ c :: x := by
    rw [hlook₂, dropWhile_append (p := isSpace) hw']
    exact (stops_cons.mpr ha).dropWhile
  have hfresh : Fresh ((jo.map fun _ => (⟨⟨.unknown, [], [], d + 1, 0⟩, .nil⟩ : Json)).map
      fun j => { j with key := k }) (d + 1) k := by
    intro j hj
    obtain ⟨j', hj', rfl⟩ := Option.map_eq_some_iff.mp hj
    obtain ⟨j'', hj'', rfl⟩ := Option.map_eq_some_iff.mp hj'
    exact ⟨rfl, hroom j'' hj'', hshort j'' hj''⟩
  have hlen : (a :: y).length ≤ n := by
    simp only [List.length_cons, List.length_append] at hn ⊢
    omega
  have hval := hspec hlen hlook₃ hc hfresh hdel
  rw [Good, Option.isSome_map, Option.isSome_map] at hval
  refine hval.bind ?_
  rintro - ⟨l', pair⟩ ⟨hs, hrest, hbuilt⟩
  obtain ⟨jo', hadd, happ⟩ := addTo_eq ho (by simp) hbuilt
  dsimp only
  rw [hadd]
  exact Outcome.pure ⟨hs.trans (hs₂.trans hs₁), hrest, happ⟩

/-- A value starts with a character that is neither white space nor a closing bracket. -/
theorem Derives.value_head {D : Dialect} (h : Derives D (.value k) t f) :
    ∃ a y, t = a :: y ∧ isSpace a = false ∧ ∀ o, a ≠ closing o := by
  have hclosing : ∀ {a : Char}, a ≠ ']' → a ≠ '\x7d' → ∀ o, a ≠ closing o := by
    rintro a h h' (_ | _)
    · exact h
    · exact h'
  cases h with
  | string _ => exact ⟨'"', _, rfl, by decide, hclosing (by decide) (by decide)⟩
  | number hv =>
    obtain ⟨a, y, rfl, ha⟩ := hv.head
    refine ⟨a, y, rfl, Bool.eq_false_iff.mpr fun hsp => ?_, hclosing ?_ ?_⟩
    · have hends := endsNumber_of_follows (c := a) (by rw [follows, hsp]; rfl)
      have hdigit : a.isDigit = true := by
        rcases ha with rfl | ha
        · exact absurd hsp (by decide)
        · exact ha
      rw [endsNumber, hdigit] at hends
      cases hends
    · rintro rfl
      exact absurd ha (by decide)
    · rintro rfl
      exact absurd ha (by decide)
  | @literal _ w t type hw ht =>
    cases type with
    | true =>
      obtain rfl := Option.some.inj hw
      obtain ⟨t', rfl⟩ := ht.head
      exact ⟨'t', t', rfl, by decide, hclosing (by decide) (by decide)⟩
    | false =>
      obtain rfl := Option.some.inj hw
      obtain ⟨t', rfl⟩ := ht.head
      exact ⟨'f', t', rfl, by decide, hclosing (by decide) (by decide)⟩
    | null =>
      obtain rfl := Option.some.inj hw
      obtain ⟨t', rfl⟩ := ht.head
      exact ⟨'n', t', rfl, by decide, hclosing (by decide) (by decide)⟩
    | _ => cases hw
  | @container _ _ o _ _ =>
    refine ⟨opening o, _, rfl, ?_, hclosing ?_ ?_⟩ <;> cases o <;> decide

/-- An entry starts with a character that is neither white space nor a closing bracket, so the loop
goes into it. -/
theorem Derives.entry_head {D : Dialect} (h : Derives D (.entry o) t f) :
    ∃ a y, t = a :: y ∧ isSpace a = false ∧ ∀ o, a ≠ closing o := by
  cases h with
  | element h => exact h.value_head
  | member _ _ _ _ => exact ⟨'"', _, rfl, by decide, fun o => by cases o <;> decide⟩

theorem isSpace_closing (o : Bool) : isSpace (closing o) = false := by cases o <;> decide

theorem closing_ne_comma (o : Bool) : closing o ≠ ',' := by cases o <;> decide

/-- The loop over entries on an empty container. -/
theorem items_none {w : List Char} (hw : AllIn isSpace w) : ItemsSpec o w .nil := by
  intro n m l jo d a x hn hm h ho
  obtain ⟨m, rfl⟩ := Nat.exists_eq_succ_of_ne_zero (Nat.ne_zero_of_lt hm)
  obtain ⟨l', hskip, hlook, hs⟩ := skipOrErr_cons h (by simp)
  have hend : l'.lookahead = closing o :: x := by
    rw [hlook, dropWhile_append (p := isSpace) hw]
    exact (stops_cons.mpr (isSpace_closing o)).dropWhile
  refine Outcome.congr (.bind_of_eq hskip ?_) (iff_of_true trivial trivial : True ↔ _)
  dsimp only
  rw [peek_of_cons hend, if_pos rfl]
  exact Outcome.pure ⟨hs, hend, Appended.refl jo⟩

/-- One turn of the loop that matches an element, up to the character behind it. -/
theorem items_turn {w w' : List Char} {n m : Nat} {a b : Char} (hw : AllIn isSpace w)
    (hd : Derives lenient (.entry o) t f) (hspec : EntrySpec o t f) (hw' : AllIn isSpace w')
    (hn : t.length ≤ n) (h : l.lookahead = a :: (w ++ (t ++ (w' ++ b :: x)))) (ho : Open jo d)
    (hb : isSpace b = false) (hfb : follows b = true) {good : Prop}
    {P : Lexer × Option Json → Prop}
    (hrest : ∀ {l' : Lexer} {jo' : Option Json}, l'.s = l.s → l'.lookahead = b :: x →
      Appended jo f jo' →
      Outcome (if l'.peek = ',' then
        containerLoop (closing o) (matchEntry o (matchValue n)) m l' jo' else pure (l', jo'))
        good P) :
    Outcome (containerLoop (closing o) (matchEntry o (matchValue n)) (m + 1) l jo)
      (Good jo (d + 1) f ∧ good) P := by
  obtain ⟨a', y, rfl, ha', hclose⟩ := hd.entry_head
  obtain ⟨l₁, hskip, hlook, hs⟩ := skipOrErr_cons h (by simp)
  have hl₁ : l₁.lookahead = (a' :: y) ++ (w' ++ b :: x) := by
    rw [hlook, dropWhile_append (p := isSpace) hw]
    exact (stops_cons.mpr ha').dropWhile
  refine .bind_of_eq hskip ?_
  dsimp only
  rw [peek_of_cons hl₁, if_neg (hclose o)]
  -- the entry is followed by white space or by `b`
  obtain ⟨c, z, hz, hfc⟩ : ∃ c z, w' ++ b :: x = c :: z ∧ follows c = true := by
    cases w' with
    | nil => exact ⟨b, x, rfl, hfb⟩
    | cons c w' =>
      have hc := (allIn_cons.mp hw').1
      exact ⟨c, w' ++ b :: x, rfl, by rw [follows, hc]; rfl⟩
  refine (hspec hn (hz ▸ hl₁) hfc ho).bind ?_
  rintro - ⟨l₂, jo₂⟩ ⟨hs₂, hrest₂, happ⟩
  obtain ⟨l₃, htrail, hlook₃, hs₃⟩ := trailingWs_eq (hz ▸ hrest₂) hw' hb
  refine .bind_of_eq htrail (hrest (hs₃.trans (hs₂.trans hs)) hlook₃ happ)

/-- The loop over entries at the last one. -/
theorem items_last {w w' : List Char} (hw : AllIn isSpace w) (hd : Derives lenient (.entry o) t f)
    (hspec : EntrySpec o t f) (hw' : AllIn isSpace w') : ItemsSpec o (w ++ (t ++ w')) f := by
  intro n m l jo d a x hn hm h ho
  obtain ⟨m, rfl⟩ := Nat.exists_eq_succ_of_ne_zero (Nat.ne_zero_of_lt hm)
  simp only [List.length_append] at hn
  have hassoc : l.lookahead = a :: (w ++ (t ++ (w' ++ closing o :: x))) := by simpa using h
  refine (items_turn hw hd hspec hw' (by omega) hassoc ho (isSpace_closing o) (follows_closing o)
    ?_).congr (and_true _).to_iff
  intro l' jo' hs hlook happ
  rw [peek_of_cons hlook, if_neg (closing_ne_comma o)]
  exact Outcome.pure ⟨hs, hlook, happ⟩

/-- The loop over entries at one with a comma behind it. -/
theorem items_more {w w' t' : List Char} {g : Forest JsonItem} (hw : AllIn isSpace w)
    (hd : Derives lenient (.entry o) t f) (hspec : EntrySpec o t f) (hw' : AllIn isSpace w')
    (hspec' : ItemsSpec o t' g) : ItemsSpec o (w ++ (t ++ (w' ++ ',' :: t'))) (f.append g) := by
  intro n m l jo d a x hn hm h ho
  obtain ⟨m, rfl⟩ := Nat.exists_eq_succ_of_ne_zero (Nat.ne_zero_of_lt hm)
  simp only [List.length_append, List.length_cons] at hn hm
  have hassoc : l.lookahead = a :: (w ++ (t ++ (w' ++ ',' :: (t' ++ closing o :: x)))) := by
    simpa using h
  suffices hs : Outcome _ (Good jo (d + 1) f ∧ Good jo (d + 1) g) _ from
    hs.congr Forest.allAt_append.symm
  refine items_turn hw hd hspec hw' (by omega) hassoc ho (by decide) (by decide) ?_
  intro l' jo' hs hlook happ
  rw [peek_of_cons hlook, if_pos rfl]
  have hloop := hspec' (n := n) (m := m) (by omega) (by omega) hlook (happ.open ho)
  rw [Good, happ.isSome] at hloop
  exact hloop.imp fun p hp => ⟨hp.s.trans hs, hp.rest, happ.trans hp.appended⟩

/-- **Completeness**, for all nonterminals at once, by induction on the derivation. -/
theorem symSpec {sym : Sym} (h : Derives lenient sym t f) : SymSpec sym t f := by
  induction h with
  | string hv => exact value_string hv
  | number hv => exact value_number hv
  | literal hw ht => exact value_literal hw ht
  | container _ ih => exact value_container ih
  | element hd ih => exact entry_element hd ih
  | member hk hw hw' hd ih =>
    obtain ⟨a, y, ht, ha, -⟩ := hd.value_head
    exact entry_member hk hw hw' hd ih ⟨a, y, ht, ha⟩
  | none hw => exact items_none hw
  | last hw hd hw' ih => exact items_last hw hd ih hw'
  | more hw hd hw' _ _ ih ih' => exact items_more hw hd ih hw' ih'

/-! ## 4. Soundness -/

/-- What a successful value matcher has read, whatever the name of the value. -/
def ValueSound (n : Nat) : Prop :=
  ∀ {l l' : Lexer} {jo jo' : Option Json}, matchValue n l jo = .ok (l', jo') → ∀ k : List Char,
    ∃ t x f, l.lookahead = t ++ x ∧ Derives code (.value k) t f ∧ Rest l' x ∧ l'.s = l.s

/-- Behind a string there is what was behind its closing quote. -/
theorem lookahead_afterString {v : List Char} (h : l.lookahead = '"' :: (v ++ '"' :: x)) :
    (afterString l v.length).lookahead = x := by
  have hcat : l.lookahead = ('"' :: (v ++ ['"'])) ++ x := by simpa using h
  have hadv := lookahead_adv_append hcat
  rw [List.length_cons, List.length_append] at hadv
  exact hadv

/-- An entry that has been matched is one of the code's grammar, if that is so of its value. -/
theorem entry_sound {n : Nat} (hval : ValueSound n)
    (h : matchEntry o (matchValue n) l jo = .ok (l', jo')) :
    ∃ t x f, l.lookahead = t ++ x ∧ Derives code (.entry o) t f ∧ Rest l' x ∧ l'.s = l.s := by
  cases o with
  | false =>
    obtain ⟨elem, -, h⟩ := bind_eq_ok.mp (show matchElem (matchValue n) l jo = .ok (l', jo') from h)
    obtain ⟨⟨l₁, elem'⟩, hv, h⟩ := bind_eq_ok.mp h
    obtain ⟨jo₁, -, h⟩ := bind_eq_ok.mp h
    obtain ⟨rfl, -⟩ := Prod.mk.inj (Except.ok.inj h)
    obtain ⟨t, x, f, hl, hd, hr, hs⟩ := hval hv []
    exact ⟨t, x, f, hl, .element hd, hr, hs⟩
  | true =>
    replace h : matchMember (matchValue n) l jo = .ok (l', jo') := h
    rw [matchMember, matchStringFirst] at h
    split at h
    · exact nomatch h
    · next l₀ hfirst =>
      have hl₀ : l₀.lookahead = l.lookahead ∧ l₀.s = l.s := by
        split at hfirst
        · obtain rfl := Option.some.inj hfirst
          exact ⟨rfl, rfl⟩
        · exact nomatch hfirst
      obtain ⟨⟨l₁, jo₁⟩, hstr, h⟩ := bind_eq_ok.mp h
      obtain ⟨pair, -, h⟩ := bind_eq_ok.mp h
      obtain ⟨pair', -, h⟩ := bind_eq_ok.mp h
      obtain ⟨l₂, htrail, h⟩ := bind_eq_ok.mp h
      split at h
      · exact nomatch h
      · next hcolon =>
        obtain ⟨⟨l₃, c⟩, hskip, h⟩ := bind_eq_ok.mp h
        obtain ⟨⟨l₄, pair''⟩, hv, h⟩ := bind_eq_ok.mp h
        obtain ⟨jo₂, -, h⟩ := bind_eq_ok.mp h
        obtain ⟨rfl, -⟩ := Prod.mk.inj (Except.ok.inj h)
        obtain ⟨k, y, hk, hchars, rfl⟩ := matchString_sound hstr
        obtain ⟨hl₂, hs₂⟩ := trailingWs_sound htrail (.inl (lookahead_afterString hk))
        obtain ⟨w, hw, hy⟩ := exists_front isSpace y
        obtain ⟨a, z, hl₂', -, hl₃, hs₃, -⟩ := skipOrErr_ok hskip
        obtain rfl : a = ':' := (peek_of_cons hl₂').symm.trans (not_not.mp hcolon)
        obtain ⟨w', hw', hz⟩ := exists_front isSpace z
        obtain ⟨t, x, f, hl, hd, hr, hs⟩ := hval hv k
        refine ⟨_, x, f, ?_, .member hchars hw hw' hd, hr, hs.trans (hs₃.trans (hs₂.trans hl₀.2))⟩
        rw [← hl₀.1, hk, hy, ← hl₂, hl₂', hz, ← hl₃, hl]
        simp

/-- The loop that has come to the closing bracket has read entries and commas; by induction on its
fuel. -/
theorem loop_sound {n : Nat} (hval : ValueSound n) : ∀ {m : Nat} {l l' : Lexer}
    {jo jo' : Option Json} {a : Char} {y : List Char},
    containerLoop (closing o) (matchEntry o (matchValue n)) m l jo = .ok (l', jo') →
    l.lookahead = a :: y → l'.s = l.s ∧ (l'.peek = closing o →
      ∃ t f x, y = t ++ closing o :: x ∧ Derives code (.items o) t f ∧
        l'.lookahead = closing o :: x)
  | 0, _, _, _, _, _, _, h, _ => nomatch h
  | m + 1, l, l', jo, jo', a, y, h, hl => by
    have hnul : closing o ≠ '\x00' := by cases o <;> decide
    obtain ⟨⟨l₁, c⟩, hskip, h⟩ := bind_eq_ok.mp h
    obtain ⟨a', y', hl', -, hlook, hs₁, rfl⟩ := skipOrErr_ok hskip
    obtain ⟨rfl, rfl⟩ := List.cons.inj (hl.symm.trans hl')
    obtain ⟨w, hw, hy⟩ := exists_front isSpace y
    dsimp only at h
    split at h
    · next hclose =>
      obtain ⟨rfl, -⟩ := Prod.mk.inj (Except.ok.inj h)
      obtain ⟨x, hx⟩ := exists_cons hclose hnul
      exact ⟨hs₁, fun _ => ⟨w, .nil, x, by rw [← hx, hlook]; exact hy, .none hw, hx⟩⟩
    · obtain ⟨⟨l₂, jo₂⟩, hentry, h⟩ := bind_eq_ok.mp h
      obtain ⟨l₃, htrail, h⟩ := bind_eq_ok.mp h
      obtain ⟨t, x, f, hlt, hd, hr, hs₂⟩ := entry_sound hval hentry
      obtain ⟨hl₃, hs₃⟩ := trailingWs_sound htrail hr
      obtain ⟨w', hw', hx⟩ := exists_front isSpace x
      have hyt : y = w ++ (t ++ (w' ++ x.dropWhile isSpace)) := by rw [← hx, ← hlt, hlook, ← hy]
      have hs : l₃.s = l.s := hs₃.trans (hs₂.trans hs₁)
      split at h
      · next hcomma =>
        obtain ⟨z, hz⟩ := exists_cons hcomma (by decide)
        obtain ⟨hs', hrest⟩ := loop_sound hval h hz
        refine ⟨hs'.trans hs, fun hclose => ?_⟩
        obtain ⟨t', g, x', rfl, hd', hlook'⟩ := hrest hclose
        refine ⟨_, _, x', ?_, .more hw hd hw' hd' fun _ => rfl, hlook'⟩
        rw [hyt, ← hl₃, hz]
        simp
      · obtain ⟨rfl, -⟩ := Prod.mk.inj (Except.ok.inj h)
        refine ⟨hs, fun hclose => ?_⟩
        obtain ⟨z, hz⟩ := exists_cons hclose hnul
        refine ⟨_, _, z, ?_, .last hw hd hw', hz⟩
        rw [hyt, ← hl₃, hz]
        simp

/-- A container that has been matched is one of the code's grammar. -/
theorem container_sound {n : Nat} (hval : ValueSound n)
    (h : matchContainer (containerType o) (opening o) (closing o) (matchEntry o (matchValue n)) l jo
      = .ok (l', jo')) :
    ∃ t f x, l.lookahead = opening o :: (t ++ closing o :: x) ∧ Derives code (.items o) t f ∧
      l'.lookahead = x.dropWhile isSpace ∧ l'.s = l.s := by
  have hnul : opening o ≠ '\x00' := by cases o <;> decide
  rw [matchContainer] at h
  split at h
  · exact nomatch h
  · next hopen =>
    obtain ⟨y, hy⟩ := exists_cons (not_not.mp hopen) hnul
    obtain ⟨⟨l₁, jo₁⟩, hloop, h⟩ := bind_eq_ok.mp h
    obtain ⟨hs, hrest⟩ := loop_sound hval hloop hy
    dsimp only at h
    split at h
    · exact nomatch h
    · next hclose =>
      obtain ⟨rfl, -⟩ := Prod.mk.inj (Except.ok.inj h)
      obtain ⟨t, f, x, rfl, hd, hlook⟩ := hrest (not_not.mp hclose)
      exact ⟨t, f, x, hy, hd, lookahead_skip hlook, skip_s.trans hs⟩

/-- **Soundness**: a successful value matcher has read a value of the code's grammar. -/
theorem valueSound (n : Nat) : ValueSound n := by
  induction n with
  | zero => exact fun h => nomatch h
  | succ n ih =>
    intro l l' jo jo' h k
    have hcontainer : ∀ o, matchContainer (containerType o) (opening o) (closing o)
        (matchEntry o (matchValue n)) l jo = .ok (l', jo') →
        ∃ t x f, l.lookahead = t ++ x ∧ Derives code (.value k) t f ∧ Rest l' x ∧ l'.s = l.s := by
      intro o h
      obtain ⟨t, f, x, hl, hd, hlook, hs⟩ := container_sound ih h
      exact ⟨_, x, _, by simpa using hl, .container hd, .inr hlook, hs⟩
    have hword : ∀ {type : JsonType} {first : Char} {rem : List Char},
        word type = some (first :: rem) → first ≠ '\x00' → AllIn isLetter rem →
        matchSeq type first rem l jo = .ok (l', jo') →
        ∃ t x f, l.lookahead = t ++ x ∧ Derives code (.value k) t f ∧ Rest l' x ∧ l'.s = l.s := by
      intro type first rem hw hfirst hrem h
      obtain ⟨t, x, ht, hl, hlook, hs⟩ := matchSeq_sound h hfirst hrem
      exact ⟨t, x, _, hl, .literal hw ht, .inr hlook, hs⟩
    rw [matchValue] at h
    split at h
    · next l₀ hfirst =>
      rw [matchStringFirst] at hfirst
      split at hfirst
      · obtain rfl := Option.some.inj hfirst
        obtain ⟨v, x, hl, hv, rfl⟩ := matchString_sound h
        exact ⟨_, x, _, by simpa using hl, .string hv, .inl (lookahead_afterString hl), rfl⟩
      · exact nomatch hfirst
    · split at h
      · next l₀ hfirst =>
        rw [matchNumberFirst] at hfirst
        split at hfirst
        · obtain rfl := Option.some.inj hfirst
          obtain ⟨v, x, hl, hv, rfl⟩ := matchNumber_sound h
          exact ⟨v, x, _, hl, .number hv, .inl (lookahead_adv_append hl), rfl⟩
        · exact nomatch hfirst
      · split at h
        · exact hcontainer true h
        · split at h
          · exact hcontainer false h
          · split at h
            · exact hword rfl (by decide) (by decide) h
            · split at h
              · exact hword rfl (by decide) (by decide) h
              · split at h
                · exact hword rfl (by decide) (by decide) h
                · exact nomatch h

/-! ## 5. The parser -/

/-- A container value is a bracketed sequence of elements. -/
theorem Derives.container_shape {D : Dialect} (h : Derives D (.value k) t f) (hc : IsContainer f) :
    ∃ o u g, t = opening o :: (u ++ [closing o]) ∧ Derives D (.items o) u g ∧
      f = .node ⟨containerType o, k, []⟩ g .nil := by
  cases h with
  | string _ => exact nomatch hc
  | number _ => exact nomatch hc
  | @literal _ _ _ type hw _ =>
    cases type with
    | true | false | null => exact absurd hc Bool.false_ne_true
    | _ => exact nomatch hw
  | container h => exact ⟨_, _, _, rfl, h, rfl⟩

theorem isSpace_opening (o : Bool) : isSpace (opening o) = false := by cases o <;> decide

/-- A new object at the root, or none. -/
theorem fresh_root (build : Bool) : Fresh (if build then some new else none) 0 [] := by
  intro j hj
  cases build with
  | false => exact nomatch hj
  | true =>
    obtain rfl := Option.some.inj hj
    exact ⟨rfl, by decide, by decide⟩

/-- The parser behind the white space at the front of the text: the first bracket chooses the
container. -/
theorem doParse_eq {s : List Char} (h : (cString s).dropWhile isSpace = opening o :: x) :
    ∃ l : Lexer, l.s = cString s ∧ l.lookahead = opening o :: x ∧
      doParse s jo = matchContainer (containerType o) (opening o) (closing o)
        (matchEntry o (matchValue l.slen)) l jo >>= fun p => pure p.2 := by
  have heot : (Lexer.new s).eot = false := by
    rw [← Bool.not_eq_true, eot_iff]
    intro hnil
    have hs : cString s = [] := hnil
    rw [hs] at h
    exact nomatch h
  have hlook : ((Lexer.new s).nextWhile isSpace).lookahead = opening o :: x := by
    rw [lookahead_nextWhile]
    exact h
  refine ⟨(Lexer.new s).nextWhile isSpace, rfl, hlook, ?_⟩
  rw [doParse, eatWs, heot]
  change (if ((Lexer.new s).nextWhile isSpace).peek = '\x7b' then _ else
    if ((Lexer.new s).nextWhile isSpace).peek = '[' then _ else _) = _
  rw [peek_of_cons hlook]
  cases o <;> rfl

/-- **What the parser accepts**, among the texts of the lenient grammar, and what it builds. -/
theorem doParse_outcome {s : List Char} (h : Reads lenient (cString s) f) (build : Bool) :
    Outcome (doParse s (if build then some new else none)) (f.AllAt (Accepts build) 0)
      (fun r => r.map tree = (if build then some new else none).map fun _ => f) := by
  obtain ⟨x, hc, w, t, hw, hd, hs⟩ := h
  obtain ⟨o, u, g, rfl, hitems, rfl⟩ := hd.container_shape hc
  have hfront : (cString s).dropWhile isSpace = opening o :: (u ++ closing o :: x) := by
    have hstop : Stops isSpace (opening o :: (u ++ closing o :: x)) :=
      stops_cons.mpr (isSpace_opening o)
    rw [hs, dropWhile_append (p := isSpace) hw, List.cons_append, List.append_assoc]
    exact hstop.dropWhile
  obtain ⟨l, hl, hlook, hparse⟩ := @doParse_eq (if build then some new else none) o _ s hfront
  have hlen : u.length ≤ l.slen := by
    have hle := @lookahead_length_le l
    rw [hlook] at hle
    simp only [List.length_cons, List.length_append] at hle
    omega
  rw [hparse]
  have hgood : (if build then some new else none : Option Json).isSome = build := by
    cases build <;> rfl
  have hout := container_outcome (symSpec hitems) hlen hlook (fresh_root build) List.not_mem_nil
  rw [Good, hgood] at hout
  refine (hout.bind ?_).congr (and_true _).to_iff
  rintro - p ⟨-, -, hbuilt⟩
  exact Outcome.pure hbuilt

/-- The parser accepts texts of the code's grammar only. -/
theorem doParse_sound {s : List Char} {r : Option Json} (h : doParse s jo = .ok r) :
    ∃ f, Reads code (cString s) f := by
  obtain ⟨w, hw, hs⟩ := exists_front isSpace (cString s)
  suffices hopen : ∃ o x, (cString s).dropWhile isSpace = opening o :: x by
    obtain ⟨o, x, hfront⟩ := hopen
    obtain ⟨l, -, hlook, hparse⟩ := @doParse_eq jo o x s hfront
    rw [hparse] at h
    obtain ⟨⟨l', jo'⟩, hm, -⟩ := bind_eq_ok.mp h
    obtain ⟨t, f, y, hl, hd, -, -⟩ := container_sound (valueSound _) hm
    refine ⟨_, y, by cases o <;> rfl, w, _, hw, .container (k := []) hd, ?_⟩
    rw [hs, hfront, ← hlook, hl]
    simp
  rw [doParse, eatWs] at h
  split at h
  · next hws =>
    split at hws
    · cases h
    · cases hws
  · next l hws =>
    split at hws
    · cases hws
    · obtain ⟨-, rfl⟩ := Prod.mk.inj hws
      have hlook : ((Lexer.new s).nextWhile isSpace).lookahead = (cString s).dropWhile isSpace :=
        lookahead_nextWhile isSpace
      split at h
      · next hpeek =>
        obtain ⟨x, hx⟩ := exists_cons hpeek (by decide)
        exact ⟨true, x, hlook.symm.trans hx⟩
      · split at h
        · next hpeek =>
          obtain ⟨x, hx⟩ := exists_cons hpeek (by decide)
          exact ⟨false, x, hlook.symm.trans hx⟩
        · cases h

/-- **Decoding a text of the lenient grammar** succeeds exactly if its elements are acceptable, and
then gives the tree that the text denotes. -/
theorem decode_outcome {s : List Char} (h : Reads lenient (cString s) f) :
    Outcome (decode s) (f.AllAt (Accepts true) 0) (fun jo => jo.tree = f) := by
  refine ((doParse_outcome h true).bind ?_).congr (and_true _).to_iff
  rintro - r hr
  obtain ⟨j, rfl, hj⟩ := Option.map_eq_some_iff.mp (show r.map tree = some f from hr)
  exact Outcome.pure hj

/-- **Validating a text of the lenient grammar** succeeds exactly if no element has a DEL in it. -/
theorem validate_outcome {s : List Char} (h : Reads lenient (cString s) f) :
    Outcome (validate s) (f.AllAt (Accepts false) 0) (fun _ => True) := by
  refine ((doParse_outcome h false).bind ?_).congr (and_true _).to_iff
  rintro - r -
  exact Outcome.pure trivial

/-- What is decoded is the tree of a text of the code's grammar, with acceptable elements. -/
theorem decode_sound {s : List Char} {jo : Json} (h : decode s = .ok jo) :
    Reads code (cString s) jo.tree ∧ jo.tree.AllAt (Accepts true) 0 := by
  obtain ⟨r, hr, -⟩ := bind_eq_ok.mp h
  obtain ⟨f, hf⟩ := doParse_sound hr
  have hout := decode_outcome (hf.mono code_le_lenient)
  rw [hout.post h]
  exact ⟨hf, hout.good jo h⟩

/-- What is validated is a text of the code's grammar. -/
theorem validate_sound {s : List Char} (h : validate s = .ok ()) :
    ∃ f, Reads code (cString s) f := by
  obtain ⟨r, hr, -⟩ := bind_eq_ok.mp h
  exact doParse_sound hr

end Libu.Json
