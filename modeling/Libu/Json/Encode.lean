/-
# The encoder against the decoder

What the encoder writes for a tree is a text of the grammar that denotes the tree, when the names
and lexemes of the tree are those of a text (`Lexemes`) and every member of an object has a name
(`Named`); the encoder leaves out an empty name.  §1 and §2 prove this, §3 counts quotes to show
that an unnamed member is lost.  From these:

* §4: decoding, encoding and decoding again gives the same tree, exactly for the texts without an
  empty member name (`round_trip_iff`).
* §5: a tree built with the constructors is encoded to a text that decodes to it, exactly when it is
  a container without name, not nested too deep, whose keys and values are lexemes
  (`built_round_trip_iff`).  The constructors check a prefix of a value, and no key.
-/
import Libu.Json.Accept

namespace Libu.Json

open Verif Lexer

variable {s t x : List Char} {f : Forest JsonItem} {o : Bool} {D : Dialect}

/-! ## 1. Trees that a text can denote -/

/-- The nodes of `f`, the children of an object or of an array, have the parts their types call
for. -/
def Shaped : Bool → Forest JsonItem → Prop
  | _, .nil => True
  | o, .node i c s =>
    (o = false → i.key = []) ∧
    (match i.type with
      | .string | .number => c = .nil
      | .true | .false | .null => i.val = [] ∧ c = .nil
      | .object => i.val = [] ∧ Shaped true c
      | .array => i.val = [] ∧ Shaped false c
      | .unknown => False) ∧
    Shaped o s

/-- The name and the value of a node are lexemes: what a text could have between its quotes, or a
number. -/
def LexItem (plain : Char → Bool) (_ : Nat) (i : JsonItem) : Prop :=
  Chars plain i.key ∧ (i.type = .string → Chars plain i.val) ∧ (i.type = .number → Number i.val)

/-- All names and values of a tree are lexemes. -/
def Lexemes (plain : Char → Bool) (f : Forest JsonItem) : Prop := f.AllAt (LexItem plain) 0

/-- Every member of an object has a name that is not empty; the encoder leaves out an empty one. -/
def Named : Bool → Forest JsonItem → Prop
  | _, .nil => True
  | o, .node i c s => (o = true → i.key ≠ []) ∧ Named (i.type = .object) c ∧ Named o s

instance decidableNamed : ∀ o f, Decidable (Named o f)
  | _, .nil => .isTrue trivial
  | o, .node i c s =>
    have := decidableNamed (i.type = .object) c
    have := decidableNamed o s
    inferInstanceAs (Decidable ((o = true → i.key ≠ []) ∧ Named (i.type = .object) c ∧ Named o s))

/-- More children of the same kind keep the shape of a container. -/
theorem shaped_append : ∀ {f g : Forest JsonItem}, Shaped o f → Shaped o g → Shaped o (f.append g)
  | .nil, _, _, hg => hg
  | .node _ _ _, _, ⟨hk, hv, hs⟩, hg => ⟨hk, hv, shaped_append hs hg⟩

/-- Names are kept where children are added that have names. -/
theorem named_append : ∀ {f g : Forest JsonItem}, Named o (f.append g) ↔ Named o f ∧ Named o g
  | .nil, _ => by simp [Named]
  | .node i c s, g => by
    simp only [Forest.node_append, Named, named_append, and_assoc]

/-- The nodes of one tree, as a value without a name or as an entry of a container. -/
theorem shaped_single {i : JsonItem} {c : Forest JsonItem} (h : Shaped true (.node i c .nil))
    (hk : o = false → i.key = []) : Shaped o (.node i c .nil) := ⟨hk, h.2.1, trivial⟩

/-- What the names in the context of a nonterminal have to be. -/
def NameLex (plain : Char → Bool) : Sym → Prop
  | .value k => Chars plain k
  | _ => True

/-- What the elements of a nonterminal are shaped like. -/
def SymShaped : Sym → Forest JsonItem → Prop
  | .value _, f => Shaped true f
  | .entry o, f => Shaped o f
  | .items o, f => Shaped o f

/-- **What a text denotes is shaped, and its names and values are lexemes.** -/
theorem Derives.shaped {sym : Sym} (h : Derives D sym t f) : SymShaped sym f := by
  induction h with
  | string _ => exact ⟨fun h => (nomatch h), rfl, trivial⟩
  | number _ => exact ⟨fun h => (nomatch h), rfl, trivial⟩
  | @literal _ _ _ type hw _ =>
    refine ⟨fun h => (nomatch h), ?_, trivial⟩
    cases type with
    | true | false | null => exact ⟨rfl, rfl⟩
    | _ => exact nomatch hw
  | @container _ _ o _ _ ih =>
    refine ⟨fun h => (nomatch h), ?_, trivial⟩
    cases o <;> exact ⟨rfl, ih⟩
  | element hd ih =>
    obtain ⟨type, v, g, rfl⟩ := hd.value_shape
    exact shaped_single ih fun _ => rfl
  | member _ _ _ _ ih => exact ih
  | none _ => trivial
  | last _ _ _ ih => exact ih
  | more _ _ _ _ _ ih ih' => exact shaped_append ih ih'

/-- The names and values of a text are lexemes. -/
theorem Derives.lexemes {sym : Sym} (h : Derives D sym t f) :
    NameLex D.plain sym → ∀ d, f.AllAt (LexItem D.plain) d := by
  induction h with
  | string hv => exact fun hk d => ⟨⟨hk, fun _ => hv, fun h => (nomatch h)⟩, trivial, trivial⟩
  | number hv => exact fun hk d => ⟨⟨hk, fun h => (nomatch h), fun _ => hv⟩, trivial, trivial⟩
  | @literal _ _ _ type hw _ =>
    refine fun hk d => ⟨⟨hk, ?_, ?_⟩, trivial, trivial⟩ <;>
    · rintro rfl
      exact nomatch hw
  | @container _ _ o _ _ ih =>
    refine fun hk d => ⟨⟨hk, ?_, ?_⟩, ih trivial (d + 1), trivial⟩ <;>
    · intro htype
      cases o <;> exact nomatch htype
  | element _ ih => exact fun _ d => ih .nil d
  | member hk _ _ _ ih => exact fun _ d => ih hk d
  | none _ => exact fun _ _ => trivial
  | last _ _ _ ih => exact fun _ d => ih trivial d
  | more _ _ _ _ _ ih ih' => exact fun _ d => Forest.allAt_append.mpr ⟨ih trivial d, ih' trivial d⟩

/-! ## 2. What the encoder writes -/

/-- A node with its name, in its container, is written as an entry that denotes it. -/
theorem entry_derives {jo : JsonNode} {t : List Char} {g : Forest JsonItem}
    (hsp : D.space ' ' = true) (hval : Derives D (.value jo.key) t (.node jo.item g .nil))
    (hk : o = false → jo.key = []) (hchars : Chars D.plain jo.key) (hnamed : o =
      true → jo.key ≠ []) :
    Derives D (.entry o) (keyText jo ++ t) (.node jo.item g .nil) := by
  cases o with
  | false =>
    have hnil := hk rfl
    rw [keyText, if_neg (not_not.mpr hnil), List.nil_append]
    exact .element (hnil ▸ hval)
  | true =>
    rw [keyText, if_pos (hnamed rfl)]
    have hspace : AllIn D.space [' '] := allIn_cons.mpr ⟨hsp, allIn_nil⟩
    have hmember := Derives.member hchars allIn_nil hspace hval
    simpa using hmember

/-- The value of a node, given the text of its children. -/
theorem value_derives {jo : JsonNode} {c : Forest JsonNode} {inner : List Char}
    (hinner : doEncode c = some inner)
    (hv : Shaped true (.node jo.item (c.map JsonNode.item) .nil)) (hlex : LexItem D.plain 0 jo.item)
    (hchildren : ∀ o, jo.type = containerType o →
      Derives D (.items o) (' ' :: (inner ++ [' '])) (c.map JsonNode.item)) :
    ∃ value, openText jo = some value ∧ Derives D (.value jo.key) (value ++ inner ++ closeText jo)
      (.node jo.item (c.map JsonNode.item) .nil) := by
  obtain ⟨type, key, val, depth, count⟩ := jo
  obtain ⟨-, hv, -⟩ := hv
  have hleaf : c.map JsonNode.item = .nil → c = .nil ∧ inner = [] := by
    intro hc
    obtain rfl := Forest.map_eq_nil.mp hc
    exact ⟨rfl, (Option.some.inj hinner).symm⟩
  cases type with
  | string =>
    obtain ⟨rfl, rfl⟩ := hleaf hv
    refine ⟨_, rfl, ?_⟩
    have hd := @Derives.string D key val (hlex.2.1 rfl)
    simpa [closeText, JsonNode.item] using hd
  | number =>
    obtain ⟨rfl, rfl⟩ := hleaf hv
    refine ⟨_, rfl, ?_⟩
    have hd := @Derives.number D key val (hlex.2.2 rfl)
    simpa [closeText, JsonNode.item] using hd
  | true | false | null =>
    obtain ⟨hval, hc⟩ := hv
    obtain ⟨rfl, rfl⟩ := hleaf hc
    obtain rfl : val = [] := hval
    exact ⟨_, rfl, .literal rfl (spelled_self (by simp))⟩
  | object =>
    obtain rfl : val = [] := hv.1
    refine ⟨_, rfl, ?_⟩
    have hd := Derives.container (k := key) (hchildren true rfl)
    simpa [closeText, opening, closing, containerType, JsonNode.item] using hd
  | array =>
    obtain rfl : val = [] := hv.1
    refine ⟨_, rfl, ?_⟩
    have hd := Derives.container (k := key) (hchildren false rfl)
    simpa [closeText, opening, closing, containerType, JsonNode.item] using hd
  | unknown => exact absurd hv id

/-- The children of a container are shaped as its type says. -/
theorem shaped_children {i : JsonItem} {c s : Forest JsonItem} {o' : Bool}
    (h : Shaped o (.node i c s)) (htype : i.type = containerType o') : Shaped o' c := by
  obtain ⟨type, key, val⟩ := i
  obtain rfl : type = containerType o' := htype
  cases o' <;> exact h.2.1.2

/-- The type of a container says which it is. -/
theorem containerType_object (o : Bool) : (containerType o = .object : Bool) = o := by
  cases o <;> rfl

/-- A node that is no container has no children. -/
theorem children_eq_nil {i : JsonItem} {c s : Forest JsonItem} (h : Shaped o (.node i c s))
    (htype : ∀ o', i.type ≠ containerType o') : c = .nil := by
  obtain ⟨type, key, val⟩ := i
  obtain ⟨-, hv, -⟩ := h
  cases type with
  | string | number => exact hv
  | true | false | null => exact hv.2
  | object => exact absurd rfl (htype true)
  | array => exact absurd rfl (htype false)
  | unknown => exact absurd hv id

/-- The two types of containers are different. -/
theorem containerType_inj {o' : Bool} (h : containerType o = containerType o') : o = o' := by
  revert h
  cases o <;> cases o' <;> decide

/-- The value of a node, when its children are encoded to texts of the grammar. -/
theorem node_derives {jo : JsonNode} {c : Forest JsonNode}
    (hshape : Shaped true (.node jo.item (c.map JsonNode.item) .nil))
    (hlex : LexItem D.plain 0 jo.item)
    (hnamed : Named false (.node jo.item (c.map JsonNode.item) .nil))
    (hchildren : ∀ o, Shaped o (c.map JsonNode.item) → Named o (c.map JsonNode.item) →
      ∃ t, doEncode c = some t ∧
        Derives D (.items o) (' ' :: (t ++ [' '])) (c.map JsonNode.item)) :
    ∃ value inner, openText jo = some value ∧ doEncode c = some inner ∧
      Derives D (.value jo.key) (value ++ inner ++ closeText jo)
        (.node jo.item (c.map JsonNode.item) .nil) := by
  by_cases htype : ∃ o, jo.type = containerType o
  · obtain ⟨o, htype⟩ := htype
    have hnamed' : Named o (c.map JsonNode.item) := by
      have hobject := hnamed.2.1
      have htype' : jo.item.type = containerType o := htype
      rw [htype', containerType_object] at hobject
      exact hobject
    obtain ⟨inner, hinner, hd⟩ := hchildren o (shaped_children hshape htype) hnamed'
    obtain ⟨value, hopen, hval⟩ := value_derives hinner hshape hlex fun o' htype' =>
      containerType_inj (htype.symm.trans htype') ▸ hd
    exact ⟨value, inner, hopen, hinner, hval⟩
  · have hnil := @children_eq_nil _ jo.item _ _ hshape fun o h => htype ⟨o, h⟩
    obtain rfl := Forest.map_eq_nil.mp hnil
    have hinner : doEncode .nil = some [] := rfl
    obtain ⟨value, hopen, hval⟩ := value_derives hinner hshape hlex fun o h => absurd ⟨o, h⟩ htype
    exact ⟨value, [], hopen, rfl, hval⟩

/-- **What the encoder writes is a text of the grammar that denotes the nodes.** -/
theorem doEncode_derives (hsp : D.space ' ' = true) : ∀ {f : Forest JsonNode} {o : Bool} {d : Nat},
    Shaped o (f.map JsonNode.item) → (f.map JsonNode.item).AllAt (LexItem D.plain) d →
    Named o (f.map JsonNode.item) → ∃ t, doEncode f = some t ∧
      Derives D (.items o) (' ' :: (t ++ [' '])) (f.map JsonNode.item)
  | .nil, _, _, _, _, _ =>
    ⟨[], rfl, .none (allIn_cons.mpr ⟨hsp, allIn_cons.mpr ⟨hsp, allIn_nil⟩⟩)⟩
  | .node jo c s, o, d, hshape, ⟨hlex, hlexc, hlexs⟩, hnamed => by
    have hsp1 : AllIn D.space [' '] := allIn_cons.mpr ⟨hsp, allIn_nil⟩
    obtain ⟨next, hnext, hds⟩ := doEncode_derives hsp hshape.2.2 hlexs hnamed.2.2
    obtain ⟨value, inner, hopen, hinner, hval⟩ := node_derives
      ⟨fun h => (nomatch h), hshape.2.1, trivial⟩ hlex ⟨fun h => (nomatch h), hnamed.2.1, trivial⟩
      fun o' hshape' hnamed' => doEncode_derives (f := c) hsp hshape' hlexc hnamed'
    have hentry := entry_derives hsp hval hshape.1 hlex.1 hnamed.1
    have henc : doEncode (.node jo c s) = some (keyText jo ++ value ++ inner ++ closeText jo ++
        (if s ≠ .nil then [',', ' '] else []) ++ next) := by
      rw [doEncode, hopen, hinner, hnext]
      rfl
    refine ⟨_, henc, ?_⟩
    by_cases hs : s = .nil
    · subst hs
      obtain rfl : next = [] := (Option.some.inj hnext).symm
      have hlast := Derives.last hsp1 hentry hsp1
      simpa using hlast
    · have hmore := Derives.more hsp1 hentry allIn_nil hds fun hnil => absurd
        (Forest.map_eq_nil.mp hnil) hs
      simpa [hs] using hmore

/-- **The text of a tree without a name denotes it**: with a blank for white space it is one of the
dialect. -/
theorem encode_derives (hsp : D.space ' ' = true) {jo : Json} (hk : jo.key = [])
    (hshape : Shaped true jo.tree) (hlex : Lexemes D.plain jo.tree) (hn : Named false jo.tree) :
    ∃ t, encode jo = some t ∧ Derives D (.value []) t jo.tree := by
  obtain ⟨value, inner, hopen, hinner, hval⟩ := @node_derives _ jo.toJsonNode _ hshape hlex.1 hn
    fun o hshape' hnamed' => doEncode_derives (f := jo.children) hsp hshape' hlex.2.1 hnamed'
  refine ⟨value ++ inner ++ closeText jo.toJsonNode, ?_, hk ▸ hval⟩
  rw [encode, root, doEncode, hopen, hinner]
  simp [doEncode, keyText, hk]

/-! ## 3. Characters of the encoded text -/

/-- A character that is neither plain nor part of an escape is in no string. -/
theorem Chars.not_mem {plain : Char → Bool} {b : Char} (hplain : plain b = false)
    (hesc : b ∉ '\\' :: 'u' :: escapes) (hhex : isXDigit b = false) {v : List Char}
    (hv : Chars plain v) : b ∉ v := by
  simp only [List.mem_cons, not_or] at hesc
  obtain ⟨hback, hu, hesc⟩ := hesc
  induction hv with
  | nil => exact List.not_mem_nil
  | plain hc _ ih =>
    rw [List.mem_cons, not_or]
    refine ⟨?_, ih⟩
    rintro rfl
    rw [hc] at hplain
    exact nomatch hplain
  | escape hc _ ih =>
    rw [List.mem_cons, List.mem_cons, not_or, not_or]
    refine ⟨hback, ?_, ih⟩
    rintro rfl
    exact hesc hc
  | unicode _ hds _ ih =>
    simp only [List.mem_cons, List.mem_append, not_or]
    exact ⟨hback, hu, not_mem_of_allIn hds hhex, ih⟩

/-- A character of no lexeme is in no element. -/
theorem Derives.lacks {b : Char} (hplain : D.plain b = false) (hesc : b ∉ '\\' :: 'u' :: escapes)
    (hhex : isXDigit b = false) (hnum : numberChar b = false) {sym : Sym} (h : Derives D sym t f) :
    NameLacks b sym → ∀ d, f.AllAt (Lacks b) d := by
  have hchars : ∀ {v : List Char}, Chars D.plain v → b ∉ v := fun hv =>
    hv.not_mem hplain hesc hhex
  induction h with
  | string hv => exact fun hk d => ⟨⟨hk, hchars hv⟩, trivial, trivial⟩
  | number hv => exact fun hk d => ⟨⟨hk, not_mem_of_allIn hv.chars hnum⟩, trivial, trivial⟩
  | literal _ _ => exact fun hk d => ⟨⟨hk, List.not_mem_nil⟩, trivial, trivial⟩
  | container _ ih => exact fun hk d => ⟨⟨hk, List.not_mem_nil⟩, ih trivial (d + 1), trivial⟩
  | element _ ih => exact fun _ d => ih List.not_mem_nil d
  | member hk _ _ _ ih => exact fun _ d => ih (hchars hk) d
  | none _ => exact fun _ _ => trivial
  | last _ _ _ ih => exact fun _ d => ih trivial d
  | more _ _ _ _ _ ih ih' => exact fun _ d => Forest.allAt_append.mpr ⟨ih trivial d, ih' trivial d⟩

/-- A text of the code's grammar has no DEL in a string. -/
theorem Derives.clean (h : Derives code (.value []) t f) : Clean f :=
  h.lacks (by decide) (by decide) (by decide) (by decide) List.not_mem_nil 0

/-- A text of the grammar is a C string: no NUL is in it. -/
theorem Derives.cString (h : Derives code (.value []) t f) : cString t = t := by
  have hforeign : Foreign '\x00' := foreign_of_not_mem (by decide) (by decide) (by decide)
  have hlacks := h.lacks (b := '\x00') (by decide) (by decide) (by decide) (by decide)
    List.not_mem_nil 0
  have hnul := (lacks_iff hforeign code_le_lenient h List.not_mem_nil 0).mp hlacks
  refine List.takeWhile_eq_self_iff.mpr fun c hc => decide_eq_true ?_
  rintro rfl
  exact hnul hc

/-- **A tree that a text can denote is decoded from its own text.** -/
theorem decode_encode {jo : Json} (hk : jo.key = []) (hc : isContainer jo.type = true)
    (hshape : Shaped true jo.tree) (hlex : Lexemes codePlain jo.tree) (hn : Named false jo.tree)
    (hdeep : Shallow jo.tree) (hshort : Short jo.tree) :
    ∃ t jo', encode jo = some t ∧ decode t = .ok jo' ∧ jo'.tree = jo.tree := by
  obtain ⟨t, henc, hd⟩ := encode_derives (D := code) rfl hk hshape hlex hn
  have hreads : Reads code (Libu.cString t) jo.tree :=
    ⟨[], hc, [], t, allIn_nil, hd, by rw [hd.cString]; simp⟩
  obtain ⟨jo', hdec, htree⟩ := (decode_outcome (hreads.mono code_le_lenient)).ok
    (accepts_true.mpr ⟨hd.clean, hdeep, hshort⟩)
  exact ⟨t, jo', henc, hdec, htree⟩

/-- The quotes in the text of the nodes of `f`, when every member has its name written out. -/
def quotes : Bool → Forest JsonItem → Nat
  | _, .nil => 0
  | o, .node i c s =>
    (if o then 2 + i.key.count '"' else 0) + (if i.type = .string then 2 + i.val.count '"' else 0) +
      quotes (i.type = .object) c + quotes o s

/-- The quotes of two forests are added. -/
theorem quotes_append : ∀ f g : Forest JsonItem, quotes o (f.append g) = quotes o f + quotes o g
  | .nil, g => by simp [quotes]
  | .node i c s, g => by simp [quotes, quotes_append s g, Nat.add_assoc]

/-- The quotes that the text of a nonterminal has. -/
def SymQuotes : Sym → Forest JsonItem → Nat
  | .value _, f => quotes false f
  | .entry o, f => quotes o f
  | .items o, f => quotes o f

/-- A class without the quote. -/
theorem count_of_allIn {p : Char → Bool} {w : List Char} (h : AllIn p w) (hp : p '"' = false) :
    w.count '"' = 0 := List.count_eq_zero.mpr (not_mem_of_allIn h hp)

/-- The quotes of a text are those of its strings and of its names, in which each quote is escaped.
-/
theorem Derives.count_quotes (hle : D.Le lenient) {sym : Sym} (h : Derives D sym t f) :
    t.count '"' = SymQuotes sym f := by
  have hspace : ∀ {w : List Char}, AllIn D.space w → w.count '"' = 0 := fun hw =>
    count_of_allIn (fun c hc => hle.space c (hw c hc)) (by decide)
  induction h with
  | string _ =>
    simp only [List.count_cons_self, List.count_append, SymQuotes, quotes]
    simp
    omega
  | number hv => simpa [SymQuotes, quotes] using count_of_allIn hv.chars (by decide)
  | @literal _ w t type hw ht =>
    have hnot : '"' ∉ t := by
      refine not_mem_spelled (by decide) hle ht ?_
      cases type with
      | true | false | null =>
        obtain rfl := Option.some.inj hw
        decide
      | _ => exact nomatch hw
    cases type with
    | true | false | null => simp [SymQuotes, quotes, List.count_eq_zero.mpr hnot]
    | _ => exact nomatch hw
  | @container _ t o f _ ih =>
    replace ih : t.count '"' = quotes o f := ih
    cases o <;> simp [SymQuotes, quotes, containerType, opening, closing, ih]
  | element _ ih => exact ih
  | @member k w w' t f _ hw hw' hd ih =>
    replace ih : t.count '"' = quotes false f := ih
    obtain ⟨type, v, g, rfl⟩ := hd.value_shape
    simp only [List.count_cons, List.count_append, ih, hspace hw, hspace hw', SymQuotes, quotes]
    simp
    omega
  | none hw => exact hspace hw
  | @last o w t w' f hw _ hw' ih =>
    replace ih : t.count '"' = quotes o f := ih
    simp [SymQuotes, hspace hw, hspace hw', ih]
  | @more o w t w' t' f g hw _ hw' _ _ ih ih' =>
    replace ih : t.count '"' = quotes o f := ih
    replace ih' : t'.count '"' = quotes o g := ih'
    simp [SymQuotes, quotes_append, hspace hw, hspace hw', ih, ih']

/-- The members of objects without a name, of which the encoder leaves out two quotes each. -/
def unnamed : Bool → Forest JsonItem → Nat
  | _, .nil => 0
  | o, .node i c s =>
    (if o = true ∧ i.key = [] then 1 else 0) + unnamed (i.type = .object) c + unnamed o s

/-- All members have a name exactly if there is none without. -/
theorem named_iff : ∀ {o : Bool} {f : Forest JsonItem}, Named o f ↔ unnamed o f = 0
  | _, .nil => ⟨fun _ => rfl, fun _ => trivial⟩
  | o, .node i c s => by
    simp only [Named, unnamed, Nat.add_eq_zero_iff, named_iff (f := c), named_iff (f := s),
      and_assoc]
    refine and_congr_left fun _ => ?_
    simp

/-- The quotes around and in a value. -/
theorem count_openText {jo : JsonNode} {value : List Char} (hopen : openText jo = some value)
    (hlex : LexItem codePlain 0 jo.item) :
    value.count '"' + (closeText jo).count '"' =
      if jo.item.type = .string then 2 + jo.item.val.count '"' else 0 := by
  obtain ⟨type, key, val, depth, count⟩ := jo
  cases type with
  | string =>
    obtain rfl := Option.some.inj hopen
    simp only [closeText, JsonNode.item, List.count_cons_self, List.count_append]
    simp
    omega
  | number =>
    obtain rfl := Option.some.inj hopen
    have hval : val.count '"' = 0 := count_of_allIn (hlex.2.2 rfl).chars (by decide)
    simpa [closeText, JsonNode.item] using hval
  | object | array | true | false | null =>
    obtain rfl := Option.some.inj hopen
    rfl
  | unknown => exact nomatch hopen

/-- The quotes around and in a name, or none where the name is left out. -/
theorem count_keyText (o : Bool) (jo : JsonNode) (hk : o = false → jo.key = []) :
    (keyText jo).count '"' + 2 * (if o = true ∧ jo.item.key = [] then 1 else 0) =
      if o then 2 + jo.item.key.count '"' else 0 := by
  by_cases hkey : jo.key = []
  · cases o <;> simp [keyText, JsonNode.item, hkey]
  · cases o with
    | false => exact absurd (hk rfl) hkey
    | true =>
      simp only [keyText, JsonNode.item, if_pos hkey, List.count_cons_self, List.count_append]
      simp [hkey]
      omega

/-- **The encoder loses the quotes of the unnamed members, and no others.** -/
theorem doEncode_quotes : ∀ {f : Forest JsonNode} {o : Bool} {d : Nat} {t : List Char},
    Shaped o (f.map JsonNode.item) → (f.map JsonNode.item).AllAt (LexItem codePlain) d →
    doEncode f = some t →
    t.count '"' + 2 * unnamed o (f.map JsonNode.item) = quotes o (f.map JsonNode.item)
  | .nil, _, _, _, _, _, henc => by
    obtain rfl := Option.some.inj henc
    rfl
  | .node jo c s, o, d, t, hshape, ⟨hlex, hlexc, hlexs⟩, henc => by
    simp only [doEncode, Option.bind_eq_bind, Option.bind_eq_some_iff] at henc
    obtain ⟨value, hopen, inner, hinner, next, hnext, henc⟩ := henc
    obtain rfl := Option.some.inj henc
    have hchildren : inner.count '"' +
        2 * unnamed (jo.item.type = .object) (c.map JsonNode.item) =
          quotes (jo.item.type = .object) (c.map JsonNode.item) := by
      refine doEncode_quotes ?_ hlexc hinner
      by_cases htype : ∃ o', jo.item.type = containerType o'
      · obtain ⟨o', htype⟩ := htype
        rw [htype, containerType_object]
        exact shaped_children hshape htype
      · rw [children_eq_nil hshape fun o' h => htype ⟨o', h⟩]
        trivial
    have hsiblings := doEncode_quotes hshape.2.2 hlexs hnext
    have hvalue := count_openText hopen hlex
    have hkey := count_keyText o jo hshape.1
    have hcomma : (if s ≠ .nil then [',', ' '] else []).count '"' = 0 := by
      split <;> rfl
    simp only [List.count_append, Forest.map_node, unnamed, quotes, hcomma]
    omega

/-! ## 4. Decoding, encoding and decoding again -/

/-- A tree that decodes from the text it is encoded to has no unnamed member. -/
theorem named_of_round_trip {jo : Json} {t : List Char} {jo' : Json}
    (hshape : Shaped false jo.tree) (hlex : Lexemes codePlain jo.tree) (henc : encode jo = some t)
    (hdec : decode t = .ok jo') (htree : jo'.tree = jo.tree) : Named false jo.tree := by
  obtain ⟨⟨x, hread⟩, -⟩ := decode_sound hdec
  obtain ⟨w, u, hw, hd, hs⟩ := hread.derives
  have hu : u.count '"' = quotes false jo.tree := htree ▸ hd.count_quotes code_le_lenient
  have hle : u.count '"' ≤ t.count '"' := by
    have hfront : (cString t).Sublist t := (List.takeWhile_prefix _).sublist
    refine Nat.le_trans ?_ (hfront.count_le '"')
    rw [hs, List.count_append, List.count_append]
    omega
  have hquotes := doEncode_quotes hshape hlex henc
  change t.count '"' + 2 * unnamed false jo.tree = quotes false jo.tree at hquotes
  refine named_iff.mpr ?_
  omega

/-- **The round trip.**  A text that is decoded is encoded to a text that decodes to the same tree,
exactly when no member of an object in it has the empty name. -/
theorem round_trip_iff {s : List Char} {jo : Json} (h : decode s = .ok jo) :
    (∃ t jo', encode jo = some t ∧ decode t = .ok jo' ∧ jo'.tree = jo.tree) ↔
      ∀ f, Reads code (cString s) f → Named false f := by
  obtain ⟨hreads, hgood⟩ := decode_sound h
  obtain ⟨-, hdeep, hshort⟩ := accepts_true.mp hgood
  obtain ⟨x, hcontainer, w, u, -, hd, -⟩ := id hreads
  have hk : jo.key = [] := by
    obtain ⟨type, v, g, htree⟩ := hd.value_shape
    exact congrArg JsonItem.key (Forest.node.inj htree).1
  have hshape : Shaped true jo.tree := hd.shaped
  have hlex : Lexemes codePlain jo.tree := hd.lexemes .nil 0
  constructor
  · rintro ⟨t, jo', henc, hdec, htree⟩ f hf
    rw [← reads_unique h (hf.mono code_le_lenient)]
    exact named_of_round_trip ⟨fun _ => hk, hshape.2⟩ hlex henc hdec htree
  · exact fun hnamed => decode_encode hk hcontainer hshape hlex (hnamed _ hreads) hdeep hshort

theorem round_trip_iff_sample :
    (∃ t jo', encode sampleTree = some t ∧ decode t = .ok jo' ∧ jo'.tree = sampleTree.tree) ↔
      ∀ f, Reads code (cString sampleText) f → Named false f :=
  round_trip_iff decode_sampleText

/-- `{"":1}` is encoded to `{ 1 }`, which is not decoded. -/
theorem round_trip_unnamed :
    ∃ jo, decode ['\x7b', '"', '"', ':', '1', '\x7d'] = .ok jo ∧
      ¬ ∃ t jo', encode jo = some t ∧ decode t = .ok jo' ∧ jo'.tree = jo.tree := by
  refine ⟨⟨⟨.object, [], [], 0, 0⟩, .node ⟨.number, [], ['1'], 1, 0⟩ .nil .nil⟩, rfl, ?_⟩
  rintro ⟨t, jo', henc, hdec, -⟩
  obtain rfl : ['\x7b', ' ', '1', ' ', '\x7d'] = t := Option.some.inj henc
  have hfail : ∀ jo', decode ['\x7b', ' ', '1', ' ', '\x7d'] ≠ .ok jo' :=
    fun _ hok => nomatch hok
  exact hfail jo' hdec

/-! ## 5. Trees built with the constructors -/

/-- A member of an object has a name, an element of an array has none. -/
def Fits (head : JsonNode) (jo : Json) : Prop :=
  (head.type = .object → jo.key ≠ []) ∧ (head.type = .array → jo.key = [])

/-- `f'` is `f` after `jo` is added to one of its nodes, which `u_json_add` allows. -/
inductive AddsTo (jo : Json) : Forest JsonNode → Forest JsonNode → Prop
  | here {head : JsonNode} {c s : Forest JsonNode} {head' : Json} :
      Fits head jo → (Json.mk head c).add jo = some head' →
      AddsTo jo (.node head c s) (.node head'.toJsonNode head'.children s)
  | child {a : JsonNode} {c c' s : Forest JsonNode} :
      AddsTo jo c c' → AddsTo jo (.node a c s) (.node a c' s)
  | sibling {a : JsonNode} {c s s' : Forest JsonNode} :
      AddsTo jo s s' → AddsTo jo (.node a c s) (.node a c s')

/-- The trees built with successful calls of the constructors and of `add`. -/
inductive Built : Json → Prop
  | array {key : Option (List Char)} {jo : Json} : newArray key = some jo → Built jo
  | object {key : Option (List Char)} {jo : Json} : newObject key = some jo → Built jo
  | string {key val : Option (List Char)} {jo : Json} : newString key val = some jo → Built jo
  | number {key val : Option (List Char)} {jo : Json} : newNumber key val = some jo → Built jo
  | real {key : Option (List Char)} {sval : List Char} {jo : Json} :
      Number sval → newReal key sval = some jo → Built jo
  | int {key : Option (List Char)} {val : Int} {jo : Json} : newInt key val = some jo → Built jo
  | null {key : Option (List Char)} {jo : Json} : newNull key = some jo → Built jo
  | bool {key : Option (List Char)} {val : Bool} {jo : Json} : newBool key val = some jo → Built jo
  | add {head jo head' : Json} : Built head → Built jo →
    AddsTo jo head.root head'.root → Built head'

/-- A tree with the shape and the names the encoder relies on. -/
structure WellBuilt (jo : Json) : Prop where
  shaped : Shaped true jo.tree
  named : Named false jo.tree

/-- A new container is well built. -/
theorem newContainer_wellBuilt {key : Option (List Char)} {jo : Json} (o : Bool)
    (h : newContainer (containerType o) key = some jo) : WellBuilt jo := by
  simp only [newContainer, setKey, strlcpy, Option.bind_eq_bind, Option.bind_eq_some_iff] at h
  obtain ⟨k, -, h⟩ := h
  obtain rfl := Option.some.inj h
  refine ⟨⟨(absurd · (by decide)), ?_, trivial⟩, (absurd · (by decide)), trivial, trivial⟩
  cases o <;> exact ⟨rfl, trivial⟩

/-- The types of atoms that have a value of their own. -/
def hasVal (type : JsonType) : Bool := type = .string || type = .number

/-- Setting the value of an atom changes nothing else in the tree. -/
theorem setVal_tree {jo jo' : Json} {val : List Char} (hv : hasVal jo.type = true)
    (h : jo.setVal val = some jo') : jo' = { jo with val } := by
  obtain ⟨⟨type, key, v, depth, count⟩, children⟩ := jo
  cases type with
  | string | number =>
    simp only [setVal, strlcpy, Option.bind_eq_bind, Option.bind_eq_some_iff] at h
    obtain ⟨k, hk, h⟩ := h
    obtain rfl := Option.some.inj h
    split at hk
    · rw [Option.some.inj hk]
    · cases hk
  | _ => cases hv

/-- Setting the value of such an atom, with the check, changes nothing else. -/
theorem setValChecked_tree {jo jo' : Json} {val : List Char} (hv : hasVal jo.type = true)
    (h : jo.setValChecked val = some jo') : jo' = { jo with val } := by
  refine setVal_tree hv ?_
  obtain ⟨⟨type, key, v, depth, count⟩, children⟩ := jo
  cases type with
  | string | number =>
    simp only [setValChecked] at h
    split at h
    · exact h
    · exact nomatch h
  | _ => exact nomatch hv

/-- What `u_json_new_atom` makes: one node with its type, its name, and a value if the type has one.
-/
theorem newAtom_eq {type : JsonType} {key val : Option (List Char)} {check : Bool} {jo : Json}
    (h : newAtom type key val check = some jo) :
    ∃ k v, jo = ⟨⟨type, k, v, 0, 0⟩, .nil⟩ ∧ (hasVal type = false → v = []) := by
  simp only [newAtom, setKey, Option.bind_eq_bind, Option.bind_eq_some_iff] at h
  obtain ⟨j, ⟨k, -, hj⟩, h⟩ := h
  obtain rfl := Option.some.inj hj
  cases type with
  | string | number =>
    obtain ⟨v, -, h⟩ := Option.bind_eq_some_iff.mp h
    refine ⟨k, v, ?_, (absurd · (by decide))⟩
    cases check with
    | false =>
      rw [if_neg (by decide)] at h
      exact setVal_tree rfl h
    | true =>
      rw [if_pos rfl] at h
      exact setValChecked_tree rfl h
  | _ => exact ⟨k, [], (Option.some.inj h).symm, fun _ => rfl⟩

/-- A new atom is well built. -/
theorem newAtom_wellBuilt {type : JsonType} {key val : Option (List Char)}
    {check : Bool} {jo : Json} (htype : type ∉ [JsonType.unknown, .object, .array])
    (h : newAtom type key val check = some jo) : WellBuilt jo := by
  obtain ⟨k, v, rfl, hv⟩ := newAtom_eq h
  refine ⟨⟨fun h => (nomatch h), ?_, trivial⟩, fun h => (nomatch h), trivial, trivial⟩
  cases type with
  | string | number => rfl
  | true | false | null => exact ⟨hv rfl, rfl⟩
  | _ => exact absurd (by decide) htype

/-- A container with other children of the same kind. -/
theorem shaped_with {i : JsonItem} {c c' s : Forest JsonItem} {p : Bool}
    (h : Shaped o (.node i c s)) (htype : i.type = containerType p) (hc : Shaped p c') :
    Shaped o (.node i c' s) := by
  obtain ⟨type, key, val⟩ := i
  obtain rfl : type = containerType p := htype
  refine ⟨h.1, ?_, h.2.2⟩
  cases p <;> exact ⟨h.2.1.1, hc⟩

/-- What the names in a container are, given its type. -/
theorem named_children {i : JsonItem} {c s : Forest JsonItem} {p : Bool}
    (htype : i.type = containerType p) :
    Named o (.node i c s) ↔ (o = true → i.key ≠ []) ∧ Named p c ∧ Named o s := by
  rw [Named, htype, containerType_object]

/-- Each type of container is one of the two. -/
theorem containerType_of_isContainer {type : JsonType} (h : isContainer type = true) :
    ∃ p, type = containerType p := by
  simp only [isContainer, Bool.or_eq_true, decide_eq_true_eq] at h
  rcases h with h | h
  · exact ⟨true, h⟩
  · exact ⟨false, h⟩

/-- One addition keeps the shape and the names. -/
theorem AddsTo.wellBuilt {jo : Json} (hjo : WellBuilt jo) {g g' : Forest JsonNode}
    (h : AddsTo jo g g') : ∀ {o o' : Bool},
    Shaped o (g.map JsonNode.item) → Named o' (g.map JsonNode.item) →
      Shaped o (g'.map JsonNode.item) ∧ Named o' (g'.map JsonNode.item) := by
  induction h with
  | @here head c s head' hfits hadd =>
    intro o o' hshape hnamed
    rw [add] at hadd
    split at hadd
    · cases hadd
    · rename_i hc
      obtain rfl := Option.some.inj hadd
      obtain ⟨p, htype⟩ : ∃ p, head.type = containerType p :=
        containerType_of_isContainer (by simpa using hc)
      have hroot : Shaped p jo.tree ∧ Named p jo.tree := by
        cases p with
        | false => exact ⟨shaped_single hjo.shaped fun _ => hfits.2 htype, hjo.named⟩
        | true => exact ⟨hjo.shaped, fun _ => hfits.1 htype, hjo.named.2⟩
      have hn := (named_children htype).mp hnamed
      simp only [Forest.map_node, Forest.map_append]
      exact ⟨shaped_with hshape htype (shaped_append (shaped_children hshape htype) hroot.1),
        (named_children htype).mpr ⟨hn.1, named_append.mpr ⟨hn.2.1, hroot.2⟩, hn.2.2⟩⟩
  | @child a c c' s hadd ih =>
    intro o o' hshape hnamed
    have hcontainer : ∃ p, a.item.type = containerType p := by
      refine Classical.byContradiction fun hno => ?_
      have hnil := Forest.map_eq_nil.mp (children_eq_nil hshape fun p hp => hno ⟨p, hp⟩)
      subst hnil
      cases hadd
    obtain ⟨p, htype⟩ := hcontainer
    have hn := (named_children htype).mp hnamed
    obtain ⟨hs', hn'⟩ := ih (shaped_children hshape htype) hn.2.1
    exact ⟨shaped_with hshape htype hs', (named_children htype).mpr ⟨hn.1, hn', hn.2.2⟩⟩
  | sibling _ ih =>
    intro o o' hshape hnamed
    obtain ⟨hs, hn⟩ := ih hshape.2.2 hnamed.2.2
    exact ⟨⟨hshape.1, hshape.2.1, hs⟩, hnamed.1, hnamed.2.1, hn⟩

/-- **What the constructors build has the shape and the names the encoder relies on.** -/
theorem Built.wellBuilt {jo : Json} (h : Built jo) : WellBuilt jo := by
  induction h with
  | array h => exact newContainer_wellBuilt false h
  | object h => exact newContainer_wellBuilt true h
  | string h => exact newAtom_wellBuilt (by decide) h
  | number h => exact newAtom_wellBuilt (by decide) h
  | real _ h => exact newAtom_wellBuilt (by decide) h
  | int h => exact newAtom_wellBuilt (by decide) h
  | null h => exact newAtom_wellBuilt (by decide) h
  | @bool _ val _ h => exact newAtom_wellBuilt (by cases val <;> decide) h
  | add _ _ hadd ihHead ihJo =>
    obtain ⟨hs, hn⟩ := hadd.wellBuilt ihJo ihHead.shaped ihHead.named
    exact ⟨hs, hn⟩

/-- **Built trees.**  A tree built with the constructors is encoded to a text that decodes to it,
exactly when it is a container without a name, nests below the limit, and its names and values are
lexemes. -/
theorem built_round_trip_iff {jo : Json} (h : Built jo) (hshort : Short jo.tree) :
    (∃ t jo', encode jo = some t ∧ decode t = .ok jo' ∧ jo'.tree = jo.tree) ↔
      isContainer jo.type = true ∧ jo.key = [] ∧ Shallow jo.tree ∧ Lexemes codePlain jo.tree := by
  constructor
  · rintro ⟨t, jo', -, hdec, htree⟩
    obtain ⟨hreads, hgood⟩ := decode_sound hdec
    rw [htree] at hreads hgood
    obtain ⟨x, hcontainer, w, u, -, hd, -⟩ := hreads
    refine ⟨hcontainer, ?_, (accepts_true.mp hgood).2.1, hd.lexemes .nil 0⟩
    obtain ⟨type, v, g, hshape⟩ := hd.value_shape
    exact congrArg JsonItem.key (Forest.node.inj hshape).1
  · rintro ⟨hc, hk, hdeep, hlex⟩
    exact decode_encode hk hc h.wellBuilt.shaped hlex h.wellBuilt.named hdeep hshort

/-- An object with one member, of name `k` and string value `v`. -/
def sampleObject (v : List Char) : Json :=
  ⟨⟨.object, [], [], 0, 0⟩, .node ⟨.string, ['k'], v, 0, 0⟩ .nil .nil⟩

/-- It is built with the constructors. -/
theorem built_sampleObject {v : List Char}
    (h : newString (some ['k']) (some v) = some ⟨⟨.string, ['k'], v, 0, 0⟩, .nil⟩) :
    Built (sampleObject v) := by
  have hobject : newObject none = some ⟨⟨.object, [], [], 0, 0⟩, .nil⟩ := rfl
  exact .add (.object hobject) (.string h) (.here ⟨fun _ => by simp, fun h => (nomatch h)⟩ rfl)

theorem built_round_trip_iff_sample :
    (∃ t jo', encode (sampleObject ['a']) = some t ∧ decode t = .ok jo' ∧
        jo'.tree = (sampleObject ['a']).tree) ↔
      isContainer (sampleObject ['a']).type = true ∧ (sampleObject ['a']).key = [] ∧
        Shallow (sampleObject ['a']).tree ∧ Lexemes codePlain (sampleObject ['a']).tree :=
  built_round_trip_iff (built_sampleObject rfl) (by decide)

/-- The value `a"b` passes the check, since the string that it starts with ends at its quote.  The
text `{ "k": "a"b" }` is not decoded. -/
theorem built_not_decoded :
    Built (sampleObject ['a', '"', 'b']) ∧ Short (sampleObject ['a', '"', 'b']).tree ∧
      ¬ ∃ t jo', encode (sampleObject ['a', '"', 'b']) = some t ∧ decode t = .ok jo' ∧
        jo'.tree = (sampleObject ['a', '"', 'b']).tree := by
  refine ⟨built_sampleObject rfl, by decide, ?_⟩
  rintro ⟨t, jo', henc, hdec, -⟩
  obtain rfl : ['\x7b', ' ', '"', 'k', '"', ':', ' ', '"', 'a', '"', 'b', '"', ' ', '\x7d'] = t :=
    Option.some.inj henc
  have hfail : ∀ jo', decode ['\x7b', ' ', '"', 'k', '"', ':', ' ', '"', 'a', '"', 'b',
    '"', ' ', '\x7d'] ≠
      .ok jo' := fun _ hok => nomatch hok
  exact hfail jo' hdec

end Libu.Json
