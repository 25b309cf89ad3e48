/-
# Saving and loading (`toolbox/config.c`)

`u_config_to_str` writes a node as a line with its key and its value, and its children between
braces below it.  A tree is loaded from that text again if every line is read as it has been written
and the shape is one that the loader makes.

* §1 is one rule for each kind of line, to go on from what the loader makes of the lines behind it.
* §2: what the loader makes of the lines of a forest (`made`), whose lines are read as they have
  been written (`Plain`): a key without a value makes a node when a brace comes, and a brace makes a
  node of the last such key.
* §3: `made` gives a forest back exactly when its nodes have either a value or children
  (`made_iff`).  A node with neither is lost; one with both leaves a node too many, or a brace
  without a name.
* §4: the text (`save_load_iff`).
-/
import Libu.Config.Grammar
import Libu.Config.SetGet
import Libu.Config.Say

namespace Libu.Config

open Verif

/-! ## 1. Lines -/

section Lines

variable {drv : Driver} {overwrite : Bool} {f : Frame} {src src' : Source}
    {c c' : Config} {r : Loaded}
  {key value : List Char}

theorem returns_eof (h : csGetline [] f.src = none) :
    Returns (round drv overwrite) f (.ok, f.c, []) := by
  refine returns_of_yields ?_
  rw [round, h]
  rfl

theorem returns_close (hread : Reads f.src (.closing true) src) (hp : f.p ≠ []) :
    Returns (round drv overwrite) f (.ok, f.c, src) := by
  obtain ⟨line, hline, hparse⟩ := hread
  refine returns_of_yields ?_
  rw [round, hline]
  simp only [hparse, hp, Bool.true_eq_false, or_self, if_false]
  rfl

/-- A line that is not an include line is none of the directive's business. -/
theorem directive_plain (hkey : ¬ IsInclude key) (value : List Char) :
    directiveBody drv f key value = .ret (.ok, f.c) := by
  rw [directiveBody]
  exact if_neg hkey

theorem returns_name (hread : Reads f.src (.assign key []) src) (hkey : ¬ IsInclude key)
    (hgo : Returns (round drv overwrite) ⟨f.files, f.c, f.p, key, src⟩ r) :
    Returns (round drv overwrite) f r := by
  obtain ⟨line, hline, hparse⟩ := hread
  refine returns_of_yields ?_
  rw [round, hline]
  simp only [hparse, assignBody, directive_plain hkey, Body.bind, if_true]
  exact ⟨r, hgo, rfl⟩

theorem returns_value (hread : Reads f.src (.assign key value) src) (hkey : ¬ IsInclude key)
    (hvalue : value ≠ [])
    {child : Path} (hset : doSetKey (some value) overwrite (splitDots key) f.c
      f.p = (.ok, c, child))
    (hgo : Returns (round drv overwrite) ⟨f.files, c, f.p, f.lastkey, src⟩ r) :
    Returns (round drv overwrite) f r := by
  obtain ⟨line, hline, hparse⟩ := hread
  refine returns_of_yields ?_
  rw [round, hline]
  simp only [hparse, assignBody, directive_plain hkey, Body.bind, if_neg hvalue, hset]
  exact ⟨r, hgo, rfl⟩

/-- A `{` without a name. -/
theorem returns_unnamed (hread : Reads f.src (.opening true) src) (hkey : f.lastkey = []) :
    Returns (round drv overwrite) f (.err, f.c, src) := by
  obtain ⟨line, hline, hparse⟩ := hread
  refine returns_of_yields ?_
  rw [round, hline]
  simp only [hparse, hkey, true_or, if_true]
  rfl

theorem returns_section (hread : Reads f.src (.opening true) src) (hkey : f.lastkey ≠ []) {i : Nat}
    (hchild : f.c.childFor f.p f.lastkey overwrite = (c, i))
    (hin : Returns (round drv overwrite) ⟨f.files, c, f.p ++ [i], [], src⟩ (.ok, c', src'))
    (hgo : Returns (round drv overwrite) ⟨f.files, c', f.p, [], src'⟩ r) :
    Returns (round drv overwrite) f r := by
  obtain ⟨line, hline, hparse⟩ := hread
  refine returns_of_yields ?_
  rw [round, hline]
  simp only [hparse, hkey, Bool.true_eq_false, or_self, if_false, sectionBody, hchild]
  exact ⟨_, hin, r, hgo, rfl⟩

theorem returns_failed (hread : Reads f.src (.opening true) src) (hkey : f.lastkey ≠ []) {i : Nat}
    (hchild : f.c.childFor f.p f.lastkey overwrite = (c, i))
    (hin : Returns (round drv overwrite) ⟨f.files, c, f.p ++ [i], [], src⟩ (.err, c', src')) :
    Returns (round drv overwrite) f (.err, c', src') := by
  obtain ⟨line, hline, hparse⟩ := hread
  refine returns_of_yields ?_
  rw [round, hline]
  simp only [hparse, hkey, Bool.true_eq_false, or_self, if_false, sectionBody, hchild]
  exact ⟨_, hin, rfl⟩

end Lines

/-! ## 2. The lines of a forest -/

/-- The line of a node, without its end. -/
def Item.line (item : Item) : List Char := item.key ++ ' ' :: item.value.getD []

/-- The line of a node fits in the buffer of the loader and is one that says its key and its value
(`reads_iff`), and neither is something that the loader expands, includes or breaks up. -/
structure Plain (item : Item) : Prop where
  fits : '\x00' ∉ item.line ∧ '\n' ∉ item.line ∧ item.line.length + 1 < bufsz
  written : Written item.key (item.value.getD [])
  key : ¬ IsInclude item.key
  value : ∀ v ∈ item.value, v ≠ [] ∧ ¬ ['$', '{'] <:+: v ∧ '.' ∉ item.key

theorem Plain.reads {item : Item} (h : Plain item) :
    parseLine item.line = some (.assign item.key (item.value.getD [])) := by
  have hlen : item.line.length + 1 < bufsz := h.fits.2.2
  exact h.written.parse (by simp only [Item.line, bufsz] at hlen ⊢; omega)

/-- The lines of a forest. -/
def forestLines : Forest Item → List (List Char)
  | .nil => []
  | .node item children items =>
    let block := if children = .nil then [] else ['{'] :: (forestLines children ++ [['}']])
    item.line :: (block ++ forestLines items)

/-- The lines as a source. -/
def chunks (lines : List (List Char)) : Source := lines.map (· ++ ['\n'])

/-- What the line of a node makes. -/
def own (item : Item) : Forest Item := if item.value = none then .nil else .node item .nil .nil

/-- The name that is kept behind it. -/
def nameBehind (lastkey : List Char) (item : Item) : List Char :=
  if item.value = none then item.key else lastkey

/-- The nodes that the loader makes of the lines of a forest, and the name that it keeps; there are
none where a brace has no name. -/
def made : List Char → Forest Item → Option (Forest Item × List Char)
  | lastkey, .nil => some (.nil, lastkey)
  | lastkey, .node item children items =>
    if children = .nil then (made (nameBehind lastkey item) items).map
      fun m => ((own item).append m.1, m.2)
    else if nameBehind lastkey item = [] then none
    else
      (made [] children).bind fun inner =>
        (made [] items).map fun m =>
          ((own item).append (.node ⟨nameBehind lastkey item, none⟩ inner.1 m.1), m.2)

/-- The tree with more children behind those of the node at `p`. -/
def grow (c : Config) (p : Path) (g : Forest Item) : Config :=
  { c with children := c.children.alter (·.append g) p }

section Grow

variable {c : Config} {p : Path} {cs : Forest Item}

theorem grow_nil (hp : c.children.inside p = some cs) : c.grow p .nil = c := by
  have hsame : c.children.alter (·.append .nil) p = c.children := by
    have hconst : c.children.alter (·.append .nil) p = c.children.alter (fun _ => cs) p :=
      Forest.alter_congr hp (Forest.append_nil cs)
    rw [hconst, Forest.alter_self hp]
  rw [grow, hsame]

theorem grow_grow (c : Config) (p : Path) (g g' : Forest Item) : (c.grow p g).grow p g' =
    c.grow p (g.append g') := by
  simp only [grow, Forest.alter_alter, Forest.append_assoc]

theorem inside_grow (hp : c.children.inside p = some cs) (g : Forest Item) :
    (c.grow p g).children.inside p = some (cs.append g) := Forest.inside_alter hp

theorem childFor_grow (hp : c.children.inside p = some cs) (key : List Char) :
    c.childFor p key false = (c.grow p (.node ⟨key, none⟩ .nil .nil), cs.length) :=
  childFor_new hp key

/-- The new node is behind the children that were there. -/
theorem inside_grow_child (hp : c.children.inside p = some cs) (item : Item) (g s : Forest Item) :
    (c.grow p (.node item g s)).children.inside (p ++ [cs.length]) = some g := by
  rw [Forest.inside_append_path, inside_grow hp, Option.bind_some, Forest.inside_behind,
    Forest.inside_root]

theorem grow_child (hp : c.children.inside p = some cs) (item : Item) (g : Forest Item) :
    (c.grow p (.node item .nil .nil)).grow (p ++ [cs.length]) g = c.grow p (.node item g .nil) := by
  have hnode : c.children.alter (fun f => (f.append (.node item .nil .nil)).alter
    (·.append g) [cs.length]) p =
      c.children.alter (·.append (.node item g .nil)) p := by
    refine Forest.alter_congr hp ?_
    rw [Forest.alter_behind, Forest.alter_root, Forest.nil_append]
  simp only [grow, Forest.alter_append_path, Forest.alter_alter, hnode]

end Grow

section Reading

variable {drv : Driver} {c : Config} {p : Path} {cs : Forest Item} {item : Item}
    {files : List (List Char)}
  {lastkey : List Char} {src : Source} {r : Loaded}

/-- A value that has been read has no blanks around it. -/
theorem trim_value {line key value : List Char} (h : parseLine line = some (.assign key value)) :
    trim value = value := by
  rw [parseLine] at h
  obtain ⟨line', -, h⟩ := Option.bind_eq_some_iff.mp h
  dsimp only at h
  split at h
  · cases h
  · split at h
    · cases h
    · cases h
    · obtain ⟨-, rfl⟩ := Line.assign.inj (Option.some.inj h)
      exact trim_trim _

theorem reads_chunk {line : List Char} {l : Line} (hnul : '\x00' ∉ line)
    (hparse : parseLine line = some l) (src : Source) : Reads ((line ++ ['\n']) :: src) l src := by
  refine ⟨line, ?_, hparse⟩
  have hchunk : '\x00' ∉ line ++ ['\n'] := by simpa using hnul
  rw [csGetline]
  simp only [takeWhile_of_notMem hchunk, List.getLast?_concat,
    List.dropLast_concat, List.nil_append]
  rfl

/-- The line of a node. -/
theorem load_line (hitem : Plain item) (hp : c.children.inside p = some cs)
    (hgo : Returns (round drv false) ⟨files, c.grow p (own item), p,
      nameBehind lastkey item, src⟩ r) :
    Returns (round drv false) ⟨files, c, p, lastkey, (item.line ++ ['\n']) :: src⟩ r := by
  have hread := reads_chunk hitem.fits.1 hitem.reads src
  obtain ⟨key, value⟩ := item
  cases value with
  | none =>
    rw [own, if_pos rfl, grow_nil hp, nameBehind, if_pos rfl] at hgo
    exact returns_name hread hitem.key hgo
  | some v =>
    obtain ⟨hv, href, hdot⟩ := hitem.value v rfl
    have hset : doSetKey (some v) false (splitDots key) c p =
        (.ok, c.grow p (.node ⟨key, some v⟩ .nil .nil), p ++ [cs.length]) := by
      rw [splitDots_undotted hdot, doSetKey_new hp key href, (trim_value hitem.reads : trim v = v)]
      rfl
    rw [own, if_neg (by simp), nameBehind, if_neg (by simp)] at hgo
    exact returns_value hread hitem.key hv hset hgo

theorem reads_open (src : Source) : Reads (['{', '\n'] :: src) (.opening true) src :=
  @reads_chunk ['{'] _ (by decide) (by decide) src

theorem reads_close (src : Source) : Reads (['}', '\n'] :: src) (.closing true) src :=
  @reads_chunk ['}'] _ (by decide) (by decide) src

/-- The lines of a node with children. -/
theorem chunks_block {children : Forest Item} (hleaf : children ≠ .nil) (item : Item)
    (items : Forest Item)
    (tail : Source) : chunks (forestLines (.node item children items)) ++ tail =
      (item.line ++ ['\n']) :: ['{', '\n'] :: (chunks (forestLines children) ++
        ['}', '\n'] :: (chunks (forestLines items) ++ tail)) := by
  simp [forestLines, chunks, hleaf]

theorem chunks_leaf (item : Item) (items : Forest Item) (tail : Source) :
    chunks (forestLines (.node item .nil items)) ++ tail =
      (item.line ++ ['\n']) :: (chunks (forestLines items) ++ tail) := by
  simp [forestLines, chunks]

/-- **What the loader makes of the lines of a forest**, and goes on with. -/
theorem load_made {f g : Forest Item} {lastkey' : List Char}
    (hplain : ∀ item ∈ f.toList, Plain item) {tail : Source}
    (hp : c.children.inside p = some cs) (hmade : made lastkey f = some (g, lastkey'))
    (hgo : Returns (round drv false) ⟨files, c.grow p g, p, lastkey', tail⟩ r) :
    Returns (round drv false) ⟨files, c, p, lastkey, chunks (forestLines f) ++ tail⟩ r := by
  induction f generalizing c p cs lastkey g lastkey' tail r with
  | nil =>
    obtain ⟨rfl, rfl⟩ := Prod.mk.inj (Option.some.inj hmade)
    rwa [grow_nil hp] at hgo
  | node item children items ihc ihs =>
    have hitem := hplain item (by simp)
    have hchildren : ∀ x ∈ children.toList, Plain x := fun x hx => hplain x (by simp [hx])
    have hitems : ∀ x ∈ items.toList, Plain x := fun x hx => hplain x (by simp [hx])
    have hown := inside_grow hp (own item)
    rw [made] at hmade
    by_cases hleaf : children = .nil
    · subst hleaf
      rw [if_pos rfl] at hmade
      obtain ⟨⟨g', lk⟩, hmade', heq⟩ := Option.map_eq_some_iff.mp hmade
      obtain ⟨rfl, rfl⟩ := Prod.mk.inj heq
      rw [← grow_grow] at hgo
      rw [chunks_leaf]
      exact load_line hitem hp (ihs hitems hown hmade' hgo)
    · rw [if_neg hleaf] at hmade
      by_cases hname : nameBehind lastkey item = []
      · rw [if_pos hname] at hmade
        cases hmade
      · rw [if_neg hname] at hmade
        obtain ⟨⟨inner, lk⟩, hinner, hmade⟩ := Option.bind_eq_some_iff.mp hmade
        obtain ⟨⟨g', lk'⟩, hmade', heq⟩ := Option.map_eq_some_iff.mp hmade
        obtain ⟨rfl, rfl⟩ := Prod.mk.inj heq
        have hsection := inside_grow hown (.node ⟨nameBehind lastkey item, none⟩ inner .nil)
        have hgo' : Returns (round drv false) ⟨files, (((c.grow p (own item)).grow p
            (.node ⟨nameBehind lastkey item, none⟩ inner .nil)).grow p g'), p, lk', tail⟩ r := by
          rwa [grow_grow, grow_grow, Forest.node_append, Forest.nil_append]
        rw [chunks_block hleaf]
        have hopen := childFor_grow hown (nameBehind lastkey item)
        refine load_line hitem hp (returns_section (reads_open _) hname hopen ?_
          (ihs hitems hsection hmade' hgo'))
        refine ihc hchildren (inside_grow_child hown _ _ _) hinner ?_
        rw [grow_child hown]
        exact returns_close (reads_close _) (by simp)

/-- **Where it makes nothing of them, it stops.** -/
theorem load_unmade {f : Forest Item} (hplain : ∀ item ∈ f.toList, Plain item) (tail : Source)
    (hp : c.children.inside p = some cs) (hmade : made lastkey f = none) :
    ∃ c' src', Returns (round drv false) ⟨files, c, p, lastkey, chunks (forestLines f) ++ tail⟩
    (.err, c', src') := by
  induction f generalizing c p cs lastkey tail with
  | nil => cases hmade
  | node item children items ihc ihs =>
    have hitem := hplain item (by simp)
    have hchildren : ∀ x ∈ children.toList, Plain x := fun x hx => hplain x (by simp [hx])
    have hitems : ∀ x ∈ items.toList, Plain x := fun x hx => hplain x (by simp [hx])
    have hown := inside_grow hp (own item)
    rw [made] at hmade
    by_cases hleaf : children = .nil
    · subst hleaf
      rw [if_pos rfl, Option.map_eq_none_iff] at hmade
      obtain ⟨c', src', herr⟩ := ihs hitems tail hown hmade
      rw [chunks_leaf]
      exact ⟨c', src', load_line hitem hp herr⟩
    · rw [if_neg hleaf] at hmade
      rw [chunks_block hleaf]
      by_cases hname : nameBehind lastkey item = []
      · exact ⟨_, _, load_line hitem hp (returns_unnamed (reads_open _) hname)⟩
      · rw [if_neg hname] at hmade
        have hchild := inside_grow_child hown ⟨nameBehind lastkey item, none⟩ .nil .nil
        have hopen := childFor_grow hown (nameBehind lastkey item)
        cases hinner : made [] children with
        | none =>
          obtain ⟨c', src', herr⟩ :=
            ihc hchildren (['}', '\n'] :: (chunks (forestLines items) ++ tail)) hchild hinner
          exact ⟨c', src', load_line hitem hp (returns_failed (reads_open _) hname hopen herr)⟩
        | some m =>
          obtain ⟨inner, lk⟩ := m
          rw [hinner, Option.bind_some, Option.map_eq_none_iff] at hmade
          have hsection := inside_grow hown (.node ⟨nameBehind lastkey item, none⟩ inner .nil)
          obtain ⟨c', src', herr⟩ := ihs hitems tail hsection hmade
          refine ⟨c', src', load_line hitem hp (returns_section (reads_open _) hname hopen ?_ herr)⟩
          refine load_made hchildren hchild hinner ?_
          rw [grow_child hown]
          exact returns_close (reads_close _) (by simp)

end Reading

/-! ## 3. Which forests are made again -/

/-- A node has either a value or children. -/
def Either (item : Item) (children : Forest Item) : Prop := item.value = none ↔ children ≠ .nil

/-- At the depth `d` there is a node with neither. -/
def BareAt : Nat → Forest Item → Prop
  | _, .nil => False
  | 0, .node item children items => item.value = none ∧ children = .nil ∨ BareAt 0 items
  | d + 1, .node _ children items => BareAt d children ∨ BareAt (d + 1) items

/-- How many nodes have both. -/
def boths : Forest Item → Nat
  | .nil => 0
  | .node item children items =>
    (if item.value ≠ none ∧ children ≠ .nil then 1 else 0) + boths children + boths items

section Made

variable {f g : Forest Item} {lastkey lastkey' : List Char} {d : Nat}

/-- `made` on a first node, without the cases that make nothing. -/
theorem made_node {item : Item} {children items : Forest Item}
    (h : made lastkey (.node item children items) = some (g, lastkey')) :
    (children = .nil ∧ ∃ g', made (nameBehind lastkey item) items = some (g', lastkey') ∧
      g = (own item).append g') ∨
      (children ≠ .nil ∧ ∃ inner lk g', made [] children = some (inner, lk) ∧ made [] items =
        some (g', lastkey') ∧
        g = (own item).append (.node ⟨nameBehind lastkey item, none⟩ inner g')) := by
  rw [made] at h
  by_cases hleaf : children = .nil
  · rw [if_pos hleaf] at h
    obtain ⟨⟨g', lk⟩, hmade, heq⟩ := Option.map_eq_some_iff.mp h
    obtain ⟨rfl, rfl⟩ := Prod.mk.inj heq
    exact .inl ⟨hleaf, g', hmade, rfl⟩
  · rw [if_neg hleaf] at h
    split at h
    · cases h
    · obtain ⟨⟨inner, lk⟩, hinner, h⟩ := Option.bind_eq_some_iff.mp h
      obtain ⟨⟨g', lk'⟩, hmade, heq⟩ := Option.map_eq_some_iff.mp h
      obtain ⟨rfl, rfl⟩ := Prod.mk.inj heq
      exact .inr ⟨hleaf, inner, lk, g', hinner, hmade, rfl⟩

/-- The node that a line makes has a value. -/
theorem bareAt_own (item : Item) : BareAt d ((own item).append g) ↔ BareAt d g := by
  unfold own
  split
  · exact Iff.rfl
  · next hvalue =>
    cases d with
    | zero => simp [BareAt, hvalue]
    | succ d => simp [BareAt]

/-- Where nothing is made of some lines, the first of them is that of a node with neither. -/
theorem bareAt_of_made_nil (h : made lastkey f = some (.nil, lastkey'))
    (hf : f ≠ .nil) : BareAt 0 f := by
  cases f with
  | nil => exact absurd rfl hf
  | node item children items =>
    rcases made_node h with ⟨hleaf, g', -, heq⟩ | ⟨-, inner, lk, g', -, -, heq⟩
    · refine .inl ⟨?_, hleaf⟩
      by_contra hvalue
      rw [own, if_neg hvalue, Forest.node_append] at heq
      cases heq
    · unfold own at heq
      split at heq <;> cases heq

/-- **A node with neither that is made** has been a section of such nodes: they were further
down. -/
theorem BareAt.of_made (h : made lastkey f = some (g, lastkey')) (hbare : BareAt d g) :
    BareAt (d + 1) f := by
  induction f generalizing lastkey g lastkey' d with
  | nil =>
    obtain ⟨rfl, -⟩ := Prod.mk.inj (Option.some.inj h)
    exact hbare.elim
  | node item children items ihc ihs =>
    rcases made_node h with ⟨-, g', hmade, rfl⟩ | ⟨hleaf, inner, lk, g', hinner, hmade, rfl⟩
    · exact .inr (ihs hmade ((bareAt_own item).mp hbare))
    · replace hbare := (bareAt_own item).mp hbare
      cases d with
      | zero =>
        rcases hbare with ⟨-, rfl⟩ | hbare
        · exact .inl (bareAt_of_made_nil hinner hleaf)
        · exact .inr (ihs hmade hbare)
      | succ d =>
        rcases hbare with hbare | hbare
        · exact .inl (ihc hinner hbare)
        · exact .inr (ihs hmade hbare)

theorem BareAt.lt (h : BareAt d f) : d < f.toList.length := by
  induction f generalizing d with
  | nil => exact h.elim
  | node item children items ihc ihs =>
    simp only [Forest.toList_node, List.length_cons, List.length_append]
    cases d with
    | zero => omega
    | succ d =>
      rcases h with h | h
      · have := ihc h
        omega
      · have := ihs h
        omega

/-- A forest that is made again has no node with neither. -/
theorem not_bareAt_of_made (h : made lastkey f = some (f, lastkey')) : ¬ BareAt d f := by
  intro hbare
  have hdeep : ∀ n, BareAt (d + n) f := by
    intro n
    induction n with
    | zero => exact hbare
    | succ n ih => exact ih.of_made h
  have := (hdeep f.toList.length).lt
  omega

/-- Without nodes with neither, a node too many is made of every node with both. -/
theorem length_made (h : made lastkey f = some (g, lastkey')) (hbare : ∀ d, ¬ BareAt d f) :
    g.toList.length = f.toList.length + boths f := by
  induction f generalizing lastkey g lastkey' with
  | nil =>
    obtain ⟨rfl, -⟩ := Prod.mk.inj (Option.some.inj h)
    rfl
  | node item children items ihc ihs =>
    have hchildren : ∀ d, ¬ BareAt d children := fun d hd => hbare (d + 1) (.inl hd)
    have hitems : ∀ d, ¬ BareAt d items := by
      rintro (_ | d) hd
      · exact hbare 0 (.inr hd)
      · exact hbare (d + 1) (.inr hd)
    rcases made_node h with ⟨rfl, g', hmade, rfl⟩ | ⟨hleaf, inner, lk, g', hinner, hmade, rfl⟩
    · have hlen := ihs hmade hitems
      have hvalue : item.value ≠ none := fun hvalue => hbare 0 (.inl ⟨hvalue, rfl⟩)
      simp [own, hvalue, boths, hlen]
      omega
    · have hlen := ihs hmade hitems
      have hinside := ihc hinner hchildren
      by_cases hvalue : item.value = none
      · simp [own, hvalue, boths, hlen, hinside]
        omega
      · simp [own, hvalue, boths, hlen, hinside, hleaf]
        omega

theorem everywhere_either (hbare : ∀ d, ¬ BareAt d f) (hboths : boths f = 0) :
    f.Everywhere Either := by
  induction f with
  | nil => trivial
  | node item children items ihc ihs =>
    have hchildren : ∀ d, ¬ BareAt d children := fun d hd => hbare (d + 1) (.inl hd)
    have hitems : ∀ d, ¬ BareAt d items := by
      rintro (_ | d) hd
      · exact hbare 0 (.inr hd)
      · exact hbare (d + 1) (.inr hd)
    rw [boths] at hboths
    refine ⟨?_, ihc hchildren (by omega), ihs hitems (by omega)⟩
    constructor
    · intro hvalue hleaf
      exact hbare 0 (.inl ⟨hvalue, hleaf⟩)
    · intro hleaf
      by_contra hvalue
      rw [if_pos ⟨hvalue, hleaf⟩] at hboths
      omega

/-- **A forest is made of its lines again exactly when** its nodes have either a value or
children. -/
theorem made_iff (hkeys : ∀ item ∈ f.toList, item.key ≠ []) :
    (∃ lastkey, made [] f = some (f, lastkey)) ↔ f.Everywhere Either := by
  constructor
  · rintro ⟨lastkey, h⟩
    have hbare : ∀ d, ¬ BareAt d f := fun d => not_bareAt_of_made h
    have hlen := length_made h hbare
    exact everywhere_either hbare (by omega)
  · intro h
    refine ⟨[], ?_⟩
    induction f with
    | nil => rfl
    | node item children items ihc ihs =>
      obtain ⟨heither, hc, hs⟩ := h
      have hchildren := ihc (fun x hx => hkeys x (by simp [hx])) hc
      have hitems := ihs (fun x hx => hkeys x (by simp [hx])) hs
      have hkey := hkeys item (by simp)
      obtain ⟨key, value⟩ := item
      cases value with
      | none => simp [made, nameBehind, own, heither.mp rfl, hkey, hchildren, hitems]
      | some v =>
        obtain rfl : children = .nil := by
          by_contra hleaf
          cases heither.mpr hleaf
        simp [made, nameBehind, own, hitems]

end Made

/-! ## 4. The text -/

/-- Lines as a text. -/
def unlines (lines : List (List Char)) : List Char := lines.flatMap (· ++ ['\n'])

section Text

variable {f : Forest Item} {text : List Char} {c : Config}

theorem childrenToStr_eq (h : ∀ item ∈ f.toList, item.key ≠ includeKey) :
    childrenToStr f = unlines (forestLines f) := by
  induction f with
  | nil => rfl
  | node item children items ihc ihs =>
    have hchildren := ihc fun x hx => h x (by simp [hx])
    have hitems := ihs fun x hx => h x (by simp [hx])
    have hkey := h item (by simp)
    by_cases hleaf : children = .nil
    · simp [childrenToStr, Item.toStr, hkey, hleaf, hitems, forestLines, unlines, Item.line]
    · simp [childrenToStr, Item.toStr, hkey, hleaf, hchildren, hitems, forestLines,
        unlines, Item.line]

/-- Lines that fit are read one by one. -/
theorem bufSource_unlines {lines : List (List Char)}
    (h : ∀ line ∈ lines, '\x00' ∉ line ∧ '\n' ∉ line ∧ line.length + 1 < bufsz) {n : Nat}
    (hn : (unlines lines).length ≤ n) : bufSource n (unlines lines) = chunks lines := by
  induction lines generalizing n with
  | nil => exact bufSource_nil n
  | cons line lines ih =>
    obtain ⟨hnul, hnl, hlen⟩ := h line List.mem_cons_self
    have htext : unlines (line :: lines) = line ++ '\n' :: unlines lines := by simp [unlines]
    rw [htext] at hn ⊢
    rw [List.length_append, List.length_cons] at hn
    obtain ⟨n, rfl⟩ := Nat.exists_eq_succ_of_ne_zero (by omega : n ≠ 0)
    have hchunk : bufSource (n + 1) (line ++ '\n' :: unlines lines) = (line ++ ['\n']) :: bufSource
      n (unlines lines) := by
      have hread := @bufChunk_line line (unlines lines) (bufsz - 1) hnl (by omega)
      cases line with
      | nil =>
        rw [List.nil_append, bufSource_cons n (by decide), ← List.nil_append ('\n' :: _), hread]
      | cons x line =>
        rw [List.cons_append, bufSource_cons n (fun hx => hnul (hx ▸ List.mem_cons_self)),
          ← List.cons_append, hread]
    rw [hchunk, ih (fun l hl => h l (List.mem_cons_of_mem _ hl)) (by omega)]
    rfl

/-- The nodes below are set, not the root. -/
theorem putValue_value {p : Path} (hp : p ≠ []) (c : Config) (val : Option (List Char)) :
    (c.putValue p val).value = c.value := by
  rw [putValue, if_neg hp]

theorem childFor_value (c : Config) (p : Path) (key : List Char) (overwrite : Bool) :
    (c.childFor p key overwrite).1.value = c.value := by
  unfold childFor
  split <;> rfl

theorem doSetKey_value (val : Option (List Char)) (overwrite : Bool) (keys : List (List Char))
    (c : Config) (p : Path) : (doSetKey val overwrite keys c p).2.1.value = c.value := by
  induction keys generalizing c p with
  | nil => rfl
  | cons key keys ih =>
    cases keys with
    | nil =>
      have hp : p ++ [(c.childFor p key overwrite).2] ≠ [] := by simp
      simp only [doSetKey, setValue]
      split
      · rw [putValue_value hp, childFor_value]
      · split
        · rw [putValue_value hp, childFor_value]
        · rw [putValue_value hp, putValue_value hp, childFor_value]
    | cons k ks => exact (ih _ _).trans (childFor_value _ _ _ _)

theorem value_of_doSetKey {val : Option (List Char)} {overwrite : Bool}
    {keys : List (List Char)} {c c' : Config}
    {p child : Path} {ret : Ret} (h : doSetKey val overwrite keys c p = (ret, c', child)) :
    c'.value = c.value := by
  rw [← doSetKey_value val overwrite keys c p, h]

theorem directive_value {drv : Driver} {g : Frame} {key value : List Char}
    {R : Frame → Loaded → Prop} (hR : ∀ g r, R g r → r.2.1.value = g.c.value) {r : Ret × Config}
    (h : (directiveBody drv g key value).Yields R r) : r.2.value = g.c.value := by
  unfold directiveBody at h
  split at h
  · split at h
    · rw [h]
    · split at h
      · next heq =>
        have hset := value_of_doSetKey heq
        split at h
        · rw [h]
          exact hset
        · obtain ⟨r', hr', rfl⟩ := h
          exact (hR _ _ hr').trans hset
      · next heq =>
        rw [h]
        exact value_of_doSetKey heq
  · rw [h]

/-- **Loading leaves the value of the root as it is.** -/
theorem value_of_returns {drv : Driver} {overwrite : Bool} {g : Frame} {r : Loaded}
    (h : Returns (round drv overwrite) g r) : r.2.1.value = g.c.value := by
  refine Returns.rule (P := fun g r => r.2.1.value = g.c.value) ?_ h
  intro g r hyields
  have hR : ∀ g' r', (Calls (round drv overwrite) g g' ∧ Returns (round drv overwrite) g' r' ∧
      r'.2.1.value = g'.c.value) → r'.2.1.value = g'.c.value := fun _ _ h => h.2.2
  have hchild := childFor_value g.c g.p g.lastkey overwrite
  cases round_yields hyields with
  | eof => rfl
  | bad => rfl
  | close => rfl
  | directive _ hdir => exact @directive_value _ _ _ _ _ hR _ hdir
  | set _ _ hpass hset => exact (value_of_doSetKey hset).trans (directive_value hR hpass)
  | inside _ _ hopen hin =>
    rw [hopen] at hchild
    exact hin.2.2.trans hchild
  | next hnext hin =>
    refine hin.2.2.trans ?_
    cases hnext with
    | empty => rfl
    | leave _ _ hopen hsection =>
      rw [hopen] at hchild
      exact hsection.2.2.trans hchild
    | name _ hpass => exact directive_value hR hpass
    | value _ _ hpass hset => exact (value_of_doSetKey hset).trans (directive_value hR hpass)

/-- The lines of plain nodes fit. -/
theorem forestLines_fit (h : ∀ item ∈ f.toList, Plain item) :
    ∀ line ∈ forestLines f, '\x00' ∉ line ∧ '\n' ∉ line ∧ line.length + 1 < bufsz := by
  induction f with
  | nil => simp [forestLines]
  | node item children items ihc ihs =>
    have hitem := (h item (by simp)).fits
    have hchildren := ihc fun x hx => h x (by simp [hx])
    have hitems := ihs fun x hx => h x (by simp [hx])
    have hblock : ∀ line ∈ ['{'] :: (forestLines children ++ [['}']]),
        '\x00' ∉ line ∧ '\n' ∉ line ∧ line.length + 1 < bufsz := by
      intro line hline
      rcases List.mem_cons.mp hline with rfl | hline
      · decide
      · rcases List.mem_append.mp hline with hline | hline
        · exact hchildren line hline
        · obtain rfl := List.mem_singleton.mp hline
          decide
    intro line hline
    rw [forestLines] at hline
    rcases List.mem_cons.mp hline with rfl | hline
    · exact hitem
    · rcases List.mem_append.mp hline with hline | hline
      · split at hline
        · cases hline
        · exact hblock line hline
      · exact hitems line hline

/-- A tree of plain nodes is loaded from its text as it is made of its lines. -/
theorem loadFromBuf_toStr (h : ∀ item ∈ c.children.toList, Plain item) :
    loadFromBuf c.toStr = (made [] c.children).map fun m => ⟨none, m.1⟩ := by
  have htext : c.toStr = unlines (forestLines c.children) :=
    childrenToStr_eq fun item hitem hkey => (h item hitem).key (.inl hkey)
  have hsrc : bufSource c.toStr.length c.toStr = chunks (forestLines c.children) ++ [] := by
    rw [htext, bufSource_unlines (forestLines_fit h) (Nat.le_refl _), List.append_nil]
  have hroot : create.children.inside [] = some .nil := rfl
  cases hmade : made [] c.children with
  | none =>
    obtain ⟨c', src', herr⟩ := @load_unmade bufDriver create [] .nil [] [] _ h [] hroot hmade
    rw [← hsrc] at herr
    rw [loadFromBuf_eq herr]
    rfl
  | some m =>
    obtain ⟨g, lastkey⟩ := m
    have hgrow : create.grow [] g = ⟨none, g⟩ := by simp [grow, create]
    have heof : Returns (round bufDriver false) ⟨[], create.grow [] g, [], lastkey, []⟩
      (.ok, ⟨none, g⟩, []) := by
      rw [hgrow]
      exact returns_eof rfl
    have hload := load_made h hroot hmade heof
    rw [← hsrc] at hload
    rw [loadFromBuf_eq hload]
    rfl

end Text

/-- **A tree that has been loaded, of plain nodes, is loaded again from the text it is saved to
exactly when** each of its nodes has either a value or children.  A node with neither is printed as
a line with its key alone, of which nothing comes back; one with both is printed with its value, and
a `{` then follows that belongs to no key. -/
theorem save_load_iff {text : List Char} {c : Config} (hload : loadFromBuf text = some c)
    (hplain : ∀ item ∈ c.children.toList, Plain item) :
    (∀ size buf, c.saveToBuf size = some buf → loadFromBuf buf = some c) ↔
    c.children.Everywhere Either := by
  have hvalue : c.value = none := by
    obtain ⟨src, hreturns⟩ := returns_of_loadFromBuf hload
    exact value_of_returns hreturns
  have hsave : (∀ size buf, c.saveToBuf size = some buf → loadFromBuf buf = some c) ↔
    loadFromBuf c.toStr = some c := by
    constructor
    · intro h
      refine h (c.toStr.length + 1) c.toStr ?_
      rw [saveToBuf, if_neg (by omega)]
    · intro h size buf hbuf
      rw [saveToBuf] at hbuf
      split at hbuf
      · cases hbuf
      · obtain rfl := Option.some.inj hbuf
        exact h
  have hkeys : ∀ item ∈ c.children.toList, item.key ≠ [] := fun item hitem => key_ne_nil
    (hplain item hitem).reads
  rw [hsave, loadFromBuf_toStr hplain, ← made_iff hkeys, Option.map_eq_some_iff]
  constructor
  · rintro ⟨⟨g, lastkey⟩, hmade, rfl⟩
    exact ⟨lastkey, hmade⟩
  · rintro ⟨lastkey, hmade⟩
    refine ⟨(c.children, lastkey), hmade, ?_⟩
    rw [← hvalue]

/-- A section with a value in it is saved and loaded again. -/
theorem save_load_section :
    loadFromBuf ['a', ' ', '\n', '{', '\n', 'b', ' ', '1', '\n', '}', '\n'] =
      some ⟨none, .node ⟨['a'], none⟩ (.node ⟨['b'], some ['1']⟩ .nil .nil) .nil⟩ := by
  have hload : loadFromBuf ['a', '\n', '{', '\n', 'b', ' ', '1', '\n', '}', '\n'] =
      some ⟨none, .node ⟨['a'], none⟩ (.node ⟨['b'], some ['1']⟩ .nil .nil)
        .nil⟩ := by decide +kernel
  have hplain : ∀ item ∈ (Forest.node (⟨['a'], none⟩ : Item) (.node ⟨['b'], some ['1']⟩ .nil .nil)
    .nil).toList, Plain item := by
    intro item hitem
    rcases List.mem_cons.mp hitem with rfl | hitem
    · have hwritten : Written ['a'] [] :=
        ⟨by simp [isblank], by decide, by decide, by decide, by simp [isnl]⟩
      exact ⟨by decide, hwritten, by simp [IsInclude, includeKey, optIncludeKey], by simp⟩
    · obtain rfl := List.mem_singleton.mp hitem
      have hwritten : Written ['b'] ['1'] :=
        ⟨by simp [isblank], by decide, by decide, by decide, by simp [isnl]⟩
      refine ⟨by decide, hwritten, by simp [IsInclude, includeKey, optIncludeKey], fun v hv => ?_⟩
      obtain rfl := Option.some.inj hv
      decide
  refine (save_load_iff hload hplain).mpr ⟨?_, ⟨?_, trivial, trivial⟩, trivial⟩ 12 _ (by decide)
  · exact ⟨fun _ => by simp, fun _ => rfl⟩
  · exact ⟨fun h => (by cases h), fun h => absurd rfl h⟩

/-- **An empty section is lost**: its name is saved, and the braces that make a node of it are
not. -/
theorem empty_section_lost : ∃ c, loadFromBuf ['x', '\n', '{', '\n', '}', '\n'] = some c ∧
    ∃ buf, c.saveToBuf 4 = some buf ∧ loadFromBuf buf ≠ some c := by
  refine ⟨⟨none, .node ⟨['x'], none⟩ .nil .nil⟩, ?_, ['x', ' ', '\n'], by decide, ?_⟩
  · decide +kernel
  · decide +kernel

end Libu.Config
