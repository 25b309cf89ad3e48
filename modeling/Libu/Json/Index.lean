/-
# Indexing a tree (`toolbox/json.c`)

`u_json_index` walks the tree and gives every node a name, which depends on that of its parent: of a
member of an object on its key, and of an element of an array on a counter in the array.  The node
is put in a hash map under its name, and gets a pointer to the map; a node with such a pointer
refuses to be changed.

Names are paths from the root, `.a[0].b`, cut where their buffer ends.  Since neither the walk nor
the names look at the map, an index is a pass over the tree that gives every node its name, and a
list of puts into an empty map; what of that list is kept is known from `Libu.Hmap.Easy`.

* §1 is the interface; allocations succeed.
* §2: the names do not depend on the map, nor the map on anything but the names (`walkIndex_eq`).
* §3: after `u_json_unindex`, the tree is as free as before exactly when its root has no children
  (`unindex_iff`).
-/
import Libu.Hmap.Easy
import Libu.Json.Tree

namespace Libu.Json

open Verif

/-! ## 1. The index -/

/-- `U_JSON_FQN_SZ`: the size of a buffer for a name, with its NUL. -/
def jsonFqnSz : Nat := 256

/-- What `u_snprintf` leaves in `fqn`: the text, or as much of it as fits. -/
def snprintf (text : List Char) : List Char := text.take (jsonFqnSz - 1)

/-- The map from names to nodes, which are given by their addresses. -/
abbrev NameMap := Hmap (List Char) Nat

/-- `u_json_do_index`, up to the hash map: the parent and the node as they are afterwards. -/
def name (p : Option Cell) (jo : Cell) : Option Cell × Cell :=
  match p with
  | none => (none, { jo with fqn := ['.'] })
  | some p =>
    match p.type with
    | .object => (some p, { jo with fqn := snprintf (p.fqn ++ '.' :: jo.key) })
    | .array =>
      (some { p with icur := p.icur + 1 },
        { jo with
          fqn := snprintf (p.fqn ++ '[' :: (Nat.toDigits 10 p.icur.toNat ++ [']']))
          icur := if jo.type = .array then 0 else jo.icur })
    | _ => (some p, jo)

/-- `u_json_walk` in pre-order with `u_json_do_index`, for the children of `p` from a node on. -/
def walkIndex (map : Nat) : Option Cell → NameMap → Forest Cell →
    Option (Option Cell × NameMap × Forest Cell)
  | p, hmap, .nil => some (p, hmap, .nil)
  | p, hmap, .node jo children siblings => do
    let (p, jo) := name p jo
    let (_, hmap) ← hmap.easyPut jo.fqn jo.addr
    let jo := { jo with map := some map }
    let (jo', hmap, children) ← walkIndex map (some jo) hmap children
    let (p, hmap, siblings) ← walkIndex map p hmap siblings
    return (p, hmap, .node (jo'.getD jo) children siblings)

/-- A tree, and the hash map that has been made for it, with its address. -/
structure Doc where
  tree : Forest Cell
  hmap : Option (Nat × NameMap)

/-- `jo->map = map`, for the root only. -/
def setMap (map : Option Nat) : Forest Cell → Forest Cell
  | .nil => .nil
  | .node jo c s => .node { jo with map } c s

/-- `u_json_index` of the root, where a new hash map is made at the address `map`. -/
def index (map : Nat) (d : Doc) : Option Doc :=
  match d.tree with
  | .nil => none
  | .node jo c s =>
    if jo.map.isSome then some d
    else do
      let hmap ← Hmap.easyNew Nat
      let (_, hmap, t) ← walkIndex map none hmap (.node { jo with icur := 0 } c s)
      return ⟨setMap (some map) t, some (map, hmap)⟩

/-- `u_json_unindex` of the root: the map is freed, and the root forgets it. -/
def unindex (d : Doc) : Doc :=
  match d.tree with
  | .nil => d
  | .node jo c s => if jo.map.isSome then ⟨setMap none (.node jo c s), none⟩ else d

/-- `u_json_cache_get` of the root.  No other map than that of the index may be read. -/
def cacheGet (d : Doc) (name : List Char) : Option (Option Nat) :=
  match d.tree with
  | .nil => none
  | .node jo _ _ =>
    match jo.map with
    | none => some none
    | some map => do
      let (addr, hmap) ← d.hmap
      if addr = map then
        let (found, _) ← hmap.easyGet name
        return found
      else none

/-- `u_json_set_key`, which a node with a pointer to a map refuses. -/
def Ptr.setKey (p : Ptr) (key : Option (List Char)) : Option Cell :=
  if p.jo.map.isSome then none
  else do
    let key ← strlcpy (key.getD [])
    return { p.jo with key }

/-- `u_json_add`: the children of `head` afterwards, unless it is no container or has a pointer to a
map. -/
def Ptr.add (head : Ptr) (jo : Cell) (children : Forest Cell) : Option (Cell × Forest Cell) :=
  if !isContainer head.jo.type then none
  else if head.jo.map.isSome then none
  else
    some ({ head.jo with
        count := if head.jo.type = .array then (head.jo.count + 1) % 2 ^ 32 else head.jo.count },
      head.children.append (.node jo children .nil))

/-! ## 2. Names -/

/-- The names that `walkIndex` gives, without the map that it puts them in. -/
def mark (map : Nat) : Option Cell → Forest Cell → Option Cell × Forest Cell
  | p, .nil => (p, .nil)
  | p, .node jo children siblings =>
    let (p, jo) := name p jo
    let jo := { jo with map := some map }
    let (jo', children) := mark map (some jo) children
    let (p, siblings) := mark map p siblings
    (p, .node (jo'.getD jo) children siblings)

/-- The names and addresses of nodes, in the order in which they are put in the map. -/
def entries (f : Forest Cell) : List (List Char × Nat) := f.toList.map fun jo => (jo.fqn, jo.addr)

/-- A node as it is when its children are walked: it has its name and the pointer to the map. -/
def named (map : Nat) (p : Option Cell) (jo : Cell) : Cell := { (name p jo).2 with map := some map }

/-- What naming the children changes in a node: its counter, and nothing else. -/
structure Counted (jo jo' : Cell) : Prop where
  node : jo'.toJsonNode = jo.toJsonNode
  addr : jo'.addr = jo.addr
  fqn : jo'.fqn = jo.fqn
  map : jo'.map = jo.map

theorem Counted.refl (jo : Cell) : Counted jo jo := ⟨rfl, rfl, rfl, rfl⟩

theorem Counted.trans {p p₁ p₂ : Cell} (h : Counted p p₁) (h' : Counted p₁ p₂) : Counted p p₂ :=
  ⟨h'.node.trans h.node, h'.addr.trans h.addr, h'.fqn.trans h.fqn, h'.map.trans h.map⟩

section Mark

variable {map : Nat} {p : Option Cell} {jo : Cell} {c s f : Forest Cell}

/-- Naming a node changes the counter of its parent only. -/
theorem name_parent (p jo : Cell) : ∃ p', (name (some p) jo).1 = some p' ∧ Counted p p' := by
  unfold name
  dsimp only
  split <;> exact ⟨_, rfl, rfl, rfl, rfl, rfl⟩

/-- Naming a node changes nothing that the text says, and not where it is. -/
theorem name_node : (name p jo).2.toJsonNode = jo.toJsonNode ∧ (name p jo).2.addr = jo.addr := by
  unfold name
  split
  · exact ⟨rfl, rfl⟩
  · split <;> exact ⟨rfl, rfl⟩

/-- Naming any number of nodes changes no more of their parent than its counter. -/
theorem mark_parent (map : Nat) (p : Cell) (f : Forest Cell) :
    ∃ p', (mark map (some p) f).1 = some p' ∧ Counted p p' := by
  induction f generalizing p with
  | nil => exact ⟨p, rfl, .refl p⟩
  | node jo c s _ ihs =>
    obtain ⟨p₁, hp₁, hcount⟩ := name_parent p jo
    obtain ⟨p₂, hp₂, hcount'⟩ := ihs p₁
    refine ⟨p₂, ?_, hcount.trans hcount'⟩
    change (mark map (name (some p) jo).1 s).1 = some p₂
    rw [hp₁, hp₂]

/-- What becomes of a node, its children and its siblings. -/
theorem mark_node (map : Nat) (p : Option Cell) (jo : Cell) (c s : Forest Cell) :
    ∃ jo', Counted (named map p jo) jo' ∧
      mark map (some (named map p jo)) c = (some jo', (mark map (some (named map p jo)) c).2) ∧
      mark map p (.node jo c s) = ((mark map (name p jo).1 s).1,
        .node jo' (mark map (some (named map p jo)) c).2 (mark map (name p jo).1 s).2) := by
  obtain ⟨jo', hjo', hcount⟩ := mark_parent map (named map p jo) c
  refine ⟨jo', hcount, Prod.ext hjo' rfl, ?_⟩
  change ((mark map (name p jo).1 s).1,
    Forest.node (((mark map (some (named map p jo)) c).1).getD (named map p jo)) _ _) = _
  rw [hjo']
  rfl

/-- Every node gets the pointer to the map, and stays where it is. -/
theorem mark_map (map : Nat) (p : Option Cell) (f : Forest Cell) :
    (∀ jo ∈ (mark map p f).2.toList, jo.map = some map) ∧
      (mark map p f).2.toList.map Cell.addr = f.toList.map Cell.addr := by
  induction f generalizing p with
  | nil => exact ⟨fun jo hjo => (by cases hjo), rfl⟩
  | node jo c s ihc ihs =>
    obtain ⟨jo', hcount, -, hmark⟩ := mark_node map p jo c s
    obtain ⟨hc, hcaddr⟩ := ihc (some (named map p jo))
    obtain ⟨hs, hsaddr⟩ := ihs (name p jo).1
    rw [hmark]
    constructor
    · intro x hx
      rw [Forest.toList_node, List.mem_cons, List.mem_append] at hx
      rcases hx with rfl | hx | hx
      · exact hcount.map
      · exact hc x hx
      · exact hs x hx
    · rw [Forest.toList_node, Forest.toList_node, List.map_cons, List.map_cons, List.map_append,
        List.map_append, hcaddr, hsaddr, hcount.addr]
      exact congrArg (· :: _) name_node.2

/-- One turn of the walk: the node is named and put in the map, then its children are walked, then
its siblings. -/
theorem walkIndex_node (hmap : NameMap) : walkIndex map p hmap (.node jo c s) =
    (hmap.easyPut (name p jo).2.fqn (name p jo).2.addr).bind fun r =>
      (walkIndex map (some (named map p jo)) r.2 c).bind fun q =>
        (walkIndex map (name p jo).1 q.2.1 s).bind fun q' =>
          some (q'.1, q'.2.1, .node (q.1.getD (named map p jo)) q.2.2 q'.2.2) := rfl

/-- **The walk, and the puts in its order**: the names do not depend on the map. -/
theorem walkIndex_eq (map : Nat) (p : Option Cell) (hmap : NameMap) (f : Forest Cell) :
    walkIndex map p hmap f = (Hmap.fill (entries (mark map p f).2) hmap).map fun hmap =>
      ((mark map p f).1, hmap, (mark map p f).2) := by
  induction f generalizing p hmap with
  | nil => rfl
  | node jo c s ihc ihs =>
    obtain ⟨jo', hcount, hchildren, hmark⟩ := mark_node map p jo c s
    have hentries : entries (mark map p (.node jo c s)).2 =
      ((name p jo).2.fqn, (name p jo).2.addr) ::
        (entries (mark map (some (named map p jo)) c).2 ++ entries
          (mark map (name p jo).1 s).2) := by
      rw [hmark, entries, Forest.toList_node, List.map_cons, List.map_append,
        hcount.fqn, hcount.addr]
      rfl
    rw [walkIndex_node, hentries, Hmap.fill]
    cases hmap.easyPut (name p jo).2.fqn (name p jo).2.addr with
    | none => rfl
    | some r =>
      simp only [Option.bind_eq_bind, Option.bind_some, Hmap.fill_append, ihc, ihs]
      cases Hmap.fill (entries (mark map (some (named map p jo)) c).2) r.2 with
      | none => rfl
      | some m =>
        simp only [Option.map_some, Option.bind_some]
        cases Hmap.fill (entries (mark map (name p jo).1 s).2) m with
        | none => rfl
        | some m' =>
          rw [hmark, hchildren]
          rfl

end Mark

/-! ## 3. Indexing and un-indexing -/

/-- A tree that has been decoded has a root, which has no siblings and no map. -/
theorem Decoded.exists_root {t : Forest Cell} (h : Decoded t) :
    ∃ root c, t = .node root c .nil ∧ root.map = none := by
  obtain ⟨s, jo, -, htree⟩ := h.text
  cases t with
  | nil => cases htree
  | node root c s =>
    rw [Forest.map_node, Json.root, Forest.node.injEq, Forest.map_eq_nil] at htree
    obtain ⟨-, -, rfl⟩ := htree
    exact ⟨root, c, rfl, (h.fresh root List.mem_cons_self).2.2⟩

/-- The tree after `u_json_index`. -/
def indexed (map : Nat) (root : Cell) (c : Forest Cell) : Forest Cell :=
  (mark map none (.node { root with icur := 0 } c .nil)).2

section Index

variable {map : Nat} {root : Cell} {c : Forest Cell}

/-- The root of the indexed tree is named `.` and has the map; its children are named below it. -/
theorem indexed_eq (map : Nat) (root : Cell) (c : Forest Cell) : ∃ jo c',
    indexed map root c = .node jo c' .nil ∧ jo.map = some map ∧ jo.fqn = ['.'] ∧
      c' = (mark map (some (named map none { root with icur := 0 })) c).2 := by
  obtain ⟨jo', hcount, -, hmark⟩ := mark_node map none { root with icur := 0 } c .nil
  refine ⟨jo', _, ?_, hcount.map, hcount.fqn, rfl⟩
  rw [indexed, hmark]
  rfl

/-- Indexing never fails on a tree that is not indexed. -/
theorem index_eq (map : Nat) (c : Forest Cell) (hroot : root.map = none) :
    ∃ hmap₀ hmap, Hmap.easyNew Nat = some hmap₀ ∧
    Hmap.fill (entries (indexed map root c)) hmap₀ = some hmap ∧ hmap.Easy ∧
    index map ⟨.node root c .nil, none⟩ = some ⟨indexed map root c, some (map, hmap)⟩ := by
  obtain ⟨hmap₀, hnew, heasy₀, -⟩ := Hmap.easyNew_spec Nat
  obtain ⟨hmap, hfill, heasy⟩ := Hmap.fill_easy heasy₀ (entries (indexed map root c))
  refine ⟨hmap₀, hmap, hnew, hfill, heasy, ?_⟩
  obtain ⟨jo, c', heq, hmap', -, -⟩ := indexed_eq map root c
  have hset : setMap (some map) (indexed map root c) = indexed map root c := by
    rw [heq, setMap, ← hmap']
  unfold index
  simp only [hroot, Option.isSome_none, Bool.false_eq_true, if_false, hnew, walkIndex_eq,
    Option.bind_eq_bind, Option.bind_some]
  change (Option.map _ (Hmap.fill (entries (indexed map root c)) hmap₀)).bind _ = _
  rw [hfill]
  change some (Doc.mk (setMap (some map) (indexed map root c)) _) = _
  rw [hset]

/-- What a node allows that has no pointer to a map: a new key, and a new child if it is a
container. -/
def Modifiable (t : Forest Cell) : Prop := ∀ p : Ptr, p.tree = t →
  (∀ key : List Char, key.length < tokenSz → (p.setKey (some key)).isSome) ∧
  (isContainer p.jo.type → ∀ jo children, (p.add jo children).isSome) ∧ p.remove.isSome

/-- Without a pointer to a map anywhere, the tree may be changed everywhere. -/
theorem modifiable_of_unmarked {t : Forest Cell} (h : ∀ jo ∈ t.toList, jo.map = none) :
    Modifiable t := by
  intro p hp
  have hmap : p.jo.map = none := h p.jo (hp ▸ Forest.mem_plug List.mem_cons_self)
  refine ⟨fun key hkey => ?_, fun htype jo children => ?_, ?_⟩
  · simp [Ptr.setKey, hmap, strlcpy, hkey]
  · simp [Ptr.add, hmap, htype]
  · simp [Ptr.remove, hmap]

/-- What is expected of `d`, the document when it has been un-indexed: `before` is the indexed tree,
and `map` where its map was. -/
structure Restored (map : Nat) (before : Forest Cell) (d : Doc) : Prop where
  modifiable : Modifiable d.tree
  unmarked : ∀ jo ∈ d.tree.toList, jo.map ≠ some map
  renamed : ∀ map', ∃ d', index map' d = some d' ∧
    d'.tree.toList.map Cell.fqn = before.toList.map Cell.fqn

/-- What un-indexing an indexed tree leaves: only the root forgets the map. -/
theorem unindex_indexed (hmap : NameMap) : unindex ⟨indexed map root c, some (map, hmap)⟩ =
    ⟨setMap none (indexed map root c), none⟩ := by
  obtain ⟨jo, c', heq, hmap', -, -⟩ := indexed_eq map root c
  rw [heq]
  simp [unindex, hmap']

/-- The children keep their pointers to the map. -/
theorem marked_child (map : Nat) (root : Cell) (hc : c ≠ .nil) :
    ∃ jo ∈ (setMap none (indexed map root c)).toList, jo.map = some map := by
  obtain ⟨jo, c', heq, -, -, hc'⟩ := indexed_eq map root c
  obtain ⟨hmaps, haddrs⟩ := mark_map map (some (named map none { root with icur := 0 })) c
  rw [← hc'] at hmaps haddrs
  have hne : c'.toList ≠ [] := by
    intro hnil
    rw [hnil, List.map_nil, eq_comm, List.map_eq_nil_iff, Forest.toList_eq_nil] at haddrs
    exact hc haddrs
  obtain ⟨child, rest, hlist⟩ := List.exists_cons_of_ne_nil hne
  have hchild : child ∈ c'.toList := hlist ▸ List.mem_cons_self
  refine ⟨child, ?_, hmaps child hchild⟩
  rw [heq, setMap, Forest.toList_node]
  exact List.mem_cons_of_mem _ (List.mem_append_left _ hchild)

/-- **An index is undone exactly on a tree that is only its root.**  `u_json_unindex` frees the map
and clears the pointer to it of the node that it is given, and does not go down: every node below
the root keeps a pointer to the map that has been freed. -/
theorem unindex_iff {t : Forest Cell} (h : Decoded t) (map : Nat) :
    (∃ d, index map ⟨t, none⟩ = some d ∧ Restored map d.tree (unindex d)) ↔
      ∃ root, t = .node root .nil .nil := by
  obtain ⟨root, c, rfl, hroot⟩ := h.exists_root
  obtain ⟨-, hmap, -, -, -, hindex⟩ := index_eq map c hroot
  constructor
  · rintro ⟨d, hd, hrestored⟩
    rw [hindex] at hd
    obtain rfl := Option.some.inj hd
    refine ⟨root, ?_⟩
    by_contra hne
    have hc : c ≠ .nil := fun hc => hne (hc ▸ rfl)
    obtain ⟨jo, hjo, hmarked⟩ := marked_child map root hc
    have hunmarked := hrestored.unmarked jo
    rw [unindex_indexed] at hunmarked
    exact hunmarked hjo hmarked
  · rintro ⟨root', heq⟩
    obtain ⟨-, rfl, -⟩ := Forest.node.injEq .. |>.mp heq
    refine ⟨_, hindex, ?_⟩
    rw [unindex_indexed]
    obtain ⟨jo, c', hjo, -, hfqn, rfl⟩ := indexed_eq map root .nil
    rw [hjo]
    have hunmarked : ∀ x ∈ (setMap none (.node jo .nil .nil)).toList, x.map = none := by
      intro x hx
      obtain rfl := List.mem_singleton.mp hx
      rfl
    refine ⟨modifiable_of_unmarked hunmarked, fun x hx => ?_, fun map' => ?_⟩
    · rw [hunmarked x hx]
      exact Option.some_ne_none map |>.symm
    · obtain ⟨-, hmap', -, -, -, hindex'⟩ := @index_eq { jo with map := none } map' .nil rfl
      refine ⟨_, hindex', ?_⟩
      obtain ⟨jo', c'', hjo', -, hfqn', rfl⟩ := indexed_eq map' { jo with map := none } .nil
      change (indexed map' { jo with map := none } .nil).toList.map Cell.fqn = [jo.fqn]
      rw [hjo', hfqn]
      exact congrArg (fun fqn => [fqn]) hfqn'

end Index

/-- An empty array. -/
theorem unindex_empty : ∃ d, index 7 ⟨.node ⟨⟨.array, [], [], 0, 0⟩, 1, [], 0, none⟩ .nil
    .nil, none⟩ = some d ∧ Restored 7 d.tree (unindex d) := by
  have htext : Decoded (.node ⟨⟨.array, [], [], 0, 0⟩, 1, [], 0, none⟩ .nil .nil) :=
    ⟨⟨['[', ']'], ⟨⟨.array, [], [], 0, 0⟩, .nil⟩, rfl, rfl⟩, by decide, by decide⟩
  exact (unindex_iff htext 7).mpr ⟨_, rfl⟩

/-- The elements of an array keep their pointers to the map. -/
theorem unindex_pair : Decoded ptrOne.tree ∧
    ∃ d, index 7 ⟨ptrOne.tree, none⟩ = some d ∧ ¬ Restored 7 d.tree (unindex d) := by
  obtain ⟨-, hmap, -, -, -, hindex⟩ := @index_eq pairRoot 7 ptrOne.reach rfl
  refine ⟨decoded_pair, _, hindex, fun hrestored => ?_⟩
  obtain ⟨jo, hjo, hmarked⟩ := @marked_child ptrOne.reach 7 pairRoot (by decide)
  have hunmarked := hrestored.unmarked jo
  rw [unindex_indexed] at hunmarked
  exact hunmarked hjo hmarked

end Libu.Json
