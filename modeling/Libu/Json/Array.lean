/-
# Access to the elements of an array (`toolbox/json.c`)

`u_json_array_get_nth` walks the elements from the nearer end, and after `u_json_index` asks the
hash map for the name that the element must have.

The two ways to an element have nothing in common.  The walk counts, from the front or from the
back, down to the index, and relies on the count in the array.  The map relies on the names: on
their being built in the same way by the index and by the access, and on the first node of a name
being the one that is found.  The walk is right for every array that is not too large; the map needs
the second condition as well.

* §1: the count of every array of a decoded tree is that of its elements, as an `unsigned int`.
* §2 is the interface.
* §3 is the names by position, cut where the buffer ends; §4: which nodes of a tree are stored under
  their names.
* §5: every access finds its element exactly when no array has too many elements, and no element has
  the name of a node before it (`array_access_iff`).
-/
import Libu.Json.Names
import Mathlib.Data.Finset.Card

namespace Libu.Json

open Verif

/-! ## 1. Counts -/

/-- Every array counts its elements. -/
def Counts (f : Forest JsonNode) : Prop :=
  f.Everywhere fun jo c => jo.type = .array → jo.count = c.length % 2 ^ 32

/-- A node to which nothing has been added. -/
structure Blank (jo : Json) : Prop where
  children : jo.children = .nil
  count : jo.count = 0

theorem Blank.counts {jo : Json} (h : Blank jo) : Counts jo.root := by
  refine ⟨fun _ => ?_, ?_, trivial⟩
  · rw [h.count, h.children]
    rfl
  · rw [h.children]
    trivial

theorem counts_root {jo : Json} : Counts jo.root ↔
    (jo.type = .array → jo.count = jo.children.length % 2 ^ 32) ∧ Counts jo.children := by
  rw [Counts, Json.root, Forest.everywhere_node]
  exact and_congr_right fun _ => and_iff_left trivial

/-- `u_json_add` counts the element it adds. -/
theorem counts_add {jo elem jo' : Json} (hjo : Counts jo.root) (helem : Counts elem.root)
    (h : jo.add elem = some jo') : Counts jo'.root := by
  unfold add at h
  split at h
  · cases h
  · obtain rfl := Option.some.inj h
    obtain ⟨hcount, hchildren⟩ := counts_root.mp hjo
    refine counts_root.mpr ⟨fun harr => ?_, Forest.everywhere_append.mpr ⟨hchildren, helem⟩⟩
    have harr' : jo.type = .array := harr
    change (if jo.type = .array then (jo.count + 1) % 2 ^ 32 else jo.count) = _
    rw [if_pos harr', hcount harr', Forest.length_append, Json.root, Forest.length, Forest.length]
    omega

section Matchers

variable {value entry : Matcher} {l l' : Lexer} {jo : Json} {r : Option Json}

/-- A matcher that fills a blank node. -/
def ValueCounts (value : Matcher) : Prop :=
  ∀ {l jo l' r}, Blank jo → value l (some jo) = .ok (l', r) →
  ∃ jo', r = some jo' ∧ Counts jo'.root

/-- A matcher that adds to a node. -/
def EntryCounts (entry : Matcher) : Prop :=
  ∀ {l jo l' r}, Counts jo.root → entry l (some jo) = .ok (l', r) →
  ∃ jo', r = some jo' ∧ Counts jo'.root

theorem orErr_eq_ok {α : Type} {o : Option α} {a : α} : orErr o = .ok a ↔ o = some a := by
  cases o <;> simp [orErr]

theorem store_blank {type : JsonType} (hjo : Blank jo) (h : store l jo type = .ok (l', r)) :
    ∃ jo', r = some jo' ∧ Blank jo' := by
  obtain ⟨m, -, h⟩ := bind_eq_ok.mp h
  obtain ⟨jo', hset, h⟩ := bind_eq_ok.mp h
  obtain ⟨-, rfl⟩ := Prod.mk.inj (Except.ok.inj h)
  refine ⟨jo', rfl, ?_⟩
  have hval : ((jo.setType type).setVal m) = some jo' := orErr_eq_ok.mp hset
  unfold setVal at hval
  split at hval
  · obtain ⟨v, -, hval⟩ := Option.bind_eq_some_iff.mp hval
    obtain rfl := Option.some.inj hval
    exact ⟨hjo.children, hjo.count⟩
  · obtain ⟨v, -, hval⟩ := Option.bind_eq_some_iff.mp hval
    obtain rfl := Option.some.inj hval
    exact ⟨hjo.children, hjo.count⟩
  · obtain rfl := Option.some.inj hval
    exact ⟨hjo.children, hjo.count⟩

theorem valueCounts_number : ValueCounts matchNumber := by
  intro l jo l' r hjo h
  obtain ⟨l₁, -, h⟩ := bind_eq_ok.mp h
  obtain ⟨l₂, -, h⟩ := bind_eq_ok.mp h
  obtain ⟨l₃, -, h⟩ := bind_eq_ok.mp h
  obtain ⟨jo', rfl, hblank⟩ := store_blank hjo h
  exact ⟨jo', rfl, hblank.counts⟩

theorem valueCounts_string : ValueCounts matchString := by
  intro l jo l' r hjo h
  unfold matchString at h
  split at h
  · cases h
  · obtain ⟨l₁, -, h⟩ := bind_eq_ok.mp h
    obtain ⟨l₂, -, h⟩ := bind_eq_ok.mp h
    obtain ⟨l₃, -, h⟩ := bind_eq_ok.mp h
    obtain ⟨jo', rfl, hblank⟩ := store_blank hjo h
    exact ⟨jo', rfl, hblank.counts⟩

theorem valueCounts_seq (type : JsonType) (first : Char) (rem : List Char) :
    ValueCounts (matchSeq type first rem) := by
  intro l jo l' r hjo h
  unfold matchSeq at h
  split at h
  · cases h
  · obtain ⟨l₁, -, h⟩ := bind_eq_ok.mp h
    obtain ⟨l₂, -, h⟩ := bind_eq_ok.mp h
    obtain ⟨-, rfl⟩ := Prod.mk.inj (Except.ok.inj h)
    have hblank : Blank (jo.setType type) := ⟨hjo.children, hjo.count⟩
    exact ⟨_, rfl, hblank.counts⟩

theorem newBelow_blank (h : newBelow (some jo) = .ok r) : ∃ elem, r = some elem ∧ Blank elem := by
  obtain ⟨elem, helem, h⟩ := bind_eq_ok.mp h
  obtain rfl := Except.ok.inj h
  refine ⟨elem, rfl, ?_⟩
  have hdepth := orErr_eq_ok.mp helem
  unfold setDepth at hdepth
  split at hdepth
  · cases hdepth
  · obtain rfl := Option.some.inj hdepth
    exact ⟨rfl, rfl⟩

theorem addTo_counts {elem : Json} (hjo : Counts jo.root) (helem : Counts elem.root)
    (h : addTo (some jo) (some elem) = .ok r) : ∃ jo', r = some jo' ∧ Counts jo'.root := by
  obtain ⟨jo', hadd, h⟩ := bind_eq_ok.mp h
  obtain rfl := Except.ok.inj h
  exact ⟨jo', rfl, counts_add hjo helem (orErr_eq_ok.mp hadd)⟩

theorem entryCounts_elem (hvalue : ValueCounts value) : EntryCounts (matchElem value) := by
  intro l jo l' r hjo h
  obtain ⟨elem, hnew, h⟩ := bind_eq_ok.mp h
  obtain ⟨elem, rfl, hblank⟩ := newBelow_blank hnew
  obtain ⟨⟨l₁, elem'⟩, hval, h⟩ := bind_eq_ok.mp h
  obtain ⟨elem', rfl, helem⟩ := hvalue hblank hval
  obtain ⟨jo', hadd, h⟩ := bind_eq_ok.mp h
  obtain ⟨-, rfl⟩ := Prod.mk.inj (Except.ok.inj h)
  exact addTo_counts hjo helem hadd

theorem setName_blank (hjo : Blank jo) (h : setName l (some jo) = .ok r) :
    ∃ jo', r = some jo' ∧ Blank jo' := by
  obtain ⟨m, -, h⟩ := bind_eq_ok.mp h
  obtain ⟨jo', hkey, h⟩ := bind_eq_ok.mp h
  obtain rfl := Except.ok.inj h
  refine ⟨jo', rfl, ?_⟩
  obtain ⟨key, -, hkey⟩ := Option.bind_eq_some_iff.mp (orErr_eq_ok.mp hkey)
  obtain rfl := Option.some.inj hkey
  exact ⟨hjo.children, hjo.count⟩

theorem entryCounts_member (hvalue : ValueCounts value) : EntryCounts (matchMember value) := by
  intro l jo l' r hjo h
  unfold matchMember at h
  split at h
  · cases h
  · obtain ⟨l₁, -, h⟩ := bind_eq_ok.mp h
    obtain ⟨pair, hnew, h⟩ := bind_eq_ok.mp h
    obtain ⟨pair, rfl, hblank⟩ := newBelow_blank hnew
    obtain ⟨pair', hname, h⟩ := bind_eq_ok.mp h
    obtain ⟨pair', rfl, hblank'⟩ := setName_blank hblank hname
    obtain ⟨l₂, -, h⟩ := bind_eq_ok.mp h
    split at h
    · cases h
    · obtain ⟨l₃, -, h⟩ := bind_eq_ok.mp h
      obtain ⟨⟨l₄, pair''⟩, hval, h⟩ := bind_eq_ok.mp h
      obtain ⟨pair'', rfl, hpair⟩ := hvalue hblank' hval
      obtain ⟨jo', hadd, h⟩ := bind_eq_ok.mp h
      obtain ⟨-, rfl⟩ := Prod.mk.inj (Except.ok.inj h)
      exact addTo_counts hjo hpair hadd

theorem entryCounts_loop {closing : Char} (hentry : EntryCounts entry) (n : Nat) :
    EntryCounts (containerLoop closing entry n) := by
  induction n with
  | zero =>
    intro l jo l' r _ h
    cases h
  | succ n ih =>
    intro l jo l' r hjo h
    obtain ⟨⟨l₁, c⟩, -, h⟩ := bind_eq_ok.mp h
    dsimp only at h
    split at h
    · obtain ⟨-, rfl⟩ := Prod.mk.inj (Except.ok.inj h)
      exact ⟨jo, rfl, hjo⟩
    · obtain ⟨⟨l₂, jo₁⟩, hturn, h⟩ := bind_eq_ok.mp h
      obtain ⟨jo₁, rfl, hjo₁⟩ := hentry hjo hturn
      obtain ⟨l₃, -, h⟩ := bind_eq_ok.mp h
      dsimp only at h
      split at h
      · exact ih hjo₁ h
      · obtain ⟨-, rfl⟩ := Prod.mk.inj (Except.ok.inj h)
        exact ⟨jo₁, rfl, hjo₁⟩

theorem valueCounts_container {type : JsonType} {opening closing : Char}
    (hentry : EntryCounts entry) : ValueCounts (matchContainer type opening closing entry) := by
  intro l jo l' r hjo h
  unfold matchContainer at h
  split at h
  · cases h
  · obtain ⟨⟨l₁, jo₁⟩, hloop, h⟩ := bind_eq_ok.mp h
    have hblank : Blank (jo.setType type) := ⟨hjo.children, hjo.count⟩
    obtain ⟨jo₁, rfl, hjo₁⟩ := entryCounts_loop hentry _ hblank.counts hloop
    dsimp only at h
    split at h
    · cases h
    · obtain ⟨-, rfl⟩ := Prod.mk.inj (Except.ok.inj h)
      exact ⟨jo₁, rfl, hjo₁⟩

theorem valueCounts_value (n : Nat) : ValueCounts (matchValue n) := by
  induction n with
  | zero =>
    intro l jo l' r _ h
    cases h
  | succ n ih =>
    intro l jo l' r hjo h
    unfold matchValue at h
    split at h
    · exact valueCounts_string hjo h
    · split at h
      · exact valueCounts_number hjo h
      · split at h
        · exact valueCounts_container (entryCounts_member ih) hjo h
        · split at h
          · exact valueCounts_container (entryCounts_elem ih) hjo h
          · split at h
            · exact valueCounts_seq _ _ _ hjo h
            · split at h
              · exact valueCounts_seq _ _ _ hjo h
              · split at h
                · exact valueCounts_seq _ _ _ hjo h
                · cases h

end Matchers

/-- **The arrays of a decoded tree count their elements.** -/
theorem decode_counts {s : List Char} {jo : Json} (h : decode s = .ok jo) : Counts jo.root := by
  obtain ⟨r, hparse, h⟩ := bind_eq_ok.mp h
  obtain rfl := orErr_eq_ok.mp h
  have hblank : Blank new := ⟨rfl, rfl⟩
  unfold doParse at hparse
  split at hparse
  · cases hparse
  · split at hparse
    · obtain ⟨⟨l, jo'⟩, hobj, hparse⟩ := bind_eq_ok.mp hparse
      obtain rfl := Except.ok.inj hparse
      obtain ⟨jo'', heq, hcounts⟩ := valueCounts_container
        (entryCounts_member (valueCounts_value _)) hblank hobj
      obtain rfl := Option.some.inj heq
      exact hcounts
    · split at hparse
      · obtain ⟨⟨l, jo'⟩, harr, hparse⟩ := bind_eq_ok.mp hparse
        obtain rfl := Except.ok.inj hparse
        obtain ⟨jo'', heq, hcounts⟩ := valueCounts_container
          (entryCounts_elem (valueCounts_value _)) hblank harr
        obtain rfl := Option.some.inj heq
        exact hcounts
      · cases hparse

/-! ## 2. Access -/

/-- The parent of the node that a pointer points to. -/
def parentOf : List (Crumb Cell) → Option Cell
  | [] => none
  | .sibling _ _ :: z => parentOf z
  | .parent a _ :: _ => some a

/-- `u_json_cache_get`, where `hmap` is the hash map of the index.  No other one may be read. -/
def Ptr.cacheGet (p : Ptr) (hmap : Option (Nat × NameMap)) (name : List Char) :
    Option (Option Nat) :=
  match p.jo.map with
  | none => some none
  | some map => do
    let (addr, hmap) ← hmap
    if addr = map then
      let (res, hmap) ← hmap.easyGet name
      -- the top knows fully qualified names only
      if (parentOf p.above).isNone ∨ res.isSome then return res
      else
        let (res, _) ← hmap.easyGet (snprintf (p.jo.fqn ++ name))
        return res
    else none

/-- The loops of `u_json_array_get_nth`, which walk from one end of the list to the index. -/
def nthElem : Nat → List Cell → Option Cell
  | _, [] => none
  | 0, elem :: _ => some elem
  | n + 1, _ :: elems => nthElem n elems

/-- `u_json_array_get_nth`: by the map if the tree is indexed, and otherwise a walk from the nearer
end. -/
def Ptr.arrayGetNth (p : Ptr) (hmap : Option (Nat × NameMap)) (n : UInt32) : Option (Option Nat) :=
  let elems := p.children.heads.map Prod.fst
  if p.jo.type ≠ .array then some none
  else if p.jo.count ≤ n.toNat then some none
  else if p.jo.map.isSome then
    p.cacheGet hmap (snprintf (p.jo.fqn ++ '[' :: (Nat.toDigits 10 n.toNat ++ [']'])))
  else if p.jo.count / 2 < n.toNat then
    some ((nthElem (p.jo.count - (n.toNat + 1)) elems.reverse).map Cell.addr)
  else some ((nthElem n.toNat elems).map Cell.addr)

/-- The walk from the front comes to the element at the index. -/
theorem nthElem_eq (n : Nat) (l : List Cell) : nthElem n l = l[n]? := by
  induction l generalizing n with
  | nil => cases n <;> rfl
  | cons elem elems ih =>
    cases n with
    | zero => rfl
    | succ n => exact ih n

/-- Every access to the array gives the element at the index, and NULL behind the last one. -/
def NthAgrees (hmap : Option (Nat × NameMap)) (p : Ptr) : Prop :=
  ∀ n : UInt32, p.arrayGetNth hmap n = some ((p.children.heads[n.toNat]?).map fun m => m.1.addr)

section Walk

variable {p : Ptr} {hmap : Option (Nat × NameMap)}

/-- The element at an index, by its address. -/
theorem elems_getElem? (c : Forest Cell) (n : Nat) :
    ((c.heads.map Prod.fst)[n]?).map Cell.addr = (c.heads[n]?).map fun m => m.1.addr := by
  rw [List.getElem?_map, Option.map_map]
  rfl

/-- An index that the count excludes gives NULL. -/
theorem arrayGetNth_of_le (htype : p.jo.type = .array) {n : UInt32} (hn : p.jo.count ≤ n.toNat) :
    p.arrayGetNth hmap n = some none := by
  simp [Ptr.arrayGetNth, htype, hn]

/-- **The walks from either end** come to the element, unless the count has wrapped. -/
theorem nthAgrees_walk (htype : p.jo.type = .array) (hmap' : p.jo.map = none)
    (hcount : p.jo.count = p.children.length % 2 ^ 32) :
    NthAgrees hmap p ↔ p.children.length < 2 ^ 32 := by
  have hlen : (p.children.heads.map Prod.fst).length = p.children.length := by
    rw [List.length_map, Forest.length_heads]
  constructor
  · intro hagree
    by_contra hge
    have hlt : p.jo.count < 2 ^ 32 := by omega
    -- the index of the element that the count stops before
    have hn : (UInt32.ofNat p.jo.count).toNat = p.jo.count := by
      rw [UInt32.toNat_ofNat']
      exact Nat.mod_eq_of_lt hlt
    have hnth := hagree (UInt32.ofNat p.jo.count)
    rw [arrayGetNth_of_le htype (by omega), hn, ← elems_getElem?,
      List.getElem?_eq_getElem (by omega : p.jo.count < (p.children.heads.map
        Prod.fst).length)] at hnth
    cases hnth
  · intro hlt n
    rw [Nat.mod_eq_of_lt hlt] at hcount
    by_cases hn : p.jo.count ≤ n.toNat
    · rw [arrayGetNth_of_le htype hn, ← elems_getElem?, List.getElem?_eq_none (by omega)]
      rfl
    · rw [← elems_getElem?]
      simp only [Ptr.arrayGetNth, htype, hn, hmap', ne_eq, not_true_eq_false, if_false,
        Option.isSome_none, Bool.false_eq_true, nthElem_eq]
      split
      · rw [List.getElem?_reverse (by omega)]
        have hidx : (p.children.heads.map Prod.fst).length - 1 -
          (p.jo.count - (n.toNat + 1)) = n.toNat := by
          omega
        rw [hidx]
      · rfl

end Walk

/-! ## 3. Names -/

/-- No array has more elements than an `unsigned int` counts, so no count has wrapped around. -/
def Narrow (f : Forest JsonNode) : Prop :=
  f.Everywhere fun jo c => jo.type = .array → c.length < 2 ^ 32

/-- The names of nodes whose parent has the name `fqn`, in the order of the text, each with whether
it is that of an element of an array. -/
def nameList (type : JsonType) (fqn : List Char) : Nat → Forest JsonNode → List (List Char × Bool)
  | _, .nil => []
  | i, .node jo children siblings =>
    let x := snprintf (fqn ++ segment type i jo.key)
    (x, type = .array) :: (nameList jo.type x 0 children ++ nameList type fqn (i + 1) siblings)

/-- The names of the whole tree, each with whether it is that of an element of an array. -/
def treeNames : Forest JsonNode → List (List Char × Bool)
  | .nil => []
  | .node root children _ => (['.'], false) :: nameList root.type ['.'] 0 children

/-- The nodes have the names that go with their positions, from the index `i` of the first one on.
-/
def NamesFrom (type : JsonType) (fqn : List Char) : Nat → Forest Cell → Prop
  | _, .nil => True
  | i, .node jo c s =>
    jo.fqn = snprintf (fqn ++ segment type i jo.key) ∧ NamesFrom jo.type jo.fqn 0 c ∧
      NamesFrom type fqn (i + 1) s

/-- The nodes, each with whether it is an element of an array. -/
def flagged (type : JsonType) : Forest Cell → List (Cell × Bool)
  | .nil => []
  | .node jo c s => (jo, type = .array) :: (flagged jo.type c ++ flagged type s)

section Names

variable {map : Nat} {p : Cell} {type : JsonType} {fqn : List Char} {i : Nat} {f : Forest Cell}

/-- **Naming follows the positions**, as the counter in an array is the index of the next element.
-/
theorem mark_namesFrom (hp : Naming p i) (hi : p.type = .array → i + f.length ≤ 2 ^ 32)
    (hnarrow : Narrow (f.map Cell.toJsonNode)) (hcont : Contained (f.map Cell.toJsonNode))
    (hfresh : ∀ jo ∈ f.toList, jo.icur = 0) : NamesFrom p.type p.fqn i (mark map (some p) f).2 := by
  induction f generalizing p i with
  | nil => trivial
  | node jo c s ihc ihs =>
    obtain ⟨hjo, hc, hs⟩ := hcont
    obtain ⟨hwidth, hnc, hns⟩ := hnarrow
    rw [Forest.length] at hi
    obtain ⟨p', hp', htype, hfqn, hnaming, hname, hzero⟩ :=
      hp.named (fun h => by have := hi h; omega) jo
    obtain ⟨jo', hcount, -, hmark⟩ := mark_node map (some p) jo c s
    have hnode : (named map (some p) jo).toJsonNode = jo.toJsonNode := name_node.1
    have hnode' : jo'.toJsonNode = jo.toJsonNode := hcount.node.trans hnode
    have htype' : (named map (some p) jo).type = jo.type := congrArg JsonNode.type hnode
    rw [hmark]
    refine ⟨?_, ?_, ?_⟩
    · have hkey : jo'.key = jo.key := congrArg JsonNode.key hnode'
      rw [hkey]
      exact hcount.fqn.trans hname
    · rcases hjo with hnil | hjo
      · obtain rfl := Forest.map_eq_nil.mp hnil
        trivial
      · have hn : Naming (named map (some p) jo) 0 := by
          refine ⟨?_, fun _ => hzero (hfresh jo List.mem_cons_self)⟩
          rw [htype']
          exact hjo
        have hchildren := ihc hn (fun harr => ?_) hnc hc fun x hx => hfresh x ?_
        · rwa [htype', ← (congrArg JsonNode.type hnode' : jo'.type = jo.type),
            ← hcount.fqn] at hchildren
        · have hlt := hwidth (htype'.symm.trans harr)
          rw [Forest.length_map] at hlt
          omega
        · exact List.mem_cons_of_mem _ (List.mem_append_left _ hx)
    · rw [hp', ← htype, ← hfqn]
      refine ihs hnaming (fun harr => ?_) hns hs fun x hx => hfresh x ?_
      · have := hi (htype ▸ harr)
        omega
      · exact List.mem_cons_of_mem _ (List.mem_append_right _ hx)

/-- Naming changes nothing that the text says. -/
theorem mark_nodes (map : Nat) (p : Option Cell) (f : Forest Cell) :
    (mark map p f).2.map Cell.toJsonNode = f.map Cell.toJsonNode := by
  induction f generalizing p with
  | nil => rfl
  | node jo c s ihc ihs =>
    obtain ⟨jo', hcount, -, hmark⟩ := mark_node map p jo c s
    rw [hmark, Forest.map_node, Forest.map_node, ihc, ihs, hcount.node]
    exact congrArg (fun a => Forest.node a _ _) name_node.1

/-- The flags aside, these are the nodes in the order of the text. -/
theorem flagged_fst (type : JsonType) (f : Forest Cell) :
    (flagged type f).map Prod.fst = f.toList := by
  induction f generalizing type with
  | nil => rfl
  | node jo c s ihc ihs =>
    rw [flagged, List.map_cons, List.map_append, ihc, ihs]
    rfl

/-- The names of the nodes are those by position. -/
theorem NamesFrom.flagged (h : NamesFrom type fqn i f) :
    (Json.flagged type f).map (fun e => (e.1.fqn, e.2)) =
    nameList type fqn i (f.map Cell.toJsonNode) := by
  induction f generalizing type fqn i with
  | nil => rfl
  | node jo c s ihc ihs =>
    obtain ⟨hfqn, hc, hs⟩ := h
    rw [Json.flagged, List.map_cons, List.map_append, ihc hc, ihs hs, hfqn]
    rfl

/-- The name of an element of the list is that of its position. -/
theorem NamesFrom.heads (h : NamesFrom type fqn i f) {n : Nat} {m : Cell × Forest Cell}
    (hm : f.heads[n]? = some m) : m.1.fqn = snprintf (fqn ++ segment type (i + n) m.1.key) := by
  induction f generalizing i n with
  | nil => cases hm
  | node jo c s _ ihs =>
    cases n with
    | zero =>
      obtain rfl := Option.some.inj hm
      exact h.1
    | succ n =>
      rw [ihs h.2.2 hm]
      congr 3
      omega

/-- The elements of every array have the names that an access asks for. -/
theorem NamesFrom.everywhere (h : NamesFrom type fqn i f) : f.Everywhere fun jo c =>
    ∀ n m, c.heads[n]? = some m → m.1.fqn = snprintf (jo.fqn ++ segment jo.type n m.1.key) := by
  induction f generalizing type fqn i with
  | nil => trivial
  | node jo c s ihc ihs =>
    obtain ⟨-, hc, hs⟩ := h
    refine ⟨fun n m hm => ?_, ihc hc, ihs hs⟩
    rw [hc.heads hm, Nat.zero_add]

/-- Those that are flagged are the elements of arrays. -/
theorem forall_flagged {Q : Cell → Prop} : (∀ e ∈ flagged type f, e.2 = true → Q e.1) ↔
    (type = .array → ∀ m ∈ f.heads, Q m.1) ∧
      f.Everywhere fun jo c => jo.type = .array → ∀ m ∈ c.heads, Q m.1 := by
  induction f generalizing type with
  | nil => simp [flagged, Forest.heads]
  | node jo c s ihc ihs =>
    rw [flagged, List.forall_mem_cons, List.forall_mem_append, ihc, ihs, Forest.everywhere_node,
      Forest.heads, List.forall_mem_cons, decide_eq_true_eq]
    constructor
    · rintro ⟨hjo, ⟨hc, hbelow⟩, hs, hrest⟩
      exact ⟨fun harr => ⟨hjo harr, hs harr⟩, hc, hbelow, hrest⟩
    · rintro ⟨hall, hc, hbelow, hrest⟩
      exact ⟨fun harr => (hall harr).1, ⟨hc, hbelow⟩, fun harr => (hall harr).2, hrest⟩

end Names

/-! ## 4. Stored names -/

/-- No element of an array has the name of a node before it, and the map has room for it. -/
def Clear (seen : List (List Char)) : List (List Char × Bool) → Prop
  | [] => True
  | (x, elem) :: l =>
    (elem = true → x ∉ seen ∧ seen.toFinset.card < Hmap.capacity) ∧ Clear (x :: seen) l

instance decidableClear : ∀ seen l, Decidable (Clear seen l)
  | _, [] => .isTrue trivial
  | seen, (x, elem) :: l =>
    have := decidableClear (x :: seen) l
    inferInstanceAs (Decidable ((elem = true → x ∉ seen ∧ seen.toFinset.card < Hmap.capacity) ∧
      Clear (x :: seen) l))

section Stored

variable {map : Nat} {t f : Forest Cell} {p : Ptr} {hmap : NameMap}

/-- A put finds a new name and room, by the names that are stored as by all that came before. -/
theorem new_iff {seen stored : List (List Char)} {x : List Char} (hnodup : stored.Nodup)
    (hsub : stored ⊆ seen) (hall : stored.length < Hmap.capacity → seen ⊆ stored) :
    ¬ (x ∈ stored ∨ Hmap.capacity ≤ stored.length) ↔ x ∉ seen ∧
    seen.toFinset.card < Hmap.capacity := by
  have hcard : stored.toFinset.card = stored.length := List.toFinset_card_of_nodup hnodup
  have hle : stored.toFinset ⊆ seen.toFinset := fun y hy => List.mem_toFinset.mpr
    (hsub (List.mem_toFinset.mp hy))
  constructor
  · intro h
    obtain ⟨hx, hroom⟩ := not_or.mp h
    have hback := hall (Nat.lt_of_not_le hroom)
    have heq : seen.toFinset = stored.toFinset :=
      (Finset.Subset.antisymm hle fun y hy => List.mem_toFinset.mpr
        (hback (List.mem_toFinset.mp hy))).symm
    exact ⟨fun hmem => hx (hback hmem), by rw [heq, hcard]; exact Nat.lt_of_not_le hroom⟩
  · rintro ⟨hx, hroom⟩ (hmem | hfull)
    · exact hx (hsub hmem)
    · have := Finset.card_le_card hle
      omega

/-- The elements of arrays are stored exactly when their names are clear. -/
theorem clear_iff {seen stored : List (List Char)} {l : List (Cell × Bool)} (hnodup : stored.Nodup)
    (hsub : stored ⊆ seen) (hall : stored.length < Hmap.capacity → seen ⊆ stored)
    (haddrs : (l.map fun e => e.1.addr).Nodup) :
    Clear seen (l.map fun e => (e.1.fqn, e.2)) ↔
      ∀ e ∈ l, e.2 = true → (e.1.fqn, e.1.addr) ∈ Hmap.kept stored
      (l.map fun e => (e.1.fqn, e.1.addr)) := by
  induction l generalizing seen stored with
  | nil => exact ⟨fun _ e he => (by cases he), fun _ => trivial⟩
  | cons e l ih =>
    rw [List.map_cons, List.nodup_cons] at haddrs
    obtain ⟨hnew, haddrs⟩ := haddrs
    have htail : ∀ stored, (e.1.fqn, e.1.addr) ∉ Hmap.kept stored
      (l.map fun e => (e.1.fqn, e.1.addr)) := by
      intro stored hmem
      obtain ⟨e', he', heq⟩ := List.mem_map.mp ((Hmap.kept_sublist _ _).subset hmem)
      exact hnew (List.mem_map.mpr ⟨e', he', congrArg Prod.snd heq⟩)
    have hiff := @new_iff seen stored e.1.fqn hnodup hsub hall
    have hsub' : stored ⊆ e.1.fqn :: seen := fun y hy => List.mem_cons_of_mem _ (hsub hy)
    rw [List.map_cons, List.map_cons, Clear, Hmap.kept, List.forall_mem_cons]
    by_cases hold : e.1.fqn ∈ stored ∨ Hmap.capacity ≤ stored.length
    · rw [if_pos hold, ← hiff, ih hnodup hsub' (fun hroom => ?_) haddrs]
      · refine and_congr_left' (forall_congr' fun _ => ⟨fun h => absurd hold h,
          fun h => absurd h (htail stored)⟩)
      · have hx := hold.resolve_right (Nat.not_le.mpr hroom)
        exact List.cons_subset.mpr ⟨hx, hall hroom⟩
    · rw [if_neg hold, ← hiff, ih (List.nodup_cons.mpr ⟨fun h => hold (.inl h), hnodup⟩)
        (List.cons_subset_cons _ hsub) (fun hroom => ?_) haddrs]
      · refine and_congr (iff_of_true (fun _ => hold) fun _ => List.mem_cons_self) ?_
        refine forall₂_congr fun e' he' => forall_congr'
          fun _ => ⟨List.mem_cons_of_mem _, fun hmem => ?_⟩
        -- another node has another address
        refine (List.mem_cons.mp hmem).resolve_left fun heq => hnew ?_
        exact List.mem_map.mpr ⟨e', he', congrArg Prod.snd heq⟩
      · exact List.cons_subset_cons _ (hall (Nat.lt_of_not_le (not_or.mp hold).2))

/-- What a lookup by the name of an element finds, if the name is in the map. -/
theorem cacheGet_some (heasy : hmap.Easy) (hp : p.jo.map = some map) {x : List Char} {addr : Nat}
    (hmem : (x, addr) ∈ hmap.pairs) : p.cacheGet (some (map, hmap)) x = some (some addr) := by
  obtain ⟨found, hget, hfound⟩ := Hmap.easyGet_spec heasy x
  obtain rfl := (hfound addr).mpr hmem
  simp [Ptr.cacheGet, hp, hget]

/-- What a lookup finds is in the map. -/
theorem cacheGet_sound (heasy : hmap.Easy) (hp : p.jo.map = some map) {x : List Char} {addr : Nat}
    (h : p.cacheGet (some (map, hmap)) x = some (some addr)) : ∃ y, (y, addr) ∈ hmap.pairs := by
  obtain ⟨found, hget, hfound⟩ := Hmap.easyGet_spec heasy x
  obtain ⟨found', hget', hfound'⟩ := Hmap.easyGet_spec heasy (snprintf (p.jo.fqn ++ x))
  simp only [Ptr.cacheGet, hp, hget, hget', Option.bind_eq_bind, Option.bind_some, if_true] at h
  split at h
  · obtain rfl := Option.some.inj h
    exact ⟨x, (hfound addr).mp rfl⟩
  · obtain rfl := Option.some.inj h
    exact ⟨_, (hfound' addr).mp rfl⟩

/-- **Access through the cache** finds the elements that are stored under their names. -/
theorem nthAgrees_cache (heasy : hmap.Easy) (hstored : hmap.pairs ⊆ entries t)
    (hnodup : (addrs t).Nodup)
    (htree : p.tree = t) (htype : p.jo.type = .array) (hp : p.jo.map = some map)
    (hcount : p.jo.count = p.children.length) (hlt : p.children.length < 2 ^ 32)
    (hnames : ∀ n m, p.children.heads[n]? = some m → m.1.fqn = snprintf
      (p.jo.fqn ++ segment p.jo.type n m.1.key)) :
    NthAgrees (some (map, hmap)) p ↔ ∀ m ∈ p.children.heads, (m.1.fqn, m.1.addr) ∈ hmap.pairs := by
  have hlen := p.children.length_heads
  -- an index in range goes to the cache
  have haccess : ∀ {n : UInt32} {m}, p.children.heads[n.toNat]? = some m →
      p.arrayGetNth (some (map, hmap)) n = p.cacheGet (some (map, hmap)) m.1.fqn := by
    intro n m hm
    obtain ⟨hn, -⟩ := List.getElem?_eq_some_iff.mp hm
    have hseg : m.1.fqn = snprintf (p.jo.fqn ++ '[' :: (Nat.toDigits 10 n.toNat ++ [']'])) := by
      rw [hnames _ m hm, htype]
      rfl
    rw [hseg]
    simp only [Ptr.arrayGetNth, htype, hp, ne_eq, not_true_eq_false, if_false,
      Option.isSome_some, if_true]
    rw [if_neg (by omega)]
  constructor
  · intro hagree m hm
    obtain ⟨k, hk⟩ := List.getElem?_of_mem hm
    obtain ⟨hklt, -⟩ := List.getElem?_eq_some_iff.mp hk
    have hn : (UInt32.ofNat k).toNat = k := by
      rw [UInt32.toNat_ofNat']
      exact Nat.mod_eq_of_lt (by omega)
    have hfound := hagree (UInt32.ofNat k)
    rw [← hn] at hk
    rw [haccess hk, hk] at hfound
    obtain ⟨y, hy⟩ := cacheGet_sound heasy hp hfound
    -- no other node has its address
    obtain ⟨jo, hjo, heq⟩ := List.mem_map.mp (hstored hy)
    have hmem : m.1 ∈ t.toList := by
      rw [← htree]
      refine Forest.mem_plug ?_
      rw [Ptr.reach, Forest.toList_node]
      exact List.mem_cons_of_mem _ (List.mem_append_left _ (Forest.mem_heads hm))
    obtain ⟨hfqn, haddr⟩ := Prod.mk.inj heq
    obtain rfl : jo = m.1 := List.inj_on_of_nodup_map hnodup hjo hmem haddr
    rw [hfqn]
    exact hy
  · intro hall n
    cases hm : p.children.heads[n.toNat]? with
    | none =>
      have hge : p.children.heads.length ≤ n.toNat := List.getElem?_eq_none_iff.mp hm
      exact arrayGetNth_of_le htype (by omega)
    | some m =>
      rw [haccess hm]
      exact cacheGet_some heasy hp (hall m (List.mem_of_getElem? hm))

end Stored

/-! ## 5. Access in a decoded tree -/

/-- All accesses agree with the order of the text, before the tree is indexed and after. -/
structure ArrayAccess (map : Nat) (t : Forest Cell) : Prop where
  before : ∀ p : Ptr, p.tree = t → p.jo.type = .array → NthAgrees none p
  after : ∃ d, index map ⟨t, none⟩ = some d ∧
    ∀ p : Ptr, p.tree = d.tree → p.jo.type = .array → NthAgrees d.hmap p

/-- A pointer into a tree is one of its nodes, with its children. -/
theorem forall_ptr {P : Cell → Forest Cell → Prop} {t : Forest Cell} :
    (∀ p : Ptr, p.tree = t → P p.jo p.children) ↔ t.Everywhere P := by
  rw [Forest.everywhere_iff]
  exact ⟨fun h z a c s heq => h ⟨z, a, c, s⟩ heq, fun h p heq => h _ _ _ _ heq⟩

/-- What holds everywhere in the text holds everywhere in the tree. -/
theorem everywhere_map {P : JsonNode → Forest JsonNode → Prop} {f : Forest Cell} :
    (f.map Cell.toJsonNode).Everywhere P ↔
      f.Everywhere fun jo c => P jo.toJsonNode (c.map Cell.toJsonNode) := by
  induction f with
  | nil => exact Iff.rfl
  | node jo c s ihc ihs =>
    rw [Forest.map_node, Forest.everywhere_node, Forest.everywhere_node, ihc, ihs]

section Decoding

variable {map : Nat} {root : Cell} {c : Forest Cell} {hmap₀ hmap : NameMap}

/-- The counts of a decoded tree are those of its arrays, as an `unsigned int`. -/
theorem Decoded.counts {t : Forest Cell} (hdec : Decoded t) : Counts (t.map Cell.toJsonNode) := by
  obtain ⟨s, jo, hdecode, htext⟩ := hdec.text
  exact htext ▸ decode_counts hdecode

/-- Before the tree is indexed, all accesses walk, and none but those to an array with too many
elements go wrong. -/
theorem Decoded.walks_iff {t : Forest Cell} (hdec : Decoded t) :
    (∀ p : Ptr, p.tree = t → p.jo.type = .array → NthAgrees none p) ↔
      Narrow (t.map Cell.toJsonNode) := by
  rw [Narrow, everywhere_map, ← forall_ptr]
  refine forall₂_congr fun p hp => forall_congr' fun htype => ?_
  have hplain : p.jo.map = none := by
    refine (hdec.fresh p.jo ?_).2.2
    rw [← hp]
    exact Forest.mem_plug List.mem_cons_self
  have hcount := forall_ptr.mpr (everywhere_map.mp hdec.counts) p hp htype
  rw [Forest.length_map] at hcount ⊢
  exact nthAgrees_walk htype hplain hcount

/-- Below the root of an indexed tree, the nodes have the names of their positions. -/
theorem Decoded.indexed_named (hdec : Decoded (.node root c .nil))
    (hnarrow : Narrow ((Forest.node root c .nil).map Cell.toJsonNode)) (map : Nat) :
    ∃ jo c', indexed map root c = .node jo c' .nil ∧ jo.fqn = ['.'] ∧ jo.type = root.type ∧
      c'.map Cell.toJsonNode = c.map Cell.toJsonNode ∧ NamesFrom root.type ['.'] 0 c' := by
  obtain ⟨jo', c', heq, -, hfqn, hc'⟩ := indexed_eq map root c
  have hnodes := mark_nodes map none (.node { root with icur := 0 } c .nil)
  change (indexed map root c).map Cell.toJsonNode = (Forest.node root c .nil).map
    Cell.toJsonNode at hnodes
  rw [heq, Forest.map_node, Forest.map_node] at hnodes
  obtain ⟨hroot, hchildren, -⟩ := Forest.node.inj hnodes
  refine ⟨jo', c', heq, hfqn, congrArg JsonNode.type hroot, hchildren, ?_⟩
  obtain ⟨hkind, hcont, -⟩ := hdec.contained
  rw [hc']
  rcases hkind with hnil | hkind
  · obtain rfl := Forest.map_eq_nil.mp hnil
    trivial
  · refine mark_namesFrom (p := named map none { root with icur := 0 })
      ⟨hkind, fun _ => rfl⟩ (fun harr => ?_)
      hnarrow.2.1 hcont fun x hx => (hdec.fresh x ?_).2.1
    · have hlt := hnarrow.1 harr
      rw [Forest.length_map] at hlt
      omega
    · exact List.mem_cons_of_mem _ (List.mem_append_left _ hx)

/-- Every element of an array has the name of its index. -/
theorem Decoded.indexed_elements (hdec : Decoded (.node root c .nil))
    (hnarrow : Narrow ((Forest.node root c .nil).map Cell.toJsonNode)) (map : Nat) :
    (indexed map root c).Everywhere fun jo c => ∀ n m, c.heads[n]? = some m →
      m.1.fqn = snprintf (jo.fqn ++ segment jo.type n m.1.key) := by
  obtain ⟨jo', c', heq, hfqn, htype, -, hnamed⟩ := hdec.indexed_named hnarrow map
  rw [heq]
  refine ⟨fun n m hm => ?_, hnamed.everywhere, trivial⟩
  rw [hnamed.heads hm, Nat.zero_add, hfqn, htype]

/-- The names of an indexed tree are those of the text. -/
theorem Decoded.indexed_names (hdec : Decoded (.node root c .nil))
    (hnarrow : Narrow ((Forest.node root c .nil).map Cell.toJsonNode)) (map : Nat) :
    (flagged .unknown (indexed map root c)).map (fun e => (e.1.fqn, e.2)) =
      treeNames ((Forest.node root c .nil).map Cell.toJsonNode) := by
  obtain ⟨jo', c', heq, hfqn, htype, hchildren, hnamed⟩ := hdec.indexed_named hnarrow map
  rw [heq, flagged, List.map_cons, List.map_append, hfqn, htype, hnamed.flagged, hchildren,
    flagged, List.map_nil, List.append_nil]
  rfl

/-- Indexing leaves the nodes where they are. -/
theorem Decoded.indexed_nodup (hdec : Decoded (.node root c .nil)) (map : Nat) :
    (addrs (indexed map root c)).Nodup := by
  have hsame : addrs (indexed map root c) = addrs (.node root c .nil) :=
    (mark_map map none (.node { root with icur := 0 } c .nil)).2
  rw [hsame]
  exact hdec.nodup

/-- The map has the entries of the nodes that were not kept out of it. -/
theorem filled_pairs {t : Forest Cell} (hnew : Hmap.easyNew Nat = some hmap₀)
    (hfill : Hmap.fill (entries t) hmap₀ = some hmap) :
    List.Perm hmap.pairs (Hmap.kept [] (entries t)) := by
  obtain ⟨m₀, hm₀, heasy₀, hempty⟩ := Hmap.easyNew_spec Nat
  obtain rfl := Option.some.inj (hm₀.symm.trans hnew)
  obtain ⟨m, hm, -, hpairs⟩ := @Hmap.fill_kept Nat _ heasy₀ []
    (by rw [hempty]; exact List.Perm.refl _) (entries t)
  obtain rfl := Option.some.inj (hm.symm.trans hfill)
  rwa [hempty, List.append_nil] at hpairs

/-- The elements of arrays are all stored exactly when none has the name of a node before it. -/
theorem Decoded.stored_iff (hdec : Decoded (.node root c .nil))
    (hnarrow : Narrow ((Forest.node root c .nil).map Cell.toJsonNode)) (map : Nat) :
    (∀ p : Ptr, p.tree = indexed map root c → p.jo.type = .array → ∀ m ∈ p.children.heads,
      (m.1.fqn, m.1.addr) ∈ Hmap.kept [] (entries (indexed map root c))) ↔
    Clear [] (treeNames ((Forest.node root c .nil).map Cell.toJsonNode)) := by
  have hentries : (flagged .unknown (indexed map root c)).map (fun e => (e.1.fqn, e.1.addr)) =
      entries (indexed map root c) := by
    rw [entries, ← flagged_fst .unknown, List.map_map]
    rfl
  have hflagged : ((flagged .unknown (indexed map root c)).map fun e => e.1.addr).Nodup := by
    have hnodup := hdec.indexed_nodup map
    rw [addrs, ← flagged_fst .unknown, List.map_map] at hnodup
    exact hnodup
  rw [← hdec.indexed_names hnarrow map, clear_iff List.nodup_nil (List.nil_subset _)
    (fun _ => List.Subset.refl _) hflagged, hentries]
  have hiff := @forall_flagged .unknown (indexed map root c) fun jo => (jo.fqn, jo.addr) ∈
    Hmap.kept [] (entries (indexed map root c))
  have hnone : (JsonType.unknown = .array → ∀ m ∈ (indexed map root c).heads,
      (m.1.fqn, m.1.addr) ∈ Hmap.kept [] (entries (indexed map root c))) := fun h => (by cases h)
  rw [hiff, ← forall_ptr]
  exact (and_iff_right hnone).symm

/-- After the tree has been indexed, all accesses ask the map, and find their elements exactly if
these are all stored. -/
theorem Decoded.cache_iff (hdec : Decoded (.node root c .nil))
    (hnarrow : Narrow ((Forest.node root c .nil).map Cell.toJsonNode)) (heasy : hmap.Easy)
    (hpairs : List.Perm hmap.pairs (Hmap.kept [] (entries (indexed map root c)))) :
    (∀ p : Ptr, p.tree = indexed map root c → p.jo.type = .array →
      NthAgrees (some (map, hmap)) p) ↔
    Clear [] (treeNames ((Forest.node root c .nil).map Cell.toJsonNode)) := by
  have hmaps : ∀ jo ∈ (indexed map root c).toList, jo.map = some map :=
    (mark_map map none (.node { root with icur := 0 } c .nil)).1
  have hnodes := mark_nodes map none (.node { root with icur := 0 } c .nil)
  change (indexed map root c).map Cell.toJsonNode = (Forest.node root c .nil).map
    Cell.toJsonNode at hnodes
  have hstored : hmap.pairs ⊆ entries (indexed map root c) := fun e he =>
    (Hmap.kept_sublist _ _).subset (hpairs.mem_iff.mp he)
  have hcounts := hdec.counts
  rw [← hdec.stored_iff hnarrow map]
  have hnames := hdec.indexed_elements hnarrow map
  refine forall₂_congr fun p hp => forall_congr' fun htype => ?_
  have hmem : p.jo ∈ (indexed map root c).toList := by
    rw [← hp]
    exact Forest.mem_plug List.mem_cons_self
  rw [← hnodes] at hnarrow hcounts
  have hlt := forall_ptr.mpr (everywhere_map.mp hnarrow) p hp htype
  have hcount := forall_ptr.mpr (everywhere_map.mp hcounts) p hp htype
  rw [Forest.length_map] at hlt hcount
  rw [Nat.mod_eq_of_lt hlt] at hcount
  rw [nthAgrees_cache heasy hstored (hdec.indexed_nodup map) hp htype (hmaps _ hmem) hcount hlt
    (forall_ptr.mpr hnames p hp)]
  exact forall₂_congr fun m _ => hpairs.mem_iff

end Decoding

/-- **Access to arrays is right exactly when no array has too many elements, and no element of an
array has the name of a node before it.**  Both walks, from the first element and from the last, and
the cache are compared with the list of the elements; a name is taken where a key before it is
spelled like it, or where both are cut at the end of their buffers. -/
theorem array_access_iff {t : Forest Cell} (hdec : Decoded t) (map : Nat) :
    ArrayAccess map t ↔
      Narrow (t.map Cell.toJsonNode) ∧ Clear [] (treeNames (t.map Cell.toJsonNode)) := by
  obtain ⟨root, c, rfl, hroot⟩ := hdec.exists_root
  obtain ⟨hmap₀, hmap, hnew, hfill, heasy, hindex⟩ := index_eq map c hroot
  have hpairs := filled_pairs hnew hfill
  constructor
  · rintro ⟨hbefore, d, hd, hafter⟩
    rw [hindex] at hd
    obtain rfl := Option.some.inj hd
    have hnarrow := hdec.walks_iff.mp hbefore
    exact ⟨hnarrow, (hdec.cache_iff hnarrow heasy hpairs).mp hafter⟩
  · rintro ⟨hnarrow, hclear⟩
    exact ⟨hdec.walks_iff.mpr hnarrow, _, hindex,
      (hdec.cache_iff hnarrow heasy hpairs).mpr hclear⟩

theorem array_access_pair : ArrayAccess 7 ptrOne.tree := by
  refine (array_access_iff decoded_pair 7).mpr ⟨⟨fun _ => ?_, ?_, trivial⟩, by decide⟩
  · decide
  · exact ⟨fun h => (by cases h), trivial, fun h => (by cases h), trivial, trivial⟩

/-- `{"a[0]":2,"a":[1]}`: the first member has the name of the element of the second one. -/
def bracketText : List Char :=
  ['\x7b', '"', 'a', '[', '0', ']', '"', ':', '2', ',', '"', 'a', '"', ':', '[', '1', ']', '\x7d']

/-- Its root, before the tree is indexed. -/
def bracketRoot : Cell := ⟨⟨.object, [], [], 0, 0⟩, 1, [], 0, none⟩

/-- Its members, before the tree is indexed. -/
def bracketMembers : Forest Cell :=
  .node ⟨⟨.number, ['a', '[', '0', ']'], ['2'], 1, 0⟩, 2, [], 0, none⟩ .nil
    (.node ⟨⟨.array, ['a'], [], 1, 1⟩, 3, [], 0, none⟩
      (.node ⟨⟨.number, [], ['1'], 2, 0⟩, 4, [], 0, none⟩ .nil .nil) .nil)

/-- The array of the indexed tree, as a pointer into it. -/
def bracketArray : Ptr :=
  ⟨[.sibling ⟨⟨.number, ['a', '[', '0', ']'], ['2'], 1, 0⟩, 2, ['.', '.', 'a', '[', '0', ']'], 0,
    some 7⟩ .nil, .parent ⟨⟨.object, [], [], 0, 0⟩, 1, ['.'], 0, some 7⟩ .nil],
    ⟨⟨.array, ['a'], [], 1, 1⟩, 3, ['.', '.', 'a'], 1, some 7⟩,
    .node ⟨⟨.number, [], ['1'], 2, 0⟩, 4, ['.', '.', 'a', '[', '0', ']'], 0,
      some 7⟩ .nil .nil, .nil⟩

/-- The element has the name of a number before it, and the cache gives that number for it. -/
theorem array_access_bracket : Decoded (.node bracketRoot bracketMembers .nil) ∧
    ¬ ArrayAccess 7 (.node bracketRoot bracketMembers .nil) := by
  have hdec : Decoded (.node bracketRoot bracketMembers .nil) :=
    ⟨⟨bracketText, ⟨bracketRoot.toJsonNode, bracketMembers.map Cell.toJsonNode⟩, rfl,
      rfl⟩, by decide, by decide⟩
  refine ⟨hdec, fun haccess => ?_⟩
  obtain ⟨hmap₀, hmap, hnew, hfill, heasy, hindex⟩ := @index_eq bracketRoot 7 bracketMembers rfl
  obtain ⟨d, hd, hafter⟩ := haccess.after
  rw [hindex] at hd
  obtain rfl := Option.some.inj hd
  have htree : bracketArray.tree = indexed 7 bracketRoot bracketMembers := by decide
  have hagree := hafter bracketArray htree rfl 0
  have hget : bracketArray.arrayGetNth (some (7, hmap)) 0 =
      bracketArray.cacheGet (some (7, hmap)) ['.', '.', 'a', '[', '0', ']'] := rfl
  obtain ⟨y, hy⟩ := cacheGet_sound heasy rfl (hget.symm.trans hagree)
  obtain ⟨m₀, hm₀, heasy₀, hempty⟩ := Hmap.easyNew_spec Nat
  obtain rfl := Option.some.inj (hm₀.symm.trans hnew)
  obtain ⟨m, hm, -, hpairs⟩ := @Hmap.fill_kept Nat _ heasy₀ []
    (by rw [hempty]; exact List.Perm.refl _)
    (entries (indexed 7 bracketRoot bracketMembers))
  obtain rfl := Option.some.inj (hm.symm.trans hfill)
  rw [hempty, List.append_nil] at hpairs
  have hno : ∀ e ∈ Hmap.kept [] (entries (indexed 7 bracketRoot bracketMembers)), e.2 ≠ 4 := by
    decide
  exact hno _ (hpairs.mem_iff.mp hy) rfl

end Libu.Json
