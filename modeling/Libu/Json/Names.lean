/-
# Names in an index (`toolbox/json.c`)

The name of a node is that of its parent and a segment: `.key` in an object, `[i]` in an array.  A
key is any string, and is put into the name as it is, so that where a segment ends does not show: `{
"a": { "b": 1 }, "a.b": 2 }` has two nodes of the name `..a.b`.

* §1 is the names by position, and `Ambiguous`: two members of one object whose keys go on, in the
  names of nodes at or below them, to the same text.  Only such members share a name
  (`nodup_names`).
* §2: these are the names that the index gives.
* §3: each node has a name of its own, and is found under it, exactly when the tree is not ambiguous
  and not too large for the hash map (`complete_iff`).
-/
import Libu.Json.Encode
import Libu.Json.Index

namespace Libu.Json

open Verif

/-! ## 1. Names by position -/

/-- What a child, the one at index `i`, adds to the name of a parent. -/
def segment (type : JsonType) (i : Nat) (key : List Char) : List Char :=
  if type = .array then '[' :: (Nat.toDigits 10 i ++ [']']) else '.' :: key

/-- The names of nodes relative to their parent, whose type is `type`; the first of the siblings is
the one at index `i`. -/
def relNames (type : JsonType) : Nat → Forest JsonNode → List (List Char)
  | _, .nil => []
  | i, .node jo children siblings =>
    ([] :: relNames jo.type 0 children).map (segment type i jo.key ++ ·) ++ relNames
    type (i + 1) siblings

/-- The names relative to a node, of itself and of all nodes below. -/
def below (jo : JsonNode) (children : Forest JsonNode) : List (List Char) :=
  [] :: relNames jo.type 0 children

/-- The fully qualified names, of the tree of a root. -/
def names : Forest JsonNode → List (List Char)
  | .nil => []
  | .node root children _ => (below root children).map ('.' :: ·)

/-- Only containers have children. -/
def Contained : Forest JsonNode → Prop
  | .nil => True
  | .node jo c s => (c = .nil ∨ isContainer jo.type) ∧ Contained c ∧ Contained s

/-- Somewhere in an object, the keys of two members go on to the same text. -/
def Ambiguous (type : JsonType) : Forest JsonNode → Prop
  | .nil => False
  | .node jo c s => Ambiguous jo.type c ∨ Ambiguous type s ∨ type = .object ∧
      ∃ m ∈ s.heads, ∃ x ∈ below jo c, ∃ y ∈ below m.1 m.2, jo.key ++ x = m.1.key ++ y

/-- The same, in the tree of a root. -/
def AmbiguousTree : Forest JsonNode → Prop
  | .nil => False
  | .node root children _ => Ambiguous root.type children

section Names

variable {type : JsonType} {i j : Nat} {f c s : Forest JsonNode} {x y : List Char}

/-- The names of a forest: those of its first tree, and then those of its siblings with the next
index. -/
theorem relNames_node (jo : JsonNode) (c s : Forest JsonNode) : relNames type i (.node jo c s) =
    (below jo c).map (segment type i jo.key ++ ·) ++ relNames type (i + 1) s := rfl

/-- A name of a forest is that of a node at or below one of its roots. -/
theorem mem_relNames : x ∈ relNames type i f ↔ ∃ k m, f.heads[k]? = some m ∧
    ∃ y ∈ below m.1 m.2, x = segment type (i + k) m.1.key ++ y := by
  induction f generalizing i with
  | nil =>
    refine ⟨fun h => (by cases h), ?_⟩
    rintro ⟨k, m, hm, -⟩
    cases hm
  | node jo c s _ ihs =>
    rw [relNames_node, List.mem_append, ihs]
    constructor
    · rintro (hx | ⟨k, m, hm, y, hy, rfl⟩)
      · obtain ⟨y, hy, rfl⟩ := List.mem_map.mp hx
        exact ⟨0, (jo, c), rfl, y, hy, rfl⟩
      · refine ⟨k + 1, m, hm, y, hy, ?_⟩
        rw [Nat.add_assoc, Nat.add_comm 1 k]
    · rintro ⟨k, m, hm, y, hy, rfl⟩
      cases k with
      | zero =>
        obtain rfl := Option.some.inj hm
        exact .inl (List.mem_map_of_mem hy)
      | succ k =>
        refine .inr ⟨k, m, hm, y, hy, ?_⟩
        rw [Nat.add_assoc, Nat.add_comm 1 k]

/-- A segment is never empty. -/
theorem segment_ne_nil (key : List Char) : segment type i key ≠ [] := by
  unfold segment
  split <;> exact List.cons_ne_nil _ _

/-- No name is empty, so nodes below different parents are told apart by their segments. -/
theorem nil_not_mem : [] ∉ relNames type i f := by
  intro hmem
  obtain ⟨k, m, -, y, -, hnil⟩ := mem_relNames.mp hmem
  exact segment_ne_nil _ (List.append_eq_nil_iff.mp hnil.symm).1

/-- An index ends where its bracket is, so two different ones do not go on to the same text. -/
theorem index_inj (h : Nat.toDigits 10 i ++ ']' :: x = Nat.toDigits 10 j ++ ']' :: y) : i = j := by
  have hcut : ∀ n z, (Nat.toDigits 10 n ++ ']' :: z).takeWhile Char.isDigit =
    Nat.toDigits 10 n := by
    intro n z
    rw [List.takeWhile_append_of_pos
      (fun c hc => Nat.isDigit_of_mem_toDigits (by decide) (by decide) hc)]
    simp
  have heq := congrArg (List.takeWhile Char.isDigit) h
  rw [hcut, hcut] at heq
  rw [← Nat.ofDigitChars_ten_toDigits (n := i), heq, Nat.ofDigitChars_ten_toDigits]

/-- A common segment in front makes no names equal. -/
theorem map_segment_nodup {key : List Char} {l : List (List Char)} :
    (l.map (segment type i key ++ ·)).Nodup ↔ l.Nodup :=
  List.nodup_map_iff (List.append_right_injective _)

/-- Members with different ways on from their parent: elements always, members of an object unless
their keys go on to the same text. -/
theorem disjoint_names (htype : isContainer type) (jo : JsonNode) :
    (∀ x ∈ (below jo c).map (segment type i jo.key ++ ·), ∀ y ∈ relNames type (i + 1) s, x ≠ y) ↔
      ¬ (type = .object ∧ ∃ m ∈ s.heads, ∃ x ∈ below jo c, ∃ y ∈ below m.1 m.2,
        jo.key ++ x = m.1.key ++ y) := by
  by_cases hobj : type = .object
  · subst hobj
    have hseg : ∀ k key, segment .object k key = '.' :: key := fun _ _ => rfl
    constructor
    · rintro hne ⟨-, m, hm, x, hx, y, hy, heq⟩
      obtain ⟨k, hk⟩ := List.getElem?_of_mem hm
      refine hne _ (List.mem_map_of_mem hx) _ (mem_relNames.mpr ⟨k, m, hk, y, hy, rfl⟩) ?_
      simp only [hseg, List.cons_append, heq]
    · rintro hno x hx y hy rfl
      obtain ⟨x', hx', heq⟩ := List.mem_map.mp hx
      obtain ⟨k, m, hm, y', hy', rfl⟩ := mem_relNames.mp hy
      simp only [hseg, List.cons_append, List.cons.injEq, true_and] at heq
      exact hno ⟨rfl, m, List.mem_of_getElem? hm, x', hx', y', hy', heq⟩
  · have harr : type = .array := by
      simpa [isContainer, hobj] using htype
    subst harr
    have hseg : ∀ k key z, segment .array k key ++ z = '[' :: (Nat.toDigits 10 k ++ ']' :: z) := by
      intro k key z
      simp [segment]
    refine ⟨fun _ h => hobj h.1, fun _ => ?_⟩
    rintro x hx y hy rfl
    obtain ⟨x', -, heq⟩ := List.mem_map.mp hx
    obtain ⟨k, m, -, y', -, rfl⟩ := mem_relNames.mp hy
    simp only [hseg, List.cons.injEq, true_and] at heq
    have := index_inj heq
    omega

/-- **Nodes share a name only below two such members** of one object: everywhere else the segments
differ. -/
theorem nodup_relNames (htype : isContainer type) (hcont : Contained f) :
    (relNames type i f).Nodup ↔ ¬ Ambiguous type f := by
  induction f generalizing type i with
  | nil => exact ⟨fun _ h => h, fun _ => List.nodup_nil⟩
  | node jo c s ihc ihs =>
    obtain ⟨hjo, hc, hs⟩ := hcont
    have hchildren : (relNames jo.type 0 c).Nodup ↔ ¬ Ambiguous jo.type c := by
      rcases hjo with rfl | hjo
      · exact ⟨fun _ h => h, fun _ => List.nodup_nil⟩
      · exact ihc hjo hc
    rw [relNames_node, List.nodup_append, map_segment_nodup, disjoint_names htype, ihs htype hs,
      below, List.nodup_cons, hchildren, Ambiguous, not_or, not_or]
    exact and_congr_left' (and_iff_right nil_not_mem)

/-- The names of a tree are different exactly if it is not ambiguous. -/
theorem nodup_names {root : JsonNode} (hcont : Contained (.node root c s)) :
    (names (.node root c s)).Nodup ↔ ¬ AmbiguousTree (.node root c s) := by
  rw [AmbiguousTree]
  obtain ⟨hroot, hc, -⟩ := hcont
  rw [names, List.nodup_map_iff List.cons_injective, below, List.nodup_cons]
  rcases hroot with rfl | hroot
  · exact ⟨fun _ h => h, fun _ => ⟨List.not_mem_nil, List.nodup_nil⟩⟩
  · rw [nodup_relNames hroot hc]
    exact and_iff_right nil_not_mem

end Names

/-! ## 2. The names of an index -/

/-- What a text denotes has children in its containers only. -/
theorem contained_of_shaped {o : Bool} {f : Forest JsonNode} (h : Shaped o (f.map JsonNode.item)) :
    Contained f := by
  induction f generalizing o with
  | nil => trivial
  | node jo c s ihc ihs =>
    refine ⟨?_, ?_, ihs h.2.2⟩
    · by_cases htype : ∃ o', jo.type = containerType o'
      · obtain ⟨o', htype⟩ := htype
        refine .inr ?_
        rw [htype]
        cases o' <;> rfl
      · have hnil := children_eq_nil h fun o' ho' => htype ⟨o', ho'⟩
        exact .inl (Forest.map_eq_nil.mp hnil)
    · by_cases htype : ∃ o', jo.type = containerType o'
      · obtain ⟨o', htype⟩ := htype
        exact ihc (shaped_children h htype)
      · have hnil := children_eq_nil h fun o' ho' => htype ⟨o', ho'⟩
        obtain rfl := Forest.map_eq_nil.mp hnil
        trivial

/-- So does a tree that has been decoded. -/
theorem Decoded.contained {t : Forest Cell} (h : Decoded t) :
    Contained (t.map Cell.toJsonNode) := by
  obtain ⟨s, jo, hdec, htree⟩ := h.text
  obtain ⟨⟨o, -, w, x, -, hd, -⟩, -⟩ := decode_sound hdec
  rw [htree]
  exact contained_of_shaped hd.shaped

section Mark

variable {map : Nat} {p jo : Cell} {i : Nat} {f : Forest Cell}

/-- A name that fits is not cut. -/
theorem snprintf_of_lt {text : List Char} (h : text.length < jsonFqnSz) : snprintf text = text :=
  List.take_of_length_le (Nat.le_pred_of_lt h)

/-- What is known of a container while its children are named: its counter is at the index of the
next one. -/
structure Naming (p : Cell) (i : Nat) : Prop where
  type : isContainer p.type
  icur : p.type = .array → p.icur = UInt32.ofNat i

/-- The next node gets the segment of its index, and the counter goes on. -/
theorem Naming.named (h : Naming p i) (hi : p.type = .array → i < 2 ^ 32) (jo : Cell) :
    ∃ p', (name (some p) jo).1 = some p' ∧
    p'.type = p.type ∧ p'.fqn = p.fqn ∧ Naming p' (i + 1) ∧
    (name (some p) jo).2.fqn = snprintf (p.fqn ++ segment p.type i jo.key) ∧
    (jo.icur = 0 → (name (some p) jo).2.icur = 0) := by
  obtain ⟨htype, hicur⟩ := h
  rcases hp : p.type with _ | _ | _ | _ | _ | _ | _ | _
  case object =>
    refine ⟨p, ?_, hp, rfl, ⟨htype, fun harr => (by rw [hp] at harr; cases harr)⟩, ?_, ?_⟩ <;>
      simp only [name, hp]
    · rfl
    · exact id
  case array =>
    have hnat : p.icur.toNat = i := by
      rw [hicur hp, UInt32.toNat_ofNat']
      exact Nat.mod_eq_of_lt (hi hp)
    refine ⟨{ p with icur := p.icur + 1 }, ?_, hp, rfl, ⟨htype, fun _ => ?_⟩, ?_, ?_⟩
    · simp only [name, hp]
    · change p.icur + 1 = _
      rw [hicur hp]
      exact (UInt32.ofNat_add i 1).symm
    · simp only [name, hp, hnat]
      rfl
    · intro hjo
      simp only [name, hp, hjo, ite_self]
  all_goals rw [hp] at htype; cases htype

/-- **The names are those by position**, as long as they fit. -/
theorem mark_names (hp : Naming p i) (hi : i + f.toList.length ≤ 2 ^ 32)
    (hcont : Contained (f.map Cell.toJsonNode)) (hfresh : ∀ jo ∈ f.toList, jo.icur = 0)
    (hshort : ∀ x ∈ relNames p.type i (f.map Cell.toJsonNode), (p.fqn ++ x).length < jsonFqnSz) :
    (mark map (some p) f).2.toList.map Cell.fqn =
      (relNames p.type i (f.map Cell.toJsonNode)).map (p.fqn ++ ·) := by
  induction f generalizing p i with
  | nil => rfl
  | node jo c s ihc ihs =>
    rw [Forest.toList_node, List.length_cons, List.length_append] at hi
    rw [Forest.map_node, relNames_node] at hshort ⊢
    obtain ⟨hjo, hc, hs⟩ := hcont
    obtain ⟨p', hp', htype, hfqn, hnaming, hname, hzero⟩ := hp.named (fun _ => by omega) jo
    obtain ⟨jo', hcount, -, hmark⟩ := mark_node map (some p) jo c s
    -- the name of the node itself
    have hself : (named map (some p) jo).fqn = p.fqn ++ segment p.type i jo.key := by
      have hfits := hshort (segment p.type i jo.key ++ [])
        (List.mem_append_left _ (List.mem_map_of_mem List.mem_cons_self))
      rw [List.append_nil] at hfits
      exact hname.trans (snprintf_of_lt hfits)
    have hnode : (named map (some p) jo).toJsonNode = jo.toJsonNode := name_node.1
    have hchildren : (mark map (some (named map (some p) jo)) c).2.toList.map Cell.fqn =
        (relNames jo.type 0 (c.map Cell.toJsonNode)).map
        ((p.fqn ++ segment p.type i jo.key) ++ ·) := by
      rcases hjo with hnil | hjo
      · obtain rfl := Forest.map_eq_nil.mp hnil
        rfl
      · have hn : Naming (named map (some p) jo) 0 := by
          refine ⟨?_, fun _ => hzero (hfresh jo List.mem_cons_self)⟩
          rw [hnode]
          exact hjo
        have htype' : (named map (some p) jo).type = jo.type := congrArg JsonNode.type hnode
        rw [← hself, ← htype']
        refine ihc hn (by omega) hc (fun x hx => hfresh x ?_) fun x hx => ?_
        · exact List.mem_cons_of_mem _ (List.mem_append_left _ hx)
        · rw [htype'] at hx
          rw [hself, List.append_assoc]
          exact hshort _ (List.mem_append_left _ (List.mem_map_of_mem (List.mem_cons_of_mem _ hx)))
    have hsiblings : (mark map (name (some p) jo).1 s).2.toList.map Cell.fqn =
        (relNames p.type (i + 1) (s.map Cell.toJsonNode)).map (p.fqn ++ ·) := by
      rw [hp', ← htype, ← hfqn]
      refine ihs hnaming (by omega) hs (fun x hx => hfresh x ?_) fun x hx => ?_
      · exact List.mem_cons_of_mem _ (List.mem_append_right _ hx)
      · rw [htype] at hx
        rw [hfqn]
        exact hshort x (List.mem_append_right _ hx)
    rw [hmark, Forest.toList_node, List.map_cons, List.map_append, hchildren, hsiblings, hcount.fqn,
      hself, below, List.map_cons, List.append_nil, List.cons_append, List.map_cons,
      List.map_append, List.map_map]
    simp only [Function.comp_def, List.append_assoc]

/-- The names of the whole tree, after it has been indexed. -/
theorem indexed_names {root : Cell} {c : Forest Cell} (hdec : Decoded (.node root c .nil))
    (hlen : c.toList.length ≤ 2 ^ 32)
    (hshort : ∀ x ∈ names ((Forest.node root c .nil).map Cell.toJsonNode), x.length < jsonFqnSz) :
    (indexed map root c).toList.map Cell.fqn = names ((Forest.node root c .nil).map
      Cell.toJsonNode) := by
  obtain ⟨jo, c', heq, -, hfqn, rfl⟩ := indexed_eq map root c
  obtain ⟨hroot, hc, -⟩ := hdec.contained
  rw [heq, Forest.toList_node, Forest.toList_nil, List.append_nil, List.map_cons, hfqn,
    Forest.map_node, names, below, List.map_cons]
  congr 1
  rcases hroot with hnil | hroot
  · obtain rfl := Forest.map_eq_nil.mp hnil
    rfl
  · refine mark_names (p := named map none { root with icur := 0 })
      ⟨hroot, fun _ => rfl⟩ (by omega) hc
      (fun x hx => (hdec.fresh x ?_).2.1) fun x hx => ?_
    · exact List.mem_cons_of_mem _ (List.mem_append_left _ hx)
    · exact hshort _ (List.mem_map_of_mem (List.mem_cons_of_mem _ hx))

end Mark

/-! ## 3. Complete indexes -/

/-- Each node has a name of its own, and is what the root gives for it. -/
def Complete (d : Doc) : Prop := (d.tree.toList.map Cell.fqn).Nodup ∧
  ∀ jo ∈ d.tree.toList, cacheGet d jo.fqn = some (some jo.addr)

/-- The root looks in the map. -/
theorem cacheGet_indexed {map : Nat} {root : Cell} {c : Forest Cell} {hmap : NameMap}
    (heasy : hmap.Easy) (key : List Char) (addr : Nat) :
    cacheGet ⟨indexed map root c, some (map, hmap)⟩ key = some (some addr) ↔
    (key, addr) ∈ hmap.pairs := by
  obtain ⟨jo, c', heq, hmap', -, -⟩ := indexed_eq map root c
  obtain ⟨found, hget, hfound⟩ := Hmap.easyGet_spec heasy key
  rw [← hfound addr, heq]
  simp [cacheGet, hmap', hget]

/-- The members of every object have keys, and no two have the same one. -/
def Keyed (type : JsonType) : Forest JsonNode → Prop
  | .nil => True
  | .node jo c s => (type = .object → jo.key ≠ [] ∧ ∀ m ∈ s.heads, m.1.key ≠ jo.key) ∧
      Keyed jo.type c ∧ Keyed type s

instance decidableKeyed : ∀ type f, Decidable (Keyed type f)
  | _, .nil => .isTrue trivial
  | type, .node jo c s =>
    have := decidableKeyed jo.type c
    have := decidableKeyed type s
    inferInstanceAs (Decidable ((type = .object → jo.key ≠ [] ∧ ∀ m ∈ s.heads, m.1.key ≠ jo.key) ∧
      Keyed jo.type c ∧ Keyed type s))

/-- The text before the first segment that can be seen in a name. -/
def stem (x : List Char) : List Char := x.takeWhile fun c => c ≠ '.' && c ≠ '['

/-- A key without a dot or a bracket is seen in every name below it. -/
theorem stem_key {key x : List Char} {jo : JsonNode} {c : Forest JsonNode} (hdot : '.' ∉ key)
    (hopen : '[' ∉ key) (hx : x ∈ below jo c) : stem (key ++ x) = key := by
  have hkey : ∀ ch ∈ key, (ch ≠ '.' && ch ≠ '[') = true := by
    intro ch hch
    have h₁ : ch ≠ '.' := fun h => hdot (h ▸ hch)
    have h₂ : ch ≠ '[' := fun h => hopen (h ▸ hch)
    simp [h₁, h₂]
  rw [stem, List.takeWhile_append_of_pos hkey]
  rcases List.mem_cons.mp hx with rfl | hx
  · exact List.append_nil key
  · obtain ⟨k, m, -, y, -, rfl⟩ := mem_relNames.mp hx
    unfold segment
    split <;> simp

/-- Keys that hold no dot and no bracket are told apart in the names. -/
theorem not_ambiguous_of_plain {type : JsonType} {f : Forest JsonNode} (hkeyed : Keyed type f)
    (hplain : ∀ jo ∈ f.toList, '.' ∉ jo.key ∧ '[' ∉ jo.key) : ¬ Ambiguous type f := by
  induction f generalizing type with
  | nil => exact id
  | node jo c s ihc ihs =>
    obtain ⟨hself, hc, hs⟩ := hkeyed
    have hbelow : ∀ x, x ∈ c.toList ∨ x ∈ s.toList → '.' ∉ x.key ∧ '[' ∉ x.key := fun x hx =>
      hplain x (List.mem_cons_of_mem _ (List.mem_append.mpr hx))
    rintro (h | h | ⟨htype, m, hm, x, hx, y, hy, heq⟩)
    · exact ihc hc (fun x hx => hbelow x (.inl hx)) h
    · exact ihs hs (fun x hx => hbelow x (.inr hx)) h
    · obtain ⟨hdot, hopen⟩ := hplain jo List.mem_cons_self
      obtain ⟨hdot', hopen'⟩ := hbelow m.1 (.inr (Forest.mem_heads hm))
      have hstem := congrArg stem heq
      rw [stem_key hdot hopen hx, stem_key hdot' hopen' hy] at hstem
      exact (hself htype).2 m hm hstem.symm

/-- **An index is complete exactly when the tree is not ambiguous and the map has room for it.**
Then every node is found by its name, and by no other.  A tree is ambiguous where two members of one
object have keys of which one goes on as a name below the other would: `"a.b"` beside `b` in `"a"`.
-/
theorem complete_iff {t : Forest Cell} (hdec : Decoded t)
    (hshort : ∀ x ∈ names (t.map Cell.toJsonNode), x.length < jsonFqnSz) (map : Nat) :
    (∃ d, index map ⟨t, none⟩ = some d ∧ Complete d) ↔
      t.toList.length ≤ Hmap.capacity ∧ ¬ AmbiguousTree (t.map Cell.toJsonNode) := by
  obtain ⟨root, c, rfl, hroot⟩ := hdec.exists_root
  obtain ⟨hmap₀, hmap, hnew, hfill, heasy, hindex⟩ := index_eq map c hroot
  have hlen : (entries (indexed map root c)).length = (Forest.node root c .nil).toList.length := by
    have haddrs := congrArg List.length (mark_map map none (.node { root with icur := 0 } c .nil)).2
    rw [List.length_map, List.length_map] at haddrs
    rw [entries, List.length_map]
    exact haddrs
  have hkeys : (entries (indexed map root c)).map Prod.fst =
    (indexed map root c).toList.map Cell.fqn := by
    rw [entries, List.map_map]
    rfl
  have hdistinct : (Forest.node root c .nil).toList.length ≤ Hmap.capacity →
      (((indexed map root c).toList.map Cell.fqn).Nodup ↔
        ¬ AmbiguousTree ((Forest.node root c .nil).map Cell.toJsonNode)) := by
    intro hroom
    have hc : c.toList.length ≤ 2 ^ 32 := by
      rw [Forest.toList_node, List.length_cons, List.length_append] at hroom
      exact (Nat.le_trans (Nat.le_add_right _ _) (Nat.le_of_succ_le hroom)).trans (by decide)
    rw [indexed_names hdec hc hshort]
    exact nodup_names hdec.contained
  constructor
  · rintro ⟨d, hd, hnodup, hget⟩
    rw [hindex] at hd
    obtain rfl := Option.some.inj hd
    have hroom : (Forest.node root c .nil).toList.length ≤ Hmap.capacity := by
      rw [← hlen]
      have hstored : entries (indexed map root c) ⊆ hmap.pairs := by
        intro e he
        obtain ⟨jo, hjo, rfl⟩ := List.mem_map.mp he
        exact (cacheGet_indexed heasy _ _).mp (hget jo hjo)
      have hentries : (entries (indexed map root c)).Nodup :=
        List.Nodup.of_map Prod.fst (hkeys ▸ hnodup)
      exact ((hentries.length_le_of_subset hstored).trans heasy.length_pairs.le).trans
        heasy.sz_le_capacity
    exact ⟨hroom, (hdistinct hroom).mp hnodup⟩
  · rintro ⟨hroom, hclear⟩
    have hnodup := (hdistinct hroom).mpr hclear
    refine ⟨_, hindex, hnodup, fun jo hjo => (cacheGet_indexed heasy _ _).mpr ?_⟩
    obtain ⟨m₀, hm₀, heasy₀, hempty⟩ := Hmap.easyNew_spec Nat
    obtain rfl := Option.some.inj (hm₀.symm.trans hnew)
    -- all puts find room, and their keys new
    have hput := Hmap.fill_spec heasy₀ (l := entries (indexed map root c))
      (by rwa [hempty, List.append_nil, hkeys]) (by rwa [hempty, List.append_nil, hlen])
    obtain ⟨m, hm, -, hpairs⟩ := hput
    obtain rfl := Option.some.inj (hm.symm.trans hfill)
    refine hpairs.symm.mem_iff.mp (List.mem_append_left _ ?_)
    exact List.mem_map_of_mem hjo

/-- `{"a":{"b":1},"a.b":2}`: the two numbers have the same name. -/
def dotText : List Char :=
  ['\x7b', '"', 'a', '"', ':', '\x7b', '"', 'b', '"', ':', '1', '\x7d', ',',
    '"', 'a', '.', 'b', '"', ':', '2', '\x7d']

/-- Its root, before the tree is indexed. -/
def dotRoot : Cell := ⟨⟨.object, [], [], 0, 0⟩, 1, [], 0, none⟩

/-- Its members, before the tree is indexed. -/
def dotMembers : Forest Cell :=
  .node ⟨⟨.object, ['a'], [], 1, 0⟩, 2, [], 0, none⟩
    (.node ⟨⟨.number, ['b'], ['1'], 2, 0⟩, 3, [], 0, none⟩ .nil .nil)
    (.node ⟨⟨.number, ['a', '.', 'b'], ['2'], 1, 0⟩, 4, [], 0, none⟩ .nil .nil)

/-- The elements of an array have names of their own. -/
theorem complete_pair : ∃ d, index 7 ⟨ptrOne.tree, none⟩ = some d ∧ Complete d := by
  refine (complete_iff decoded_pair (by decide) 7).mpr ⟨by decide, ?_⟩
  rintro (h | (h | h | ⟨h, -⟩) | ⟨h, -⟩)
  · exact h
  · exact h
  · exact h
  · cases h
  · cases h

/-- A key with a dot in it reads as two segments. -/
theorem incomplete_dot : Decoded (.node dotRoot dotMembers .nil) ∧
    Keyed .unknown ((Forest.node dotRoot dotMembers .nil).map Cell.toJsonNode) ∧
    (∀ x ∈ names ((Forest.node dotRoot dotMembers .nil).map Cell.toJsonNode),
      x.length < jsonFqnSz) ∧
    ∃ d, index 7 ⟨.node dotRoot dotMembers .nil, none⟩ = some d ∧ ¬ Complete d := by
  obtain ⟨-, hmap, -, -, -, hindex⟩ := @index_eq dotRoot 7 dotMembers rfl
  have hdec : Decoded (.node dotRoot dotMembers .nil) :=
    ⟨⟨dotText, ⟨dotRoot.toJsonNode, dotMembers.map Cell.toJsonNode⟩, rfl,
      rfl⟩, by decide, by decide⟩
  refine ⟨hdec, by decide, by decide, _, hindex, fun hcomplete => ?_⟩
  have hnodup : ((indexed 7 dotRoot dotMembers).toList.map Cell.fqn).Nodup := hcomplete.1
  exact absurd hnodup (by decide)

end Libu.Json
