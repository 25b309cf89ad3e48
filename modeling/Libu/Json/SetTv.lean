/-
# Setting a node by its name (`toolbox/json.c`)

An indexed tree is frozen: "nothing but values and types of non-container objects (i.e. string,
number, boolean and null's) can be changed".  `u_json_cache_set_tv` asks whether the node it is
given is a container, and not whether the one is that it finds by the name; and it writes the type
before it looks at the value, and as much of the value as there is room for.

* §1 is the code, on a tree and the hash map of its index.
* §2: which nodes a call leaves as they are (`Cell.setTv_iff`).
* §3: what is indexed stays so, from `u_json_index` on and through all calls.
* §4: a call keeps all containers, and if it fails all nodes, exactly when the node that it finds
  admits it (`set_tv_iff`).
-/
import Libu.Json.Array

namespace Libu.Json

open Verif
open scoped List

/-! ## 1. The code -/

/-- `res->type = type`, if a type is given. -/
def Cell.retype (res : Cell) (type : JsonType) : Cell :=
  if type ≠ .unknown then { res with type } else res

/-- A string or a number. -/
def hasText (type : JsonType) : Bool := type = .string || type = .number

/-- The value of a string or a number is set: whether this succeeds, and the node. -/
def Cell.revalue (res : Cell) (val : Option (List Char)) : Bool × Cell :=
  if hasText res.type then
    match val with
    | none => (false, res)
    | some val => (val.length < tokenSz, { res with val := val.take (tokenSz - 1) })
  else (true, res)

/-- What `u_json_cache_set_tv` does to the node that it has found. -/
def Cell.setTv (res : Cell) (type : JsonType) (val : Option (List Char)) : Bool × Cell :=
  (res.retype type).revalue val

/-- `u_json_cache_set_tv`: whether it returns 0, and the tree. -/
def Ptr.cacheSetTv (p : Ptr) (hmap : Option (Nat × NameMap)) (name : List Char) (type : JsonType)
    (val : Option (List Char)) : Option (Bool × Forest Cell) :=
  if isContainer p.jo.type then some (false, p.tree)
  else if isContainer type then some (false, p.tree)
  else do
    let addr ← p.cacheGet hmap name
    match addr with
    | none => some (false, p.tree)
    | some addr => do
      let res ← p.tree.toList.find? fun jo => jo.addr = addr
      let (ok, res) := res.setTv type val
      some (ok, p.tree.map fun jo => if jo.addr = addr then res else jo)

/-! ## 2. One node -/

/-- The type and the value are what they were. -/
structure Unchanged (jo jo' : Cell) : Prop where
  type : jo'.type = jo.type
  val : jo'.val = jo.val

/-- The value is refused for the type that the node gets. -/
def Refused (res : Cell) (type : JsonType) (val : Option (List Char)) : Prop :=
  hasText (res.retype type).type = true ∧ ∀ v ∈ val, tokenSz ≤ v.length

/-- A container gets no new type; and where the value is refused, neither does a leaf, and it has
the beginning of that value already. -/
structure Admits (res : Cell) (type : JsonType) (val : Option (List Char)) : Prop where
  container : isContainer res.type = true → type = .unknown
  refused : Refused res type val →
    (type = .unknown ∨ type = res.type) ∧ ∀ v ∈ val, v.take (tokenSz - 1) = res.val

section Node

variable {res : Cell} {type : JsonType} {val : Option (List Char)}

theorem Cell.retype_type (res : Cell) (type : JsonType) :
    (res.retype type).type = res.type ↔ type = .unknown ∨ type = res.type := by
  unfold Cell.retype
  split
  · next hne => exact (or_iff_right hne).symm
  · next hunknown => exact iff_of_true rfl (.inl (not_not.mp hunknown))

/-- Setting a value leaves all of the node as it is but the value. -/
theorem Cell.revalue_snd (res : Cell) (val : Option (List Char)) : (res.revalue val).2 =
    if hasText res.type then { res with val := (val.map (List.take (tokenSz - 1))).getD res.val }
    else res := by
  unfold Cell.revalue
  split
  · cases val <;> rfl
  · rfl

theorem Cell.revalue_fst (res : Cell) (val : Option (List Char)) :
    (res.revalue val).1 = false ↔ hasText res.type = true ∧ ∀ v ∈ val, tokenSz ≤ v.length := by
  unfold Cell.revalue
  split
  · next htext =>
    cases val with
    | none => exact iff_of_true rfl ⟨htext, fun v hv => by cases hv⟩
    | some val => simp [htext]
  · next htext => exact iff_of_false Bool.true_eq_false.mp fun h => htext h.1

theorem Cell.setTv_type (res : Cell) (type : JsonType) (val : Option (List Char)) :
    (res.setTv type val).2.type = (res.retype type).type := by
  rw [Cell.setTv, Cell.revalue_snd]
  split <;> rfl

/-- The links of a node and its name stay as they are. -/
theorem Cell.setTv_links (res : Cell) (type : JsonType) (val : Option (List Char)) :
    (res.setTv type val).2.addr = res.addr ∧ (res.setTv type val).2.fqn = res.fqn ∧
      (res.setTv type val).2.map = res.map := by
  rw [Cell.setTv, Cell.revalue_snd]
  unfold Cell.retype
  split <;> split <;> exact ⟨rfl, rfl, rfl⟩

/-- **A call on the node** keeps it, if it is a container or if the call fails, exactly when the
node admits it. -/
theorem Cell.setTv_iff (htype : isContainer type = false) :
    (isContainer res.type = true ∨ (res.setTv type val).1 = false → Unchanged res
      (res.setTv type val).2) ↔ Admits res type val := by
  have hval : (res.retype type).val = res.val := by
    unfold Cell.retype
    split <;> rfl
  constructor
  · intro h
    have hkeeps : ∀ hcase : isContainer res.type = true ∨ (res.setTv type val).1 = false,
        type = .unknown ∨ type = res.type := fun hcase =>
      (res.retype_type type).mp ((res.setTv_type type val).symm.trans (h hcase).type)
    constructor
    · intro hcont
      refine (hkeeps (.inl hcont)).resolve_right fun hsame => ?_
      rw [← hsame, htype] at hcont
      cases hcont
    · intro hrefused
      have hfails : (res.setTv type val).1 = false := (Cell.revalue_fst _ _).mpr hrefused
      refine ⟨hkeeps (.inr hfails), fun v hv => ?_⟩
      have hsame := (h (.inr hfails)).val
      rw [Cell.setTv, Cell.revalue_snd, if_pos hrefused.1, Option.mem_def.mp hv] at hsame
      exact hsame
  · rintro hadm (hcont | hfails)
    · have hsame : res.retype type = res := by
        rw [hadm.container hcont, Cell.retype, if_neg (not_not.mpr rfl)]
      have htext : ¬ hasText res.type = true := by
        revert hcont
        cases res.type <;> decide
      rw [Cell.setTv, Cell.revalue_snd, hsame, if_neg htext]
      exact ⟨rfl, rfl⟩
    · have hrefused : Refused res type val := (Cell.revalue_fst _ _).mp hfails
      obtain ⟨hkeeps, hbegin⟩ := hadm.refused hrefused
      refine ⟨(res.setTv_type type val).trans ((res.retype_type type).mpr hkeeps), ?_⟩
      rw [Cell.setTv, Cell.revalue_snd, if_pos hrefused.1]
      cases hv : val with
      | none => exact hval
      | some v => exact hbegin v hv

end Node

/-! ## 3. The index -/

/-- What holds of an indexed tree, with the address of the hash map. -/
structure Indexed (map : Nat) (hmap : NameMap) (t : Forest Cell) : Prop where
  easy : hmap.Easy
  stored : hmap.pairs ⊆ entries t
  marked : ∀ jo ∈ t.toList, jo.map = some map
  nodup : (addrs t).Nodup

section Indexed

variable {map : Nat} {hmap : NameMap} {t : Forest Cell}

/-- `u_json_index` makes an index of a decoded tree. -/
theorem Indexed.of_index {d : Doc} (hdec : Decoded t) (h : index map ⟨t, none⟩ = some d) :
    ∃ hmap, d.hmap = some (map, hmap) ∧ Indexed map hmap d.tree ∧
      hmap.pairs ~ Hmap.kept [] (entries d.tree) := by
  obtain ⟨root, c, rfl, hroot⟩ := hdec.exists_root
  obtain ⟨hmap₀, hmap, hnew, hfill, heasy, hindex⟩ := index_eq map c hroot
  obtain rfl := Option.some.inj (hindex.symm.trans h)
  obtain ⟨hmaps, haddrs⟩ := mark_map map none (.node { root with icur := 0 } c .nil)
  obtain ⟨m₀, hm₀, heasy₀, hempty⟩ := Hmap.easyNew_spec Nat
  obtain rfl := Option.some.inj (hm₀.symm.trans hnew)
  obtain ⟨m, hm, -, hpairs⟩ := @Hmap.fill_kept Nat _ heasy₀ []
    (by rw [hempty]; exact List.Perm.refl _)
    (entries (indexed map root c))
  obtain rfl := Option.some.inj (hm.symm.trans hfill)
  rw [hempty, List.append_nil] at hpairs
  have hstored : m.pairs ⊆ entries (indexed map root c) := fun e he =>
    (Hmap.kept_sublist _ _).subset (hpairs.mem_iff.mp he)
  refine ⟨m, rfl, ⟨heasy, hstored, hmaps, ?_⟩, hpairs⟩
  change ((mark map none (.node { root with icur := 0 } c .nil)).2.toList.map Cell.addr).Nodup
  rw [haddrs]
  exact hdec.nodup

/-- A lookup has a result, and what it finds is a node of the tree. -/
theorem Indexed.cacheGet (h : Indexed map hmap t) {p : Ptr} (hp : p.tree = t) (name : List Char) :
    ∃ found, p.cacheGet (some (map, hmap)) name = some found ∧
      ∀ addr, found = some addr → ∃ res ∈ t.toList, res.addr = addr := by
  have hmark : p.jo.map = some map := h.marked _ (hp ▸ Forest.mem_plug List.mem_cons_self)
  obtain ⟨found, hfound⟩ : ∃ found, p.cacheGet (some (map, hmap)) name = some found := by
    obtain ⟨found, hget, -⟩ := Hmap.easyGet_spec h.easy name
    obtain ⟨found', hget', -⟩ := Hmap.easyGet_spec h.easy (snprintf (p.jo.fqn ++ name))
    simp only [Ptr.cacheGet, hmark, hget, hget', Option.bind_eq_bind, Option.bind_some, if_true]
    split <;> exact ⟨_, rfl⟩
  refine ⟨found, hfound, ?_⟩
  rintro addr rfl
  obtain ⟨y, hy⟩ := cacheGet_sound h.easy hmark hfound
  obtain ⟨res, hres, heq⟩ := List.mem_map.mp (h.stored hy)
  exact ⟨res, hres, congrArg Prod.snd heq⟩

theorem Indexed.unique (h : Indexed map hmap t) {jo jo' : Cell} (hjo : jo ∈ t.toList)
    (hjo' : jo' ∈ t.toList) (haddr : jo.addr = jo'.addr) : jo = jo' :=
  List.inj_on_of_nodup_map h.nodup hjo hjo' haddr

theorem Indexed.find (h : Indexed map hmap t) {res : Cell} (hres : res ∈ t.toList) :
    (t.toList.find? fun jo => jo.addr = res.addr) = some res := find?_key h.nodup hres

/-- What a call does, by the handle, the type and what is found. -/
inductive Calls (p : Ptr) (found : Option Nat) (t : Forest Cell) (type : JsonType)
    (val : Option (List Char)) : Bool → Forest Cell → Prop
  | handle (hcont : isContainer p.jo.type = true) : Calls p found t type val false t
  | type (hcont : isContainer type = true) : Calls p found t type val false t
  | missing (hnone : found = none) : Calls p found t type val false t
  | node (hleaf : isContainer p.jo.type = false) (htype : isContainer type = false) {res : Cell}
    (hres : res ∈ t.toList) (hfound : found = some res.addr) :
    Calls p found t type val (res.setTv type val).1
      (t.map fun jo => if jo.addr = res.addr then (res.setTv type val).2 else jo)

theorem Indexed.cacheSetTv (h : Indexed map hmap t) {p : Ptr} (hp : p.tree = t) (name : List Char)
    (type : JsonType) (val : Option (List Char)) :
    ∃ found ok t', p.cacheGet (some (map, hmap)) name = some found ∧
      p.cacheSetTv (some (map, hmap)) name type val = some (ok, t') ∧
      Calls p found t type val ok t' := by
  obtain ⟨found, hget, hnode⟩ := h.cacheGet hp name
  unfold Ptr.cacheSetTv
  rw [hp]
  by_cases hcont : isContainer p.jo.type = true
  · exact ⟨found, false, t, hget, if_pos hcont, .handle hcont⟩
  rw [if_neg hcont]
  by_cases htype : isContainer type = true
  · exact ⟨found, false, t, hget, if_pos htype, .type htype⟩
  rw [if_neg htype, hget]
  cases found with
  | none => exact ⟨none, false, t, rfl, rfl, .missing rfl⟩
  | some addr =>
    obtain ⟨res, hres, rfl⟩ := hnode addr rfl
    refine ⟨some res.addr, _, _, rfl, ?_, .node (by simpa using hcont)
      (by simpa using htype) hres rfl⟩
    simp only [Option.bind_eq_bind, Option.bind_some, h.find hres]

/-- **A call keeps the index.** -/
theorem Indexed.kept (h : Indexed map hmap t) {p : Ptr} (hp : p.tree = t)
    {name : List Char} {type : JsonType} {val : Option (List Char)} {ok : Bool} {t' : Forest Cell}
    (hset : p.cacheSetTv (some (map, hmap)) name type val = some (ok, t')) :
    Indexed map hmap t' := by
  obtain ⟨found, ok', t₁, -, hset', hcalls⟩ := h.cacheSetTv hp name type val
  obtain ⟨rfl, rfl⟩ := Prod.mk.inj (Option.some.inj (hset'.symm.trans hset))
  cases hcalls with
  | handle | type | missing => exact h
  | @node _ _ res hres _ =>
    obtain ⟨haddr, hfqn, hmap⟩ := res.setTv_links type val
    -- the node that is written keeps its address, its name and its map
    have hlinks : ∀ jo ∈ t.toList, (if jo.addr = res.addr then (res.setTv type val).2
      else jo).addr = jo.addr ∧
        (if jo.addr = res.addr then (res.setTv type val).2 else jo).fqn = jo.fqn ∧
        (if jo.addr = res.addr then (res.setTv type val).2 else jo).map = jo.map := by
      intro jo hjo
      split
      · next hsame =>
        obtain rfl := h.unique hjo hres hsame
        exact ⟨haddr, hfqn, hmap⟩
      · exact ⟨rfl, rfl, rfl⟩
    refine ⟨h.easy, ?_, ?_, ?_⟩
    · rw [entries, Forest.toList_map, List.map_map]
      have hsame : t.toList.map ((fun jo => (jo.fqn, jo.addr)) ∘
          fun jo => if jo.addr = res.addr then (res.setTv type val).2 else jo) = entries t :=
        List.map_congr_left fun jo hjo => Prod.ext (hlinks jo hjo).2.1 (hlinks jo hjo).1
      rw [hsame]
      exact h.stored
    · rw [Forest.toList_map]
      intro jo' hjo'
      obtain ⟨jo, hjo, rfl⟩ := List.mem_map.mp hjo'
      exact (hlinks jo hjo).2.2.trans (h.marked jo hjo)
    · rw [addrs, Forest.toList_map, List.map_map]
      have hsame : t.toList.map (Cell.addr ∘ fun jo =>
        if jo.addr = res.addr then (res.setTv type val).2 else jo) =
          t.toList.map Cell.addr :=
        List.map_congr_left fun jo hjo => (hlinks jo hjo).1
      rw [hsame]
      exact h.nodup

end Indexed

/-! ## 4. Containers and failures -/

/-- Every container keeps its type and value, and so does every node if the call fails. -/
def SetsLeaf (ok : Bool) (t t' : Forest Cell) : Prop :=
  List.Forall₂
    (fun jo jo' => jo'.addr = jo.addr ∧ (isContainer jo.type = true ∨ ok = false →
      Unchanged jo jo'))
    t.toList t'.toList

/-- **Setting by name** leaves the containers as they are, and if it fails all nodes, exactly when
the node that is found admits the type and the value; if the handle and the type are no
containers. -/
theorem set_tv_iff {map : Nat} {hmap : NameMap} {t : Forest Cell} (h : Indexed map hmap t) {p : Ptr}
    (hp : p.tree = t) (name : List Char) (type : JsonType) (val : Option (List Char)) :
    (∃ ok t', p.cacheSetTv (some (map, hmap)) name type val = some (ok, t') ∧ SetsLeaf ok t t') ↔
      (isContainer p.jo.type = false → isContainer type = false → ∀ res ∈ t.toList,
        p.cacheGet (some (map, hmap)) name = some (some res.addr) → Admits res type val) := by
  obtain ⟨found, ok, t', hget, hset, hcalls⟩ := h.cacheSetTv hp name type val
  have hsets : (∃ ok t', p.cacheSetTv (some (map, hmap)) name type val = some (ok, t') ∧
    SetsLeaf ok t t') ↔
      SetsLeaf ok t t' := by
    constructor
    · rintro ⟨_, _, hset', hleaf⟩
      obtain ⟨rfl, rfl⟩ := Prod.mk.inj (Option.some.inj (hset.symm.trans hset'))
      exact hleaf
    · exact fun hleaf => ⟨ok, t', hset, hleaf⟩
  have hrefl : ∀ ok, SetsLeaf ok t t := fun ok =>
    List.forall₂_same.mpr fun jo _ => ⟨rfl, fun _ => ⟨rfl, rfl⟩⟩
  rw [hsets, hget]
  cases hcalls with
  | handle hcont =>
    exact iff_of_true (hrefl _) fun hleaf => absurd (hcont.symm.trans hleaf) (by decide)
  | type hcont =>
    exact iff_of_true (hrefl _) fun _ hleaf => absurd (hcont.symm.trans hleaf) (by decide)
  | missing hnone =>
    refine iff_of_true (hrefl _) fun _ _ res _ hfound => ?_
    rw [hnone] at hfound
    cases Option.some.inj hfound
  | @node hleaf htype res hres hfound =>
    have haddr := (res.setTv_links type val).1
    have hnode : SetsLeaf (res.setTv type val).1 t
        (t.map fun jo => if jo.addr = res.addr then (res.setTv type val).2 else jo) ↔
        Admits res type val := by
      rw [SetsLeaf, Forest.toList_map, List.forall₂_map_right_iff, List.forall₂_same,
        ← Cell.setTv_iff htype]
      constructor
      · intro hall
        have hself := (hall res hres).2
        rwa [if_pos rfl] at hself
      · intro hself jo hjo
        split
        · next hsame =>
          obtain rfl := h.unique hjo hres hsame
          exact ⟨haddr, hself⟩
        · exact ⟨rfl, fun _ => ⟨rfl, rfl⟩⟩
    rw [hnode, hfound]
    constructor
    · intro hadm _ _ res' hres' heq
      obtain rfl := h.unique hres hres' (Option.some.inj (Option.some.inj heq))
      exact hadm
    · exact fun hall => hall hleaf htype res hres rfl

/-- The first element of the tree of `pairText`, when it is indexed. -/
def leafOne : Ptr :=
  ⟨[.parent ⟨⟨.array, [], [], 0, 2⟩, 1, ['.'], 2, some 7⟩ .nil],
    ⟨⟨.number, [], ['1'], 1, 0⟩, 2, ['.', '[', '0', ']'], 0, some 7⟩, .nil,
    .node ⟨⟨.number, [], ['2'], 1, 0⟩, 3, ['.', '[', '1', ']'], 0, some 7⟩ .nil .nil⟩

/-- The value of the second element is set from the first. -/
theorem set_tv_pair : ∃ d hmap ok t', index 7 ⟨ptrOne.tree, none⟩ = some d ∧
    leafOne.cacheSetTv (some (7, hmap)) ['.', '[', '1', ']'] .unknown (some ['3']) = some (ok, t') ∧
      SetsLeaf ok d.tree t' := by
  obtain ⟨_, _, -, -, -, hindex⟩ := @index_eq pairRoot 7 ptrOne.reach rfl
  obtain ⟨hmap, -, hindexed, -⟩ := Indexed.of_index decoded_pair hindex
  have htree : leafOne.tree = indexed 7 pairRoot ptrOne.reach := by decide
  have hadm : ∀ res : Cell, Admits res .unknown (some ['3']) := fun res =>
    ⟨fun _ => rfl, fun hrefused => absurd (hrefused.2 _ rfl) (by decide)⟩
  obtain ⟨ok, t', hset, hleaf⟩ :=
    (set_tv_iff hindexed htree ['.', '[', '1', ']'] .unknown (some ['3'])).mpr
    fun _ _ res _ _ => hadm res
  exact ⟨_, hmap, ok, t', hindex, hset, hleaf⟩

/-- From the first element, the array itself becomes `null`. -/
theorem not_set_tv_root : ∃ d hmap, index 7 ⟨ptrOne.tree, none⟩ = some d ∧ d.hmap = some (7, hmap) ∧
    leafOne.tree = d.tree ∧ ¬ ∃ ok t',
      leafOne.cacheSetTv (some (7, hmap)) ['.'] .null none = some (ok, t') ∧
      SetsLeaf ok d.tree t' := by
  obtain ⟨_, _, -, -, -, hindex⟩ := @index_eq pairRoot 7 ptrOne.reach rfl
  obtain ⟨hmap, hhmap, hindexed, hpairs⟩ := Indexed.of_index decoded_pair hindex
  have htree : leafOne.tree = indexed 7 pairRoot ptrOne.reach := by decide
  refine ⟨_, hmap, hindex, hhmap, htree, ?_⟩
  have hroot : (['.'], 1) ∈ Hmap.kept [] (entries (indexed 7 pairRoot ptrOne.reach)) := by decide
  have hget : leafOne.cacheGet (some (7, hmap)) ['.'] = some (some 1) :=
    cacheGet_some hindexed.easy rfl (hpairs.mem_iff.mpr hroot)
  rintro ⟨ok, t', hset, hleaf⟩
  unfold Ptr.cacheSetTv at hset
  rw [if_neg (by decide), if_neg (by decide), hget] at hset
  obtain ⟨-, rfl⟩ := Prod.mk.inj (Option.some.inj hset)
  cases hleaf with
  | cons hhead _ => exact absurd (hhead.2 (.inl rfl)).type (by decide)

end Libu.Json
