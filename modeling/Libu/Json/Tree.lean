/-
# Pointers into a tree: walking, encoding and removing (`toolbox/json.c`)

A pointer to a node goes with what its links reach: its children and its next siblings, and the way
back to the root.  The routines below are given such a pointer and follow the links to the children
and to the next siblings, from the node they are given on as from all others.

* §1 is the nodes with their addresses, and `u_json_walk`; §2 is the pointers.
* §3: what is freed, encoded and walked is the subtree of the node exactly when no sibling comes
  after it (`scope_iff`).

`TAILQ_REMOVE` takes the node out of the list, and leaves the node's own link to the next one as it
is.
-/
import Libu.Json.Accept

namespace Libu.Json

open Verif

/-! ## 1. Nodes and walks -/

/-- `struct u_json_s`, at its address.  `map` is the address of the hash map. -/
structure Cell extends JsonNode where
  addr : Nat
  fqn : List Char
  icur : UInt32
  map : Option Nat
  deriving DecidableEq

/-- The nodes that a pointer reaches. -/
def addrs (f : Forest Cell) : List Nat := f.toList.map Cell.addr

/-- `U_JSON_WALK_*` -/
inductive Strategy
  | preorder | postorder
  deriving DecidableEq

section Walk

variable {α β : Type}

/-- `u_json_walk`: the calls of the callback, each with the level it is given. -/
def walk (strategy : Strategy) : Nat → Forest α → List (α × Nat)
  | _, .nil => []
  | l, .node jo children siblings =>
    let inner := walk strategy (l + 1) children ++ walk strategy l siblings
    match strategy with
    | .preorder => (jo, l) :: inner
    | .postorder => inner ++ [(jo, l)]

theorem walk_preorder (l : Nat) (f : Forest α) : walk .preorder l f = f.levels l := by
  induction f generalizing l with
  | nil => rfl
  | node jo c s ihc ihs => rw [walk, Forest.levels, ihc, ihs]

theorem walk_perm (strategy : Strategy) (l : Nat) (f : Forest α) :
    (walk strategy l f).Perm (f.levels l) := by
  induction f generalizing l with
  | nil => exact List.Perm.refl _
  | node jo c s ihc ihs =>
    have hinner := (ihc (l + 1)).append (ihs l)
    cases strategy with
    | preorder =>
      rw [walk, Forest.levels]
      exact hinner.cons _
    | postorder =>
      rw [walk, Forest.levels]
      exact (List.perm_append_singleton _ _).trans (hinner.cons _)

/-- A walk calls back once for every node it reaches. -/
theorem walk_toList (strategy : Strategy) (l : Nat) (f : Forest α) :
    ((walk strategy l f).map Prod.fst).Perm f.toList := by
  rw [← f.levels_fst l]
  exact (walk_perm strategy l f).map Prod.fst

end Walk

/-- A tree that `u_json_decode` has made. -/
structure Decoded (t : Forest Cell) : Prop where
  text : ∃ s jo, decode s = .ok jo ∧ t.map Cell.toJsonNode = jo.root
  fresh : ∀ jo ∈ t.toList, jo.fqn = [] ∧ jo.icur = 0 ∧ jo.map = none
  nodup : (addrs t).Nodup

/-! ## 2. Pointers -/

/-- A `u_json_t *`. -/
structure Ptr where
  above : List (Crumb Cell)
  jo : Cell
  children : Forest Cell
  siblings : Forest Cell

/-- `p->count -= 1`, where the parent `p` is an array. -/
def Cell.uncount (p : Cell) : Cell :=
  if p.type = .array then { p with count := (p.count + (2 ^ 32 - 1)) % 2 ^ 32 } else p

/-- The way back, when the first parent on it has lost a child. -/
def uncount : List (Crumb Cell) → List (Crumb Cell)
  | [] => []
  | .sibling a c :: z => .sibling a c :: uncount z
  | .parent p s :: z => .parent p.uncount s :: z

namespace Ptr

/-- What is reached from the node on. -/
def reach (p : Ptr) : Forest Cell := .node p.jo p.children p.siblings

/-- The tree that the node is in. -/
def tree (p : Ptr) : Forest Cell := Forest.plug p.above p.reach

/-- The subtree of the node. -/
def subtree (p : Ptr) : Forest Cell := .node p.jo p.children .nil

/-- `u_json_free`: the nodes that it frees, and the hash map. -/
def free (p : Ptr) : List Nat × Option Nat :=
  ((walk .postorder 0 p.reach).map fun call => call.1.addr, p.jo.map)

/-- `u_json_remove`: the nodes that it frees, and the tree that is left of the node's. -/
def remove (p : Ptr) : Option (List Nat × Forest Cell) :=
  if p.jo.map.isSome then none else some (p.free.1, Forest.plug (uncount p.above) p.siblings)

/-- `u_json_encode` -/
def encode (p : Ptr) : Option (List Char) := doEncode (p.reach.map Cell.toJsonNode)

end Ptr

/-! ## 3. Scope -/

/-- The subtree is freed, and no other node: all others are where they were.  Where a node is, is
where a walk comes to it, and at what level. -/
def Removes (p : Ptr) : Prop := ∃ freed rest, p.remove = some (freed, rest) ∧
  freed.Perm (addrs p.subtree) ∧
  (walk .preorder 0 (rest.map Cell.addr)).filter (fun call => call.1 ∉ freed) =
    (walk .preorder 0 (p.tree.map Cell.addr)).filter (fun call => call.1 ∉ addrs p.subtree)

/-- What the three interfaces do is done to the subtree of the node, and to nothing else. -/
structure Scoped (p : Ptr) : Prop where
  removes : Removes p
  encodes : p.encode = doEncode (p.subtree.map Cell.toJsonNode)
  /-- The callback is called once for each node of the subtree. -/
  walks : ∀ strategy l, ((walk strategy l p.reach).map fun call => call.1.addr).Perm
    (addrs p.subtree)

theorem Cell.uncount_addr (p : Cell) : p.uncount.addr = p.addr := by
  unfold Cell.uncount
  split <;> rfl

/-- Counting aside, the way back is the same. -/
theorem uncount_addr (z : List (Crumb Cell)) :
    (uncount z).map (Crumb.map Cell.addr) = z.map (Crumb.map Cell.addr) := by
  induction z with
  | nil => rfl
  | cons w z ih =>
    cases w with
    | sibling a c => rw [uncount, List.map_cons, List.map_cons, ih]
    | parent a s =>
      rw [uncount, List.map_cons, List.map_cons]
      simp only [Crumb.map, Cell.uncount_addr]

section Scope

variable {p : Ptr}

theorem walks_addrs (strategy : Strategy) (l : Nat) (f : Forest Cell) :
    ((walk strategy l f).map fun call => call.1.addr).Perm (addrs f) := by
  have hperm := (walk_toList strategy l f).map Cell.addr
  rwa [List.map_map] at hperm

/-- A node without next siblings can be removed on its own. -/
theorem removes_of_last (hnodup : (addrs p.tree).Nodup) (hmap : p.jo.map = none)
    (hlast : p.siblings = .nil) : Removes p := by
  have hreach : p.reach = p.subtree := by rw [Ptr.reach, Ptr.subtree, hlast]
  have hfree : p.free.1.Perm (addrs p.subtree) := hreach ▸ walks_addrs .postorder 0 p.reach
  refine ⟨p.free.1, Forest.plug (uncount p.above) p.siblings, ?_, hfree, ?_⟩
  · rw [Ptr.remove, hmap]
    rfl
  have haddrs : (p.subtree.map Cell.addr).toList = addrs p.subtree := Forest.toList_map _ _
  have htree : p.tree.map Cell.addr =
      Forest.plug (p.above.map (Crumb.map Cell.addr)) (p.subtree.map Cell.addr) := by
    rw [Ptr.tree, hreach, Forest.plug_map]
  have hplug : (Forest.plug (p.above.map (Crumb.map Cell.addr))
    (p.subtree.map Cell.addr)).toList.Nodup := by
    rw [← htree, Forest.toList_map]
    exact hnodup
  obtain ⟨hwhole, hrest⟩ := Forest.outside_plug hplug
  rw [haddrs] at hwhole hrest
  -- the same nodes have been freed as are in the subtree
  have hiff : ∀ call : Nat × Nat, decide (call.1 ∉ p.free.1) =
    decide (call.1 ∉ addrs p.subtree) := by
    intro call
    exact decide_eq_decide.mpr (not_congr hfree.mem_iff)
  rw [walk_preorder, walk_preorder, htree, hwhole, List.filter_congr fun call _ => hiff call,
    Forest.plug_map, uncount_addr, hlast, Forest.map_nil, Forest.levels_plug]
  exact (congrArg _ (congrArg (· ++ _) (List.append_nil _))).trans hrest

/-- **What an interface does to a node is done to its subtree alone exactly when no sibling comes
after the node.**  The walk starts at the node as it does at a root, and goes on along its siblings;
so freeing or indexing an element that is not the last one frees or indexes those behind it. -/
theorem scope_iff (hnodup : (addrs p.tree).Nodup) (hmap : p.jo.map = none) :
    Scoped p ↔ p.siblings = .nil := by
  constructor
  · intro hscope
    have hlen := ((walks_addrs .preorder 0 p.reach).symm.trans (hscope.walks .preorder 0)).length_eq
    simp only [addrs, List.length_map, Ptr.reach, Ptr.subtree, Forest.toList_node,
      Forest.toList_nil, List.length_cons, List.length_append, List.length_nil] at hlen
    refine Forest.toList_eq_nil.mp (List.length_eq_zero_iff.mp ?_)
    omega
  · intro hlast
    have hreach : p.reach = p.subtree := by rw [Ptr.reach, Ptr.subtree, hlast]
    constructor
    · exact removes_of_last hnodup hmap hlast
    · rw [Ptr.encode, hreach]
    · intro strategy l
      rw [hreach]
      exact walks_addrs strategy l p.subtree

end Scope

/-- `[1,2]` -/
def pairText : List Char := ['[', '1', ',', '2', ']']

def pairRoot : Cell := ⟨⟨.array, [], [], 0, 2⟩, 1, [], 0, none⟩

def pairOne : Cell := ⟨⟨.number, [], ['1'], 1, 0⟩, 2, [], 0, none⟩

def pairTwo : Cell := ⟨⟨.number, [], ['2'], 1, 0⟩, 3, [], 0, none⟩

/-- The two elements of the tree of `pairText`. -/
def ptrOne : Ptr := ⟨[.parent pairRoot .nil], pairOne, .nil, .node pairTwo .nil .nil⟩

def ptrTwo : Ptr := ⟨[.sibling pairOne .nil, .parent pairRoot .nil], pairTwo, .nil, .nil⟩

theorem decoded_pair : Decoded ptrOne.tree :=
  ⟨⟨pairText, ⟨pairRoot.toJsonNode, ptrOne.reach.map Cell.toJsonNode⟩, rfl,
    rfl⟩, by decide, by decide⟩

/-- The second element can be removed. -/
theorem scope_second : Scoped ptrTwo :=
  (scope_iff (by decide) rfl).mpr rfl

/-- The first one goes with the second one. -/
theorem scope_first : Decoded ptrOne.tree ∧ ¬ Scoped ptrOne := by
  refine ⟨decoded_pair, fun hscope => ?_⟩
  have hlen := (hscope.walks .preorder 0).length_eq
  exact absurd hlen (by decide)

end Libu.Json
