/-
# The binary search tree of `toolbox/bst.c`

A node pointer of the C code is a `Tree`: NULL, or a node with its key, value, element count
and two child pointers.  No node of a `u_bst_t` is ever shared, so rewriting a node in place
and rebuilding the path above it are the same thing.

* Keys and values are abstract: `u_bst_assign` copies what the caller passes, and the tree only
  looks at keys through the comparison function.
* `nelem` is a `size_t`, so it is a `UInt64` and wraps as the C field does.  The counts STEER the
  code (promotion, selection, random insertion), so a count that is off is part of the state.
* An operation that dereferences NULL or divides by zero has no result (`none`).
* Allocation succeeds.  `u_zalloc` returns the address of the new node, which an operation that
  creates a node takes as a parameter (`Item.ptr`); what malloc promises about it is stated where
  it is used.
-/
import Mathlib.Data.List.Basic
import Mathlib.Algebra.Group.Int.Defs
import Mathlib.Algebra.Group.Nat.Defs

namespace Libu

/-! ## 1. Nodes and trees -/

/-- What a node carries besides counts and links: its own address, its key and its value. -/
structure Bst.Item (κ β : Type) where
  ptr : UInt64
  key : κ
  val : β
deriving DecidableEq, Repr

/-- `u_bst_node_t *`: NULL or a node. -/
inductive Bst.Tree (κ β : Type) where
  | null
  | node (item : Bst.Item κ β) (nelem : UInt64) (left right : Bst.Tree κ β)
deriving DecidableEq, Repr

/-- `u_bst_rot_t`. -/
inductive Bst.Rot where
  | left
  | right
deriving DecidableEq, Repr

/-- `u_bst_t`, less the key and value attributes that only allocation and release look at. -/
structure Bst (κ β : Type) where
  opts : Nat
  cmp : κ → κ → Int
  root : Bst.Tree κ β

namespace Bst

/-- `U_BST_OPT_PUSH_TOP`; `U_BST_OPT_PUSH_BOTTOM` (2) is tested nowhere, bottom insertion is the
default. -/
def optPushTop : Nat := 1

/-- `U_BST_OPT_RANDOMIZED`. -/
def optRandomized : Nat := 4

/-- glibc's `RAND_MAX`. -/
def randMax : UInt64 := 2147483647

variable {κ β : Type}

namespace Tree

/-- The nodes in the order in which `u_bst_node_foreach` visits them. -/
def foreach : Tree κ β → List (Item κ β)
  | null => []
  | node x _ l r => l.foreach ++ x :: r.foreach

/-- The number of nodes. -/
def size : Tree κ β → Nat
  | null => 0
  | node _ _ l r => l.size + r.size + 1

/-- `node ? node->nelem : 0`. -/
def nelemOr0 : Tree κ β → UInt64
  | null => 0
  | node _ n _ _ => n

/-- `node ? node->nelem + 1 : 1`. -/
def nelemPlus1 : Tree κ β → UInt64
  | null => 1
  | node _ n _ _ => n + 1

@[simp] theorem foreach_null : (null : Tree κ β).foreach = [] := rfl

@[simp] theorem foreach_node (x : Item κ β) (n : UInt64) (l r : Tree κ β) :
    (node x n l r).foreach = l.foreach ++ x :: r.foreach := rfl

@[simp] theorem size_null : (null : Tree κ β).size = 0 := rfl

@[simp] theorem size_node (x : Item κ β) (n : UInt64) (l r : Tree κ β) :
    (node x n l r).size = l.size + r.size + 1 := rfl

@[simp] theorem length_foreach : ∀ t : Tree κ β, t.foreach.length = t.size
  | null => rfl
  | node x n l r => by
    simp only [foreach_node, List.length_append, List.length_cons, length_foreach l,
      length_foreach r, size_node]
    omega

theorem foreach_eq_nil {t : Tree κ β} : t.foreach = [] ↔ t = null := by
  cases t <;> simp

end Tree

/-! ## 2. Rotation -/

/-- `u_bst_rotate`.  The pivot's own count is reduced by the part of the tree that ends up
outside of it: the promoted node and the subtree the promoted node keeps. -/
def rotate : Tree κ β → Rot → Option (Tree κ β)
  | .null, _ => some .null
  | .node x n l r, .left =>
    match r with
    | .null => none  -- `newroot` is NULL and is dereferenced
    | .node y _ yl yr => some (.node y n (.node x (n - yr.nelemPlus1) l yl) yr)
  | .node x n l r, .right =>
    match l with
    | .null => none
    | .node y _ yl yr => some (.node y n yl (.node x (n - yl.nelemPlus1) yr r))

/-! ## 3. Insertion -/

/-- `u_bst_node_new`: the node counts itself. -/
def nodeNew (e : Item κ β) : Tree κ β := .node e 1 .null .null

/-- `u_bst_node_push`. -/
def nodePush (cmp : κ → κ → Int) (e : Item κ β) : Tree κ β → Tree κ β
  | .null => nodeNew e
  | .node x n l r =>
    if cmp e.key x.key < 0 then .node x (n + 1) (nodePush cmp e l) r
    else .node x (n + 1) l (nodePush cmp e r)

/-- A node that the walk of `u_bst_node_push_bottom` has passed, with the turn it took there. -/
structure Frame (κ β : Type) where
  item : Item κ β
  nelem : UInt64
  left : Tree κ β
  right : Tree κ β
  goLeft : Bool

/-- The walk of `u_bst_node_push_bottom`: every node on the way is counted up before the walk
goes on to the child.  The nodes passed are stacked, the last one (`parent`) on top. -/
def pushBottomWalk (cmp : κ → κ → Int) (key : κ) : Tree κ β → List (Frame κ β) → List (Frame κ β)
  | .null, up => up
  | .node x n l r, up =>
    if cmp key x.key < 0 then pushBottomWalk cmp key l (⟨x, n + 1, l, r, true⟩ :: up)
    else pushBottomWalk cmp key r (⟨x, n + 1, l, r, false⟩ :: up)

/-- The subtree at a passed node, once the child the walk went to is `child`. -/
def Frame.relink (f : Frame κ β) (child : Tree κ β) : Tree κ β :=
  if f.goLeft then .node f.item f.nelem child f.right else .node f.item f.nelem f.left child

/-- `u_bst_node_push_bottom`: the walk, then one more comparison that picks the side of `parent`
to which the new node is attached. -/
def nodePushBottom (cmp : κ → κ → Int) (e : Item κ β) (root : Tree κ β) : Tree κ β :=
  match pushBottomWalk cmp e.key root [] with
  | [] => nodeNew e
  | parent :: up =>
    let attached : Tree κ β :=
      if cmp e.key parent.item.key < 0 then
        .node parent.item parent.nelem (nodeNew e) parent.right
      else .node parent.item parent.nelem parent.left (nodeNew e)
    up.foldl (fun child f => f.relink child) attached

/-- `u_bst_node_push_top`. -/
def nodePushTop (cmp : κ → κ → Int) (e : Item κ β) : Tree κ β → Option (Tree κ β)
  | .null => some (nodeNew e)
  | .node x n l r =>
    if cmp e.key x.key < 0 then do
      let l ← nodePushTop cmp e l
      rotate (.node x (n + 1) l r) .right
    else do
      let r ← nodePushTop cmp e r
      rotate (.node x (n + 1) l r) .left

/-- `u_bst_node_push_rand`, where `rand ()` returns `rnd`.  Only the node it is called on is
decided at random: below it the insertion is `u_bst_node_push`. -/
def nodePushRand (cmp : κ → κ → Int) (e : Item κ β) (rnd : UInt64) :
    Tree κ β → Option (Tree κ β)
  | .null => some (nodeNew e)
  | .node x n l r =>
    -- `RAND_MAX / (node->nelem + 1)` traps when the sum wraps to zero
    if n + 1 = 0 then none
    else if rnd < randMax / (n + 1) then nodePushTop cmp e (.node x n l r)
    else if cmp e.key x.key < 0 then some (.node x (n + 1) (nodePush cmp e l) r)
    else some (.node x (n + 1) l (nodePush cmp e r))

/-- What `u_bst_push` assigns to `bst->root`, by insertion policy. -/
def pushRoot (b : Bst κ β) (e : Item κ β) (rnd : UInt64) : Option (Tree κ β) :=
  if b.opts &&& optRandomized ≠ 0 then nodePushRand b.cmp e rnd b.root
  else if b.opts &&& optPushTop ≠ 0 then nodePushTop b.cmp e b.root
  else some (nodePushBottom b.cmp e b.root)

/-- `u_bst_push`: the root is replaced by what the insertion policy makes of it, and a tree that is
NULL then would be the failure of an allocation. -/
def push (b : Bst κ β) (e : Item κ β) (rnd : UInt64) : Option (Int × Bst κ β) := do
  let root ← pushRoot b e rnd
  some (match root with | .null => -1 | .node .. => 0, { b with root })

/-! ## 4. Search and selection -/

/-- `u_bst_node_search`: the node found, as the subtree it heads. -/
def nodeSearch (cmp : κ → κ → Int) (key : κ) : Tree κ β → Tree κ β
  | .null => .null
  | .node x n l r =>
    let rc := cmp key x.key
    if rc = 0 then .node x n l r
    else if 0 < rc then nodeSearch cmp key r
    else nodeSearch cmp key l

/-- `u_bst_search`: the subtree whose root has the key, or NULL. -/
def search (b : Bst κ β) (key : κ) : Tree κ β := nodeSearch b.cmp key b.root

/-- A `size_t` returned as `ssize_t`: from half of the range on it comes out negative. -/
def toSsize (n : UInt64) : Int := if n.toNat < 2 ^ 63 then n.toNat else (n.toNat : Int) - 2 ^ 64

/-- `u_bst_count`: what the root counts, which nothing checks against the nodes. -/
def count (b : Bst κ β) : Int :=
  match b.root with
  | .null => 0
  | .node _ n _ _ => toSsize n

/-! ## 5. Promotion, deletion, balancing -/

/-- `u_bst_node_promote_nth`: on the way back each node that was passed is rotated below the one
that is promoted. The way down is chosen by the counts, so a count that is off may lead to NULL or
to another node. -/
def nodePromoteNth : Tree κ β → UInt64 → Option (Tree κ β)
  | .null, _ => some .null
  | .node x c l r, n =>
    let t := l.nelemOr0
    if n < t then do
      let l ← nodePromoteNth l n
      rotate (.node x c l r) .right
    else if t < n then do
      let r ← nodePromoteNth r (n - (t + 1))
      rotate (.node x c l r) .left
    else some (.node x c l r)

/-- `u_bst_node_join_lr`.  `r->left = l` drops whatever the left child of the promoted node
was, and leaves the count of the promoted node as promotion left it. -/
def nodeJoinLr (l r : Tree κ β) : Option (Tree κ β) :=
  match r with
  | .null => some l
  | r => do
    match ← nodePromoteNth r 0 with
    | .null => none
    | .node y c _ yr => some (.node y c l yr)

/-- `if (node && *pfound) node->nelem -= 1`. -/
def discount (found : Bool) : Tree κ β → Tree κ β
  | .null => .null
  | .node x c l r => if found then .node x (c - 1) l r else .node x c l r

/-- `u_bst_node_delete`, with the value `*pfound` has on return (it is 0 on entry). -/
def nodeDelete (cmp : κ → κ → Int) (key : κ) : Tree κ β → Option (Tree κ β × Bool)
  | .null => some (.null, false)
  | .node x c l r =>
    let rc := cmp key x.key
    if rc < 0 then do
      let (l, found) ← nodeDelete cmp key l
      some (discount found (.node x c l r), found)
    else if 0 < rc then do
      let (r, found) ← nodeDelete cmp key r
      some (discount found (.node x c l r), found)
    else do
      let joined ← nodeJoinLr l r
      some (discount true joined, true)

/-- `u_bst_delete`: whether a node with the key was found, and the tree without it. -/
def delete (b : Bst κ β) (key : κ) : Option (Int × Bst κ β) := do
  let (root, found) ← nodeDelete b.cmp key b.root
  some (if found then 0 else -1, { b with root })

/-- `u_bst_node_balance`, down to a recursion depth of `fuel`. -/
def nodeBalance : Nat → Tree κ β → Option (Tree κ β)
  | _, .null => some .null
  | 0, .node .. => none
  | fuel + 1, .node x c l r =>
    if c < 2 then some (.node x c l r)
    else do
      match ← nodePromoteNth (.node x c l r) (c / 2) with
      | .null => none
      | .node y d yl yr =>
        let yl ← nodeBalance fuel yl
        let yr ← nodeBalance fuel yr
        some (.node y d yl yr)

/-- `u_bst_balance`.  A recursion passes each node of the tree at most once on its way down, so
the number of nodes bounds its depth. -/
def balance (b : Bst κ β) : Option (Int × Bst κ β) := do
  let root ← nodeBalance b.root.size b.root
  some (0, { b with root })

/-! ## 6. Operations -/

/-- An update of a tree: a push under any insertion policy (`opts`) and any outcome of `rand`,
or a delete. -/
inductive Upd (κ β : Type) where
  | push (opts : Nat) (e : Item κ β) (rnd : UInt64)
  | delete (key : κ)

/-- An update, or a rebalancing. -/
inductive Op (κ β : Type) where
  | upd (u : Upd κ β)
  | balance

/-- The update on the code's tree; the options are those of the tree at the time of the push. -/
def Upd.exec (b : Bst κ β) : Upd κ β → Option (Int × Bst κ β)
  | .push opts e rnd => Bst.push { b with opts } e rnd
  | .delete key => Bst.delete b key

/-- An operation on the code's tree, with what it returns. -/
def Op.exec (b : Bst κ β) : Op κ β → Option (Int × Bst κ β)
  | .upd u => u.exec b
  | .balance => Bst.balance b

end Bst

end Libu
