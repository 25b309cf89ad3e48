/-
# Runs of updates on one tree

The abstract value of a tree is its in-order sequence of items, and the abstract machine is a
sorted multiset (`RefStep`): a push inserts after every item with an equal key, a delete takes
out one item with an equal key or, when there is none, fails.

Three things are said here about whole runs from the empty tree.

* As long as only pushes are made, every insertion policy computes the same sequence, for every
  mix of policies and every outcome of `rand` (`policies_agree`).
* With deletes the counts go stale, since `u_bst_node_delete` gives the node it promotes the
  count of one of the two subtrees it joins.  They stay exact exactly as long as every delete
  takes out a leaf (`counts_exact_iff`).
* A stale count can stop the promotion inside a later join, and then whole subtrees are dropped;
  or it can be `SIZE_MAX`, and randomised insertion divides by zero.  The tree is the sorted
  multiset exactly as long as neither happens (`refines_multiset_iff`).
-/
import Libu.Bst.Count
import Libu.Verif.Run
import Mathlib.Data.Finset.Card

namespace Libu.Bst

open Verif
open scoped List

variable {κ β : Type} {cmp : κ → κ → Int}

/-- A tree as `u_bst_new` and `u_bst_set_cmp` leave it. -/
def empty (cmp : κ → κ → Int) : Bst κ β := ⟨0, cmp, .null⟩

/-! ## 1. The addresses of live nodes -/

/-- What malloc promises about the nodes that are alive at one time: no two share an address, no
address is NULL, and every one is aligned for the pointers a node holds. -/
structure Live (items : List (Item κ β)) : Prop where
  nodup : (items.map Item.ptr).Nodup
  ne_null : ∀ e ∈ items, e.ptr ≠ 0
  aligned : ∀ e ∈ items, 8 ∣ e.ptr.toNat

/-- The address of a new node, as malloc chooses it while the nodes `items` are alive. -/
structure FreshPtr (items : List (Item κ β)) (e : Item κ β) : Prop where
  unused : ∀ x ∈ items, x.ptr ≠ e.ptr
  ne_null : e.ptr ≠ 0
  aligned : 8 ∣ e.ptr.toNat

instance (items : List (Item κ β)) (e : Item κ β) : Decidable (FreshPtr items e) :=
  decidable_of_iff ((∀ x ∈ items, x.ptr ≠ e.ptr) ∧ e.ptr ≠ 0 ∧ 8 ∣ e.ptr.toNat)
    ⟨fun h => ⟨h.1, h.2.1, h.2.2⟩, fun h => ⟨h.unused, h.ne_null, h.aligned⟩⟩

theorem Live.nil : Live ([] : List (Item κ β)) := ⟨List.nodup_nil, by simp, by simp⟩

/-- A node that malloc has just given is live with those that were there. -/
theorem Live.cons {items : List (Item κ β)} {e : Item κ β} (h : Live items)
    (he : FreshPtr items e) : Live (e :: items) := by
  refine ⟨?_, ?_, ?_⟩
  · rw [List.map_cons, List.nodup_cons, List.mem_map]
    exact ⟨fun ⟨x, hx, hxe⟩ => he.unused x hx hxe, h.nodup⟩
  · exact List.forall_mem_cons.mpr ⟨he.ne_null, h.ne_null⟩
  · exact List.forall_mem_cons.mpr ⟨he.aligned, h.aligned⟩

/-- The order of the nodes does not matter, nor does it if there are fewer of them (`Live.sublist`).
-/
theorem Live.perm {items items' : List (Item κ β)} (h : Live items) (hp : items' ~ items) :
    Live items' :=
  ⟨(hp.map Item.ptr).nodup_iff.mpr h.nodup, fun e he => h.ne_null e (hp.mem_iff.mp he),
    fun e he => h.aligned e (hp.mem_iff.mp he)⟩

theorem Live.sublist {items items' : List (Item κ β)} (h : Live items)
    (hs : items'.Sublist items) : Live items' :=
  ⟨(hs.map Item.ptr).nodup h.nodup, fun e he => h.ne_null e (hs.subset he),
    fun e he => h.aligned e (hs.subset he)⟩

/-- **Memory bounds the counts**: aligned addresses leave no room for as many nodes as would
make a `size_t` count wrap, or an `ssize_t` count negative. -/
theorem Live.length_le {items : List (Item κ β)} (h : Live items) : items.length ≤ 2 ^ 61 := by
  have hnodup : (items.map fun e => e.ptr.toNat / 8).Nodup := by
    rw [show (items.map fun e => e.ptr.toNat / 8)
      = (items.map Item.ptr).map (fun p => p.toNat / 8) by simp]
    refine h.nodup.map_on fun p hp q hq hpq => UInt64.toNat_inj.mp ?_
    obtain ⟨x, hx, rfl⟩ := List.mem_map.mp hp
    obtain ⟨y, hy, rfl⟩ := List.mem_map.mp hq
    have hx8 := h.aligned x hx
    have hy8 := h.aligned y hy
    omega
  have hsub : (items.map fun e => e.ptr.toNat / 8).toFinset ⊆ Finset.range (2 ^ 61) := by
    intro p hp
    obtain ⟨x, -, rfl⟩ := List.mem_map.mp (List.mem_toFinset.mp hp)
    have hlt := x.ptr.toNat_lt
    rw [Finset.mem_range]
    omega
  have hcard := Finset.card_le_card hsub
  rwa [List.toFinset_card_of_nodup hnodup, List.length_map, Finset.card_range] at hcard

/-! ## 2. One push -/

section Push

/-- A push that leaves a root returns 0. -/
theorem push_of_root {b : Bst κ β} {e : Item κ β} {rnd : UInt64} {t : Tree κ β}
    (h : pushRoot b e rnd = some t) (ht : t.foreach ≠ []) :
    push b e rnd = some (0, { b with root := t }) := by
  match t with
  | .null => exact absurd rfl ht
  | .node .. => simp [push, h]

/-- On exact counts, whatever the comparison function: the counts are exact again and the new
item has been added somewhere. -/
theorem pushRoot_exact {b : Bst κ β} (e : Item κ β) (rnd : UInt64) (ht : Exact b.root)
    (hsz : b.root.size + 1 < 2 ^ 64) :
    ∃ t, pushRoot b e rnd = some t ∧ Exact t ∧ t.foreach ~ e :: b.root.foreach := by
  unfold pushRoot
  split
  · exact nodePushRand_exact e rnd ht hsz
  · split
    · obtain ⟨n, l, r, htop, hexact, hperm⟩ := nodePushTop_exact e ht hsz
      exact ⟨_, htop, hexact, hperm⟩
    · rw [nodePushBottom_eq_nodePush]
      exact ⟨_, rfl, nodePush_exact e ht hsz, nodePush_perm e b.root⟩

/-- The odds of a randomised insertion, `RAND_MAX / (node->nelem + 1)`, can be computed: the root
does not count `SIZE_MAX`. -/
def RandSafe (b : Bst κ β) (opts : Nat) : Prop :=
  opts &&& optRandomized ≠ 0 → b.root.nelemOr0 + 1 ≠ 0

instance (b : Bst κ β) (opts : Nat) : Decidable (RandSafe b opts) :=
  inferInstanceAs (Decidable (_ → _))

/-- On a sorted sequence, under a total preorder, every policy is the stable insertion. -/
theorem pushRoot_sorted {b : Bst κ β} (hc : IsPreorder b.cmp) (e : Item κ β) (rnd : UInt64)
    (hs : SortedBy b.cmp Item.key b.root.foreach) (hsafe : RandSafe b b.opts) :
    ∃ t, pushRoot b e rnd = some t ∧
      t.foreach = stableInsert b.cmp Item.key e b.root.foreach := by
  unfold pushRoot
  split
  · next hrand => exact nodePushRand_spec hc e rnd hs (hsafe hrand)
  · split
    · obtain ⟨n, l, r, htop, hseq⟩ := nodePushTop_spec hc e hs
      exact ⟨_, htop, hseq⟩
    · rw [nodePushBottom_eq_nodePush]
      exact ⟨_, rfl, nodePush_foreach hc e hs⟩

/-- Where the odds cannot be computed, the push has no result. -/
theorem pushRoot_eq_none {b : Bst κ β} (hc : IsPreorder b.cmp) (e : Item κ β) (rnd : UInt64)
    (hs : SortedBy b.cmp Item.key b.root.foreach) (hsafe : ¬ RandSafe b b.opts) :
    pushRoot b e rnd = none := by
  obtain ⟨hrand, hzero⟩ : b.opts &&& optRandomized ≠ 0 ∧ b.root.nelemOr0 + 1 = 0 := by
    simpa [RandSafe] using hsafe
  rw [pushRoot, if_pos hrand]
  exact (nodePushRand_eq_none_iff e rnd hc hs).mpr hzero

/-- On exact counts the odds can always be computed. -/
theorem randSafe_of_exact {b : Bst κ β} (opts : Nat) (ht : Exact b.root)
    (hsz : b.root.size + 1 < 2 ^ 64) : RandSafe b opts := by
  intro _ hzero
  have hplus := toNat_add_one ht.nelemOr0 hsz
  rw [hzero] at hplus
  simp at hplus

end Push

/-! ## 3. Only pushes: the policies agree -/

section Policies

/-- One call of `u_bst_push`: the options of the tree, the item, and what `rand` returns. -/
structure Push (κ β : Type) where
  opts : Nat
  item : Item κ β
  rnd : UInt64

/-- The push as an update of the tree. -/
def Push.upd (p : Push κ β) : Upd κ β := .push p.opts p.item p.rnd

/-- A run of pushes inserts the items one after the other into the sequence. -/
theorem run_pushes : ∀ (ps : List (Push κ β)) (b : Bst κ β), IsPreorder b.cmp →
    SortedBy b.cmp Item.key b.root.foreach → Exact b.root →
    Live (ps.map Push.item ++ b.root.foreach) →
    ∃ b', run Upd.exec b (ps.map Push.upd) = some (List.replicate ps.length 0, b') ∧
      b'.cmp = b.cmp ∧ SortedBy b.cmp Item.key b'.root.foreach ∧
      b'.root.foreach
        = (ps.map Push.item).foldl (fun l e => stableInsert b.cmp Item.key e l) b.root.foreach
  | [], b, _, hs, _, _ => ⟨b, rfl, rfl, hs, rfl⟩
  | p :: ps, b, hc, hs, hexact, hlive => by
    have hlen := hlive.length_le
    simp only [List.map_cons, List.cons_append, List.length_cons, List.length_append,
      Tree.length_foreach] at hlen
    have hsz : b.root.size + 1 < 2 ^ 64 := by omega
    obtain ⟨t, hroot, htexact, hperm⟩ :=
      @pushRoot_exact _ _ { b with opts := p.opts } p.item p.rnd hexact hsz
    obtain ⟨t', hroot', hseq⟩ :=
      @pushRoot_sorted _ _ { b with opts := p.opts } hc p.item p.rnd hs
        (randSafe_of_exact p.opts hexact hsz)
    obtain rfl : t = t' := by simpa [hroot] using hroot'
    have hne : t.foreach ≠ [] := by rw [hseq]; exact stableInsert_ne_nil _ _
    have hst : Upd.exec b p.upd = some (0, { b with opts := p.opts, root := t }) :=
      push_of_root hroot hne
    have hlive' : Live (ps.map Push.item ++ t.foreach) :=
      hlive.perm ((hperm.append_left _).trans List.perm_middle)
    obtain ⟨b', hrun, hcmp', hs', hfold⟩ := run_pushes ps { b with opts := p.opts, root := t }
      hc (hseq ▸ hs.stableInsert hc p.item) htexact hlive'
    refine ⟨b', ?_, hcmp', hs', ?_⟩
    · simp [run, hst, hrun, List.replicate_succ]
    · rw [hfold, hseq, List.map_cons, List.foldl_cons]

/-- The stable insertion order has the items that were pushed. -/
theorem stableSort_perm (es : List (Item κ β)) : stableSort cmp Item.key es ~ es := by
  induction es using List.reverseRecOn with
  | nil => exact List.Perm.refl _
  | append_singleton es e ih =>
    rw [stableSort_concat]
    exact (stableInsert_perm e _).trans ((ih.cons e).trans (List.perm_append_singleton e es).symm)

/-- **The insertion policies agree.**  Each push may choose its own policy and `rand` may return
anything; the tree at the end holds the stable insertion order of the items, and a search
succeeds exactly on the keys that compare equal to a pushed one. -/
theorem policies_agree (hc : IsPreorder cmp) (ps : List (Push κ β))
    (hm : Live (ps.map Push.item)) :
    ∃ b, run Upd.exec (empty cmp) (ps.map Push.upd) = some (List.replicate ps.length 0, b) ∧
      b.root.foreach = stableSort cmp Item.key (ps.map Push.item) ∧
      ∀ k, search b k ≠ .null ↔ ∃ p ∈ ps, cmp k p.item.key = 0 := by
  obtain ⟨b, hrun, hcmp, hs, hfold⟩ := run_pushes ps (empty cmp) hc List.Pairwise.nil
    exact_null (by simpa [empty] using hm)
  have hsort : b.root.foreach = stableSort cmp Item.key (ps.map Push.item) := hfold
  refine ⟨b, hrun, hsort, fun k => ?_⟩
  have hb : b.cmp = cmp := hcmp
  rw [search, hb, ne_eq, nodeSearch_eq_null_iff hc hs, hsort]
  simp only [(stableSort_perm (ps.map Push.item)).mem_iff, List.mem_map, ne_eq, not_forall,
    not_not, exists_prop, exists_exists_and_eq_and]

/-- The comparison of the examples is one that `u_bst_set_cmp` may be given. -/
theorem intSub_isPreorder : IsPreorder fun a b : Int => a - b :=
  ⟨fun a b => by omega, fun a b c => by omega⟩

/-- Bottom, top and randomised insertion of three items, two of them with equal keys. -/
theorem policies_agree_three :
    ∃ b, run Upd.exec (empty fun a b : Int => a - b)
        ([⟨0, ⟨8, 1, 'a'⟩, 0⟩, ⟨1, ⟨16, 0, 'b'⟩, 0⟩, ⟨4, ⟨24, 1, 'c'⟩, 7⟩].map Push.upd)
          = some ([0, 0, 0], b) ∧
      b.root.foreach.map Item.val = ['b', 'a', 'c'] ∧
      ∀ k, search b k ≠ .null ↔ k = 1 ∨ k = 0 := by
  obtain ⟨b, hrun, hseq, hsearch⟩ := policies_agree intSub_isPreorder
    [⟨0, ⟨8, 1, 'a'⟩, 0⟩, ⟨1, ⟨16, 0, 'b'⟩, 0⟩, ⟨4, ⟨24, 1, 'c'⟩, 7⟩]
    ⟨by decide, by decide, by decide⟩
  refine ⟨b, hrun, by rw [hseq]; decide, fun k => ?_⟩
  rw [hsearch]
  simp only [List.mem_cons, List.not_mem_nil, or_false, exists_eq_or_imp, exists_eq_left]
  omega

end Policies

/-! ## 4. The counts over a run -/

section Counts

/-- What malloc promises to a push: an address that no live node has. -/
def Fresh (b : Bst κ β) : Op κ β → Prop
  | .upd (.push _ e _) => FreshPtr b.root.foreach e
  | _ => True

instance (b : Bst κ β) : ∀ op, Decidable (Fresh b op)
  | .upd (.push _ e _) => inferInstanceAs (Decidable (FreshPtr b.root.foreach e))
  | .upd (.delete _) => isTrue trivial
  | .balance => isTrue trivial

/-- The tree is NULL or a single node, so there is nothing to be joined when it is deleted. -/
def Tree.isLeaf : Tree κ β → Bool
  | .null | .node _ _ .null .null => true
  | _ => false

/-- A delete that finds its key finds it in a leaf; all other operations may be anything. -/
def DeletesLeaf (b : Bst κ β) : Op κ β → Prop
  | .upd (.delete k) => (search b k).isLeaf = true
  | _ => True

instance (b : Bst κ β) : ∀ op, Decidable (DeletesLeaf b op)
  | .upd (.delete k) => inferInstanceAs (Decidable ((search b k).isLeaf = true))
  | .upd (.push ..) => isTrue trivial
  | .balance => isTrue trivial

@[simp] theorem isLeaf_null : (Tree.null : Tree κ β).isLeaf = true := rfl

@[simp] theorem isLeaf_node (x : Item κ β) (c : UInt64) (l r : Tree κ β) :
    (Tree.node x c l r).isLeaf = true ↔ l = .null ∧ r = .null := by
  cases l <;> cases r <;> simp [Tree.isLeaf]

/-- After the step every count is exact, and `u_bst_count` is the number of nodes. -/
def CountsExact (_ : Bst κ β) (_ : Op κ β) (_ : Int) (b' : Bst κ β) : Prop :=
  Exact b'.root ∧ count b' = b'.root.size

/-- With exact counts `u_bst_count` is the number of nodes, and never negative: memory holds no
more. -/
theorem count_of_exact {b : Bst κ β} (ht : Exact b.root) (hm : Live b.root.foreach) :
    count b = b.root.size := by
  have hlen := hm.length_le
  rw [Tree.length_foreach] at hlen
  match b, ht with
  | ⟨_, _, .null⟩, _ => rfl
  | ⟨_, _, .node x n l r⟩, ht =>
    have hn : n.toNat = l.size + r.size + 1 := ht.1
    simp only [Tree.size_node] at hlen
    simp only [count, toSsize, Tree.size_node, hn]
    exact if_pos (by omega)

/-- A key that is found, on exact counts: the node is cut out of the sequence, and the counts are
exact again if and only if it was a leaf. -/
theorem delete_found_exact {b : Bst κ β} {k : κ} {x : Item κ β} {c : UInt64} {l r : Tree κ β}
    (ht : Exact b.root) (h : search b k = .node x c l r) :
    ∃ t, delete b k = some (0, { b with root := t }) ∧
      t.foreach.Sublist b.root.foreach ∧ (Exact t ↔ l = .null ∧ r = .null) := by
  obtain ⟨t, hdel, -, hiff⟩ := nodeDelete_exact_iff ht h
  obtain ⟨j, hj, hkeep, -⟩ := nodeJoinLr_spec l r
  obtain ⟨t', u, v, hdel', hseq, hseq'⟩ := nodeDelete_spec hj h
  obtain rfl : t = t' := by simpa [hdel] using hdel'
  have hr : Exact r := (exact_of_nodeSearch ht h).2.2
  refine ⟨t, by simp [delete, hdel], ?_, hiff⟩
  rw [hseq, hseq', hkeep hr.countedSpine]
  simp

/-- **One step on exact counts.**  Every operation is defined; afterwards the counts are exact,
unless the operation deleted a node with children. -/
theorem exec_exact {b : Bst κ β} {op : Op κ β} (ht : Exact b.root) (hm : Live b.root.foreach)
    (hf : Fresh b op) : ∃ r b', op.exec b = some (r, b') ∧ Live b'.root.foreach ∧
      (Exact b'.root ↔ DeletesLeaf b op) := by
  match op with
  | .upd (.push opts e rnd) =>
    have hlen := (hm.cons hf).length_le
    simp only [List.length_cons, Tree.length_foreach] at hlen
    obtain ⟨t, hroot, hexact, hperm⟩ :=
      @pushRoot_exact _ _ { b with opts } e rnd ht (by omega : b.root.size + 1 < 2 ^ 64)
    have hne : t.foreach ≠ [] := fun h => by simp [h] at hperm
    exact ⟨0, _, push_of_root hroot hne, (hm.cons hf).perm hperm, iff_of_true hexact trivial⟩
  | .upd (.delete k) =>
    match hsearch : search b k with
    | .null =>
      refine ⟨-1, b, ?_, hm, iff_of_true ht ?_⟩
      · change delete b k = _
        simp [delete, nodeDelete_of_null hsearch]
      · simp [DeletesLeaf, hsearch]
    | .node x c l r =>
      obtain ⟨t, hdel, hsub, hiff⟩ := delete_found_exact ht hsearch
      exact ⟨0, _, hdel, hm.sublist hsub, by simp [DeletesLeaf, hsearch, hiff]⟩
  | .balance =>
    obtain ⟨t, hbal, hexact, hseq⟩ := nodeBalance_exact ht (le_refl b.root.size)
    refine ⟨0, { b with root := t }, ?_, ?_, iff_of_true hexact trivial⟩
    · change balance b = _
      simp [balance, hbal]
    · rw [hseq]; exact hm

/-- **When the counts stay exact.**  In every run of pushes, deletes and rebalancings, with any
comparison function, the counts are exact after every step if and only if every delete of a key
that is there finds it in a leaf. -/
theorem counts_exact_iff (cmp : κ → κ → Int) (ops : List (Op κ β))
    (hf : Guarded Op.exec Fresh (empty cmp) ops) :
    Always Op.exec CountsExact (empty cmp) ops
      ↔ Guarded Op.exec DeletesLeaf (empty cmp) ops := by
  refine always_iff_guarded Fresh (fun b => Exact b.root ∧ Live b.root.foreach) ?_ ?_
    ⟨exact_null, Live.nil⟩ hf
  · rintro b op ⟨ht, hm⟩ hfop
    obtain ⟨r, b', hst, hm', hiff⟩ := exec_exact ht hm hfop
    constructor
    · rintro ⟨r₂, b₂, hst₂, hexact, -⟩
      obtain ⟨rfl, rfl⟩ : r = r₂ ∧ b' = b₂ := by simpa [hst] using hst₂
      exact hiff.mp hexact
    · intro h
      exact ⟨r, b', hst, hiff.mpr h, count_of_exact (hiff.mpr h) hm'⟩
  · rintro b op r b' ⟨ht, hm⟩ hfop hst ⟨hexact, -⟩
    obtain ⟨r₂, b₂, hst₂, hm', -⟩ := exec_exact ht hm hfop
    obtain ⟨rfl, rfl⟩ : r = r₂ ∧ b' = b₂ := by simpa [hst] using hst₂
    exact ⟨hexact, hm'⟩

/-- A run that keeps exact counts: it balances, and deletes a leaf and an absent key. -/
theorem counts_exact_iff_leaf :
    Always Op.exec CountsExact (empty fun a b : Int => a - b)
      [.upd (.push 0 ⟨8, 1, 'a'⟩ 0), .upd (.push 1 ⟨16, 2, 'b'⟩ 0), .balance,
        .upd (.delete 1), .upd (.delete 7)] :=
  (counts_exact_iff _ _ (by decide)).mpr (by decide)

/-- Two pushes that put 1 below 2. -/
def rootAboveLeaf : List (Op Int Char) :=
  [.upd (.push 0 ⟨8, 2, 'a'⟩ 0), .upd (.push 0 ⟨16, 1, 'b'⟩ 0)]

/-- Deleting the root of a two-node tree leaves a node that counts zero nodes. -/
theorem delete_root_miscounts :
    Guarded Op.exec Fresh (empty fun a b : Int => a - b) (rootAboveLeaf ++ [.upd (.delete 2)]) ∧
      ¬ Always Op.exec CountsExact (empty fun a b : Int => a - b)
        (rootAboveLeaf ++ [.upd (.delete 2)]) := by
  refine ⟨by decide, fun h => ?_⟩
  obtain ⟨r, b', hst, hexact, -⟩ := h.last _ _ rfl
  have hst' : some ((0 : Int), (⟨0, fun a b : Int => a - b,
      .node ⟨16, 1, 'b'⟩ 0 .null .null⟩ : Bst Int Char)) = some (r, b') := hst
  obtain ⟨-, rfl⟩ := Prod.mk.inj (Option.some.inj hst')
  exact absurd hexact.1 (by decide)

end Counts

/-! ## 5. The sorted multiset -/

section Multiset

/-- **The abstract machine.**  A push puts its item behind every item that is not above it; a
delete takes out one item with an equal key and returns 0, or finds none and returns -1. -/
inductive RefStep (cmp : κ → κ → Int) :
    List (Item κ β) → Upd κ β → Int → List (Item κ β) → Prop
  | push (opts : Nat) (e : Item κ β) (rnd : UInt64) (l : List (Item κ β)) :
      RefStep cmp l (.push opts e rnd) 0 (stableInsert cmp Item.key e l)
  | delete (l₁ l₂ : List (Item κ β)) (k : κ) (x : Item κ β) (h : cmp k x.key = 0) :
      RefStep cmp (l₁ ++ x :: l₂) (.delete k) 0 (l₁ ++ l₂)
  | absent (l : List (Item κ β)) (k : κ) (h : ∀ x ∈ l, cmp k x.key ≠ 0) :
      RefStep cmp l (.delete k) (-1) l

/-- The step is one of the abstract machine, and a delete that fails leaves the tree as it is. -/
def Refines (b : Bst κ β) (u : Upd κ β) (r : Int) (b' : Bst κ β) : Prop :=
  RefStep b.cmp b.root.foreach u r b'.root.foreach ∧ (r = -1 → b'.root = b.root)

/-- What the right subtree of a node that is about to be deleted looks like. -/
def Tree.rightCounted : Tree κ β → Bool
  | .null => true
  | .node _ _ _ r => countedSpine r

/-- A push can compute its odds, and a delete finds its key above no zero count on the way to
the first node of the right subtree. -/
def UpdSafe (b : Bst κ β) : Upd κ β → Prop
  | .push opts _ _ => RandSafe b opts
  | .delete k => (search b k).rightCounted = true

instance (b : Bst κ β) : ∀ u, Decidable (UpdSafe b u)
  | .push opts _ _ => inferInstanceAs (Decidable (RandSafe b opts))
  | .delete k => inferInstanceAs (Decidable ((search b k).rightCounted = true))

/-- The abstract machine keeps its sequence sorted. -/
theorem RefStep.sorted (hc : IsPreorder cmp) {l l' : List (Item κ β)} {u : Upd κ β} {r : Int}
    (h : RefStep cmp l u r l') (hs : SortedBy cmp Item.key l) : SortedBy cmp Item.key l' := by
  cases h with
  | push _ e _ _ => exact hs.stableInsert hc e
  | delete l₁ l₂ k x hk => exact hs.sublist (by simp)
  | absent k hk => exact hs

/-- A delete that succeeds takes out one item. -/
theorem RefStep.length_of_deleted {l l' : List (Item κ β)} {k : κ}
    (h : RefStep cmp l (.delete k) 0 l') : l'.length + 1 = l.length := by
  cases h with
  | delete l₁ l₂ _ x hk => simp only [List.length_append, List.length_cons]; omega

/-- No update changes the comparison function. -/
theorem exec_cmp {b b' : Bst κ β} {r : Int} : ∀ {u : Upd κ β}, u.exec b = some (r, b') →
    b'.cmp = b.cmp
  | .push opts e rnd, h => by
    simp only [Upd.exec, push, Option.bind_eq_bind, Option.bind_eq_some_iff] at h
    obtain ⟨t, -, ht⟩ := h
    simp only [Option.some.injEq, Prod.mk.injEq] at ht
    rw [← ht.2]
  | .delete k, h => by
    simp only [Upd.exec, delete, Option.bind_eq_bind, Option.bind_eq_some_iff] at h
    obtain ⟨t, -, ht⟩ := h
    simp only [Option.some.injEq, Prod.mk.injEq] at ht
    rw [← ht.2]

/-- A push on a sorted sequence is a step of the multiset exactly when it is defined. -/
theorem push_refines_iff {b : Bst κ β} (hc : IsPreorder b.cmp)
    (hs : SortedBy b.cmp Item.key b.root.foreach) (opts : Nat) (e : Item κ β) (rnd : UInt64) :
    (∃ r b', Upd.exec b (.push opts e rnd) = some (r, b') ∧
      Refines b (.push opts e rnd) r b') ↔ RandSafe b opts := by
  constructor
  · rintro ⟨r, b', hst, -⟩
    by_contra hsafe
    have hnone := @pushRoot_eq_none _ _ { b with opts } hc e rnd hs hsafe
    simp [Upd.exec, push, hnone] at hst
  · intro hsafe
    obtain ⟨t, hroot, hseq⟩ := @pushRoot_sorted _ _ { b with opts } hc e rnd hs hsafe
    have hne : t.foreach ≠ [] := by rw [hseq]; exact stableInsert_ne_nil _ _
    refine ⟨0, _, push_of_root hroot hne, ?_, by simp⟩
    change RefStep b.cmp b.root.foreach _ 0 t.foreach
    rw [hseq]
    exact .push opts e rnd b.root.foreach

/-- A delete is a step of the multiset exactly when the join below the found node loses
nothing. -/
theorem delete_refines_iff {b : Bst κ β} (hc : IsPreorder b.cmp)
    (hs : SortedBy b.cmp Item.key b.root.foreach) (k : κ) :
    (∃ r b', Upd.exec b (.delete k) = some (r, b') ∧ Refines b (.delete k) r b')
      ↔ UpdSafe b (.delete k) := by
  match hsearch : search b k with
  | .null =>
    refine iff_of_true ⟨-1, b, ?_, .absent _ k ?_, fun _ => rfl⟩ ?_
    · change delete b k = _
      simp [delete, nodeDelete_of_null hsearch]
    · exact (nodeSearch_eq_null_iff hc hs).mp hsearch
    · simp [UpdSafe, hsearch, Tree.rightCounted]
  | .node x c l r =>
    obtain ⟨j, hj, hkeep, hlose⟩ := nodeJoinLr_spec l r
    obtain ⟨t, u, v, hdel, hseq, hseq'⟩ := nodeDelete_spec hj hsearch
    have hst : Upd.exec b (.delete k) = some (0, { b with root := t }) := by
      change delete b k = _
      simp [delete, hdel]
    have hsafe : UpdSafe b (.delete k) ↔ countedSpine r = true := by
      simp [UpdSafe, hsearch, Tree.rightCounted]
    rw [hsafe]
    constructor
    · rintro ⟨r₂, b₂, hst₂, href, -⟩
      obtain ⟨rfl, rfl⟩ : 0 = r₂ ∧ { b with root := t } = b₂ := by simpa [hst] using hst₂
      by_contra hspine
      have hlt := hlose (Bool.eq_false_iff.mpr hspine)
      have hlen := href.length_of_deleted
      simp only [hseq, hseq', List.length_append, List.length_cons, Tree.length_foreach] at hlen
      omega
    · intro hspine
      refine ⟨0, _, hst, ?_, by simp⟩
      change RefStep b.cmp b.root.foreach _ 0 t.foreach
      rw [hseq, hseq', hkeep hspine]
      have hstep := RefStep.delete (u ++ l.foreach) (r.foreach ++ v) k x (nodeSearch_key hsearch)
      simpa using hstep

/-- **When the tree is a sorted multiset.**  In every run of pushes and deletes from the empty
tree, whatever the policies and `rand`, every step is one of the reference multiset if and only
if every randomised push finds a root count other than `SIZE_MAX` and every delete a right
subtree with no zero count on its left spine. -/
theorem refines_multiset_iff (hc : IsPreorder cmp) (us : List (Upd κ β)) :
    Always Upd.exec Refines (empty cmp) us ↔ Guarded Upd.exec UpdSafe (empty cmp) us := by
  have hempty : SortedBy cmp Item.key ([] : List (Item κ β)) := List.Pairwise.nil
  refine always_iff_guarded (fun _ _ => True)
    (fun b => b.cmp = cmp ∧ SortedBy b.cmp Item.key b.root.foreach) ?_ ?_
    ⟨rfl, hempty⟩ (guarded_of_forall (fun _ _ => trivial) us _)
  · rintro b u ⟨rfl, hs⟩ -
    match u with
    | .push opts e rnd => exact push_refines_iff hc hs opts e rnd
    | .delete k => exact delete_refines_iff hc hs k
  · rintro b u r b' ⟨rfl, hs⟩ - hst ⟨href, -⟩
    have hcmp := exec_cmp hst
    exact ⟨hcmp, hcmp ▸ href.sorted hc hs⟩

/-- A run on the safe side, with a delete that joins two subtrees. -/
theorem refines_multiset_iff_join :
    Always Upd.exec Refines (empty fun a b : Int => a - b)
      [.push 0 ⟨8, 2, 'a'⟩ 0, .push 0 ⟨16, 1, 'b'⟩ 0, .push 4 ⟨24, 3, 'c'⟩ 7, .delete 2] :=
  (refines_multiset_iff intSub_isPreorder _).mpr (by decide)

/-- Four pushes and a delete that leaves the node of 17 with a count of zero. -/
def staleRun : List (Upd Int Char) :=
  [.push 0 ⟨8, 10, 'a'⟩ 0, .push 0 ⟨16, 20, 'b'⟩ 0, .push 0 ⟨24, 15, 'c'⟩ 0,
    .push 0 ⟨32, 17, 'd'⟩ 0, .delete 15]

/-- Deleting 10 next promotes the node of 20, whose left child counts zero, and drops that
child: 17 is gone although nobody deleted it. -/
theorem delete_loses_node :
    (∃ rs b, run Upd.exec (empty fun a b : Int => a - b) (staleRun ++ [.delete 10])
        = some (rs, b) ∧ b.root.foreach.map Item.key = [20]) ∧
      ¬ Always Upd.exec Refines (empty fun a b : Int => a - b) (staleRun ++ [.delete 10]) := by
  refine ⟨⟨_, _, rfl, by decide⟩, fun h => ?_⟩
  obtain ⟨r, b', hst, href, -⟩ := h.last _ _ rfl
  have hst' : some ((0 : Int), (⟨0, fun a b : Int => a - b,
      .node ⟨16, 20, 'b'⟩ 1 .null .null⟩ : Bst Int Char)) = some (r, b') := hst
  obtain ⟨rfl, rfl⟩ := Prod.mk.inj (Option.some.inj hst')
  exact absurd href.length_of_deleted (by decide)

end Multiset

end Libu.Bst
