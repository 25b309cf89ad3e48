/-
# Selection, promotion and balancing

All three find their way by the counts: the index of a node is re-based on the left subtree's count
at every turn to the right.  On exact counts

None of the three looks at a key, so all that is said here is about trees and their in-order
sequences: a rotation keeps the sequence, and the counts with it.  That a balanced tree is as low as
can be is arithmetic: it has more than half as many nodes as its height has room for, and a lower
tree has no room for them.

* selection returns the node with `n` nodes before it, and promotion makes that node the root
  (`find_promote_nth`);
* balancing halves every subtree, so that no tree with as many nodes is lower (`balance_correct`).
-/
import Libu.Bst.Count

namespace Libu.Bst

variable {κ β : Type}

/-! ## 1. Selection -/

/-- `u_bst_node_find_nth`: the node found, as the subtree it heads. -/
def nodeFindNth : Tree κ β → UInt64 → Tree κ β
  | .null, _ => .null
  | .node x c l r, n =>
    let t := l.nelemOr0
    if n < t then nodeFindNth l n
    else if t < n then nodeFindNth r (n - (t + 1))
    else .node x c l r

/-- `u_bst_find_nth` -/
def findNth (b : Bst κ β) (n : UInt64) : Tree κ β := nodeFindNth b.root n

/-- The node at the top. -/
def Tree.item : Tree κ β → Option (Item κ β)
  | .null => none
  | .node x _ _ _ => some x

/-- **Selection finds its position.** -/
theorem nodeFindNth_exact {t : Tree κ β} (ht : Exact t) (n : UInt64) :
    (nodeFindNth t n).item = t.foreach[n.toNat]? := by
  induction t generalizing n with
  | null => rfl
  | node x c l r ihl ihr =>
    obtain ⟨-, hl, hr⟩ := ht
    have hcount := hl.nelemOr0
    have hlen := l.length_foreach
    rw [nodeFindNth, Tree.foreach_node]
    split
    · next hlt =>
      rw [UInt64.lt_iff_toNat_lt, hcount] at hlt
      rw [ihl hl, List.getElem?_append_left (by omega)]
    · next hge =>
      rw [UInt64.lt_iff_toNat_lt, hcount] at hge
      split
      · next hlt =>
        rw [UInt64.lt_iff_toNat_lt, hcount] at hlt
        have hlt64 := n.toNat_lt
        have hplus : (l.nelemOr0 + 1).toNat = l.size + 1 := toNat_add_one hcount (by omega)
        have hsub : (n - (l.nelemOr0 + 1)).toNat = n.toNat - (l.size + 1) :=
          toNat_sub (by omega) hplus
        have hidx : n.toNat - l.size = (n.toNat - (l.size + 1)) + 1 := by omega
        rw [ihr hr, hsub, List.getElem?_append_right (by omega), hlen, hidx,
          List.getElem?_cons_succ]
      · next hge' =>
        rw [UInt64.lt_iff_toNat_lt, hcount] at hge'
        have hzero : n.toNat - l.size = 0 := by omega
        rw [List.getElem?_append_right (by omega), hlen, hzero, List.getElem?_cons_zero, Tree.item]

/-- The tree without a root is NULL. -/
theorem item_eq_none {t : Tree κ β} : t.item = none ↔ t = .null := by
  cases t <;> simp [Tree.item]

/-- **Selection and promotion**: on exact counts `u_bst_find_nth` returns the n-th node of the
sequence, NULL when there is none, and promotion makes that node the root. -/
theorem find_promote_nth {b : Bst κ β} (h : Exact b.root) (n : UInt64) :
    (findNth b n).item = b.root.foreach[n.toNat]? ∧
      (findNth b n = .null ↔ b.root.size ≤ n.toNat) ∧
      (n.toNat < b.root.size →
        ∃ x c l r, nodePromoteNth b.root n = some (.node x c l r) ∧
          (findNth b n).item = some x ∧ Exact (.node x c l r) ∧
          (Tree.node x c l r).foreach = b.root.foreach) := by
  have hfind : (findNth b n).item = b.root.foreach[n.toNat]? := nodeFindNth_exact h n
  refine ⟨hfind, ?_, ?_⟩
  · rw [← item_eq_none, hfind, List.getElem?_eq_none_iff, Tree.length_foreach]
  · intro hn
    obtain ⟨x, c, l, r, hp, hexact, hseq, hsize⟩ := nodePromoteNth_exact h hn
    refine ⟨x, c, l, r, hp, ?_, hexact, hseq⟩
    have hlen := l.length_foreach
    have hzero : n.toNat - l.size = 0 := by omega
    rw [hfind, ← hseq, Tree.foreach_node, List.getElem?_append_right (by omega), hlen, hzero,
      List.getElem?_cons_zero]

/-- Three nodes, none of which has a left child. -/
def chain : Bst Int Char :=
  ⟨0, fun a b => a - b,
    .node ⟨8, 1, 'a'⟩ 3 .null (.node ⟨16, 2, 'b'⟩ 2 .null (.node ⟨24, 3, 'c'⟩ 1 .null .null))⟩

/-- The example has exact counts, and is as high as three nodes can make it. -/
theorem chain_exact : Exact chain.root := ⟨rfl, trivial, rfl, trivial, rfl, trivial, trivial⟩

theorem find_promote_nth_chain :
    (findNth chain 1).item = some ⟨16, 2, 'b'⟩ ∧
      ∃ x c l r, nodePromoteNth chain.root 1 = some (.node x c l r) ∧
      (findNth chain 1).item = some x := by
  obtain ⟨hfind, -, hpromote⟩ := find_promote_nth chain_exact 1
  obtain ⟨x, c, l, r, hp, hx, -, -⟩ := hpromote (by decide)
  exact ⟨hfind, x, c, l, r, hp, hx⟩

/-! ## 2. Height -/

namespace Tree

/-- The number of nodes on the longest way down. -/
def height : Tree κ β → Nat
  | null => 0
  | node _ _ l r => max l.height r.height + 1

/-- Every node's subtrees differ by at most one in size. -/
def Balanced : Tree κ β → Prop
  | null => True
  | node _ _ l r => l.size ≤ r.size + 1 ∧ r.size ≤ l.size + 1 ∧ Balanced l ∧ Balanced r

/-- A tree of a given height has less nodes than a full one of the next height. -/
theorem size_lt_two_pow_height (t : Tree κ β) : t.size < 2 ^ t.height := by
  induction t with
  | null => exact Nat.one_pos
  | node x c l r ihl ihr =>
    have hl : 2 ^ l.height ≤ 2 ^ max l.height r.height :=
      Nat.pow_le_pow_right (by decide) (Nat.le_max_left _ _)
    have hr : 2 ^ r.height ≤ 2 ^ max l.height r.height :=
      Nat.pow_le_pow_right (by decide) (Nat.le_max_right _ _)
    rw [height, size_node, Nat.pow_succ]
    omega

/-- A balanced tree has more than half as many nodes as its height has room for. -/
theorem Balanced.two_pow_height_le {t : Tree κ β} (h : t.Balanced) (hne : t ≠ null) :
    2 ^ t.height ≤ 2 * t.size := by
  induction t with
  | null => exact absurd rfl hne
  | node x c l r ihl ihr =>
    obtain ⟨hlr, hrl, hl, hr⟩ := h
    -- the bound for a child, and for one that is not there
    have hchild : ∀ t : Tree κ β, (t ≠ null → 2 ^ t.height ≤ 2 * t.size) →
        2 ^ t.height ≤ 2 * t.size ∨ t.height = 0 := by
      intro t ih
      cases t with
      | null => exact .inr rfl
      | node y d yl yr => exact .inl (ih (by simp))
    rw [height, size_node, Nat.pow_succ]
    rcases Nat.le_total l.height r.height with hle | hle
    · rw [Nat.max_eq_right hle]
      rcases hchild r (ihr hr) with hb | hb
      · omega
      · rw [hb]
        omega
    · rw [Nat.max_eq_left hle]
      rcases hchild l (ihl hl) with hb | hb
      · omega
      · rw [hb]
        omega

/-- **No tree with as many nodes is lower than a balanced one.** -/
theorem Balanced.height_le {t t' : Tree κ β} (h : t.Balanced) (hsize : t'.size = t.size) :
    t.height ≤ t'.height := by
  by_cases hne : t = null
  · subst hne
    exact Nat.zero_le _
  · have hlow := h.two_pow_height_le hne
    have hhigh := t'.size_lt_two_pow_height
    have hpow : 2 ^ t.height < 2 ^ (t'.height + 1) := by
      rw [Nat.pow_succ]
      omega
    exact Nat.lt_succ_iff.mp ((Nat.pow_lt_pow_iff_right (by decide)).mp hpow)

end Tree

/-! ## 3. Balancing -/

/-- **Balancing halves every subtree.** -/
theorem nodeBalance_balanced {fuel : Nat} {t t' : Tree κ β} (ht : Exact t) (hfuel : t.size ≤ fuel)
    (h : nodeBalance fuel t = some t') : t'.Balanced := by
  induction fuel generalizing t t' with
  | zero =>
    cases t with
    | null =>
      obtain rfl : Tree.null = t' := by simpa [nodeBalance] using h
      trivial
    | node x c l r => simp at hfuel
  | succ fuel ih =>
    cases t with
    | null =>
      obtain rfl : Tree.null = t' := by simpa [nodeBalance] using h
      trivial
    | node x c l r =>
      have hcount := ht.1
      rw [Tree.size_node] at hfuel
      simp only [nodeBalance] at h
      split at h
      · next hc =>
        -- a node alone
        have hc' : c.toNat < 2 := UInt64.lt_iff_toNat_lt.mp hc
        obtain rfl := Option.some.inj h
        have hl : l = .null := Tree.foreach_eq_nil.mp (List.length_eq_zero_iff.mp (by
          rw [Tree.length_foreach]
          omega))
        have hr : r = .null := Tree.foreach_eq_nil.mp (List.length_eq_zero_iff.mp (by
          rw [Tree.length_foreach]
          omega))
        subst hl hr
        exact ⟨Nat.zero_le _, Nat.zero_le _, trivial, trivial⟩
      · next hc =>
        have hhalf : (c / 2).toNat = c.toNat / 2 := by
          rw [UInt64.toNat_div]
          rfl
        have hlt : (c / 2).toNat < (Tree.node x c l r).size := by
          rw [Tree.size_node, ← hcount]
          omega
        obtain ⟨y, d, yl, yr, hp, ⟨-, hyl, hyr⟩, hseq, hmedian⟩ := nodePromoteNth_exact ht hlt
        have hsize := size_eq_of_foreach_eq hseq
        rw [Tree.size_node, Tree.size_node] at hsize
        obtain ⟨yl', hbl, -, hseql⟩ := nodeBalance_exact hyl (by omega : yl.size ≤ fuel)
        obtain ⟨yr', hbr, -, hseqr⟩ := nodeBalance_exact hyr (by omega : yr.size ≤ fuel)
        obtain rfl : Tree.node y d yl' yr' = t' := by simpa [hp, hbl, hbr] using h
        have hsl := size_eq_of_foreach_eq hseql
        have hsr := size_eq_of_foreach_eq hseqr
        exact ⟨by omega, by omega, ih hyl (by omega) hbl, ih hyr (by omega) hbr⟩

/-- **Balancing is correct.**  On exact counts `u_bst_balance` comes to an end, keeps the sequence
and the counts, and leaves a tree in which no node's subtrees differ by more than one in size, and
than which no tree with as many nodes is lower. -/
theorem balance_correct {b : Bst κ β} (h : Exact b.root) :
    ∃ b', balance b = some (0, b') ∧ b'.root.foreach = b.root.foreach ∧ Exact b'.root ∧
      b'.root.Balanced ∧ ∀ t : Tree κ β, t.size = b.root.size → b'.root.height ≤ t.height := by
  obtain ⟨root, hbal, hexact, hseq⟩ := nodeBalance_exact h (Nat.le_refl _)
  have hbalanced := nodeBalance_balanced h (Nat.le_refl _) hbal
  have hsize := size_eq_of_foreach_eq hseq
  refine ⟨{ b with root }, by simp [balance, hbal], hseq, hexact, hbalanced, ?_⟩
  exact fun t ht => hbalanced.height_le (ht.trans hsize.symm)

theorem balance_correct_chain :
    ∃ b', balance chain = some (0, b') ∧ b'.root.foreach = chain.root.foreach ∧
    b'.root.Balanced := by
  obtain ⟨b', hbal, hseq, -, hb, -⟩ := balance_correct chain_exact
  exact ⟨b', hbal, hseq, hb⟩

end Libu.Bst
