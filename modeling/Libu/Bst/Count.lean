/-
# Element counts

`nelem` is exact on a tree when every node counts the nodes of its own subtree (`Exact`).  No
sortedness is involved anywhere in this file: the routines keep or break the counts whatever the
comparison function answers.

* Rotation repairs the two counts it touches (`Exact.rotate`).
* The insertion routines keep exact counts as long as a `size_t` can hold the new total
  (`nodePush_exact`, `nodePushTop_exact`, `nodePushRand_exact`).
* On exact counts promotion finds its position (`nodePromoteNth_exact`), so balancing is total
  (`nodeBalance_exact`) and a join loses nothing.
* A delete keeps exact counts only when it takes a leaf out (`nodeDelete_exact_iff`): after a
  join, the count of the promoted node is that of the right subtree alone, and is still reduced.
-/
import Libu.Bst.Order

namespace Libu.Bst

open scoped List

variable {κ β : Type} {cmp : κ → κ → Int}

/-! ## 1. Exact counts -/

/-- Every node counts the nodes of its subtree, and the count has not wrapped around. -/
def Exact : Tree κ β → Prop
  | .null => True
  | .node _ n l r => n.toNat = l.size + r.size + 1 ∧ Exact l ∧ Exact r

@[simp] theorem exact_null : Exact (.null : Tree κ β) := trivial

@[simp] theorem exact_node (x : Item κ β) (n : UInt64) (l r : Tree κ β) :
    Exact (.node x n l r) ↔ n.toNat = l.size + r.size + 1 ∧ Exact l ∧ Exact r := Iff.rfl

/-- On exact counts the code reads the size of a subtree, NULL included. -/
theorem Exact.nelemOr0 : ∀ {t : Tree κ β}, Exact t → t.nelemOr0.toNat = t.size
  | .null, _ => rfl
  | .node _ _ _ _, h => h.1

theorem Exact.nelemPlus1 : ∀ {t : Tree κ β}, Exact t → t.size + 1 < 2 ^ 64 →
    t.nelemPlus1.toNat = t.size + 1
  | .null, _, _ => rfl
  | .node _ n _ _, h, hsz => by
    have hn : n.toNat = _ := h.1
    simp only [Tree.size_node] at hsz
    rw [Tree.nelemPlus1, UInt64.toNat_add, hn, Tree.size_node]
    exact Nat.mod_eq_of_lt hsz

/-- The number of nodes is that of the sequence. -/
theorem size_eq_of_foreach_eq {t t' : Tree κ β} (h : t'.foreach = t.foreach) :
    t'.size = t.size := by
  rw [← Tree.length_foreach, ← Tree.length_foreach, h]

/-- A count that does not wrap around is counted up, and one that is large enough is counted down
(`toNat_sub`). -/
theorem toNat_add_one {n : UInt64} {m : Nat} (hn : n.toNat = m) (hm : m + 1 < 2 ^ 64) :
    (n + 1).toNat = m + 1 := by
  rw [UInt64.toNat_add, hn]
  exact Nat.mod_eq_of_lt hm

theorem toNat_sub {n d : UInt64} {m k : Nat} (hn : n.toNat = m + k) (hd : d.toNat = k) :
    (n - d).toNat = m := by
  have hle : d ≤ n := UInt64.le_iff_toNat_le.mpr (by omega)
  rw [UInt64.toNat_sub_of_le n d hle]
  omega

/-! ## 2. Rotation -/

/-- **Rotation repairs the counts** of the pivot and of the promoted node. -/
theorem Exact.rotate : ∀ {t t' : Tree κ β} {d : Rot}, Exact t → rotate t d = some t' → Exact t'
  | .null, _, _, _, h => by
    obtain rfl : Tree.null = _ := by simpa [Bst.rotate] using h
    trivial
  | .node x n l (.node y m yl yr), t', .left, ⟨hn, hl, hm, hyl, hyr⟩, h => by
    have hlt := n.toNat_lt
    simp only [Tree.size_node] at hn
    simp only [Bst.rotate, Option.some.injEq] at h
    have hplus := hyr.nelemPlus1 (by omega)
    rw [← h]
    refine ⟨?_, ⟨?_, hl, hyl⟩, hyr⟩
    · simp only [Tree.size_node]; omega
    · exact toNat_sub (by omega) hplus
  | .node x n (.node y m yl yr) r, t', .right, ⟨hn, ⟨hm, hyl, hyr⟩, hr⟩, h => by
    have hlt := n.toNat_lt
    simp only [Tree.size_node] at hn
    simp only [Bst.rotate, Option.some.injEq] at h
    have hplus := hyl.nelemPlus1 (by omega)
    rw [← h]
    refine ⟨?_, hyl, ⟨?_, hyr, hr⟩⟩
    · simp only [Tree.size_node]; omega
    · exact toNat_sub (by omega) hplus
  | .node _ _ _ .null, _, .left, _, h => by simp [Bst.rotate] at h
  | .node _ _ .null _, _, .right, _, h => by simp [Bst.rotate] at h

/-- Rotating towards a child that is there is defined; the pivot loses what it does not keep, and
the promoted node takes over its count. -/
theorem rotate_right_node (x y : Item κ β) (n m : UInt64) (yl yr r : Tree κ β) :
    rotate (.node x n (.node y m yl yr) r) .right
      = some (.node y n yl (.node x (n - yl.nelemPlus1) yr r)) := rfl

theorem rotate_left_node (x y : Item κ β) (n m : UInt64) (l yl yr : Tree κ β) :
    rotate (.node x n l (.node y m yl yr)) .left
      = some (.node y n (.node x (n - yr.nelemPlus1) l yl) yr) := rfl

/-! ## 3. Insertion -/

section Insertion

variable {e : Item κ β}

/-- What a subtree gained on the right of a node, the tree gained. -/
theorem perm_insert_right (l : List (Item κ β)) (x : Item κ β) {r r' : List (Item κ β)}
    (h : r' ~ e :: r) : l ++ x :: r' ~ e :: (l ++ x :: r) :=
  calc l ++ x :: r' ~ l ++ x :: e :: r := (h.cons x).append_left l
    _ ~ l ++ e :: x :: r := (List.Perm.swap e x r).append_left l
    _ ~ e :: (l ++ x :: r) := List.perm_middle

/-- Whatever the comparison function answers, the new item is added and all others stay. -/
theorem nodePush_perm (e : Item κ β) : ∀ t : Tree κ β,
    (nodePush cmp e t).foreach ~ e :: t.foreach
  | .null => List.Perm.refl _
  | .node x n l r => by
    by_cases hx : cmp e.key x.key < 0
    · rw [nodePush_of_lt hx, Tree.foreach_node, Tree.foreach_node]
      exact (nodePush_perm e l).append_right _
    · rw [nodePush_of_not_lt hx, Tree.foreach_node, Tree.foreach_node]
      exact perm_insert_right l.foreach x (nodePush_perm e r)

/-- One item more is one node more. -/
theorem size_of_perm_cons {t t' : Tree κ β} (h : t'.foreach ~ e :: t.foreach) :
    t'.size = t.size + 1 := by
  rw [← Tree.length_foreach, ← Tree.length_foreach, h.length_eq, List.length_cons]

theorem nodeNew_exact (e : Item κ β) : Exact (nodeNew e) := ⟨rfl, trivial, trivial⟩

/-- **Insertion keeps exact counts**, as long as a `size_t` can hold the new total. -/
theorem nodePush_exact (e : Item κ β) : ∀ {t : Tree κ β}, Exact t → t.size + 1 < 2 ^ 64 →
    Exact (nodePush cmp e t)
  | .null, _, _ => nodeNew_exact e
  | .node x n l r, ⟨hn, hl, hr⟩, hsz => by
    have hn' := toNat_add_one hn hsz
    simp only [Tree.size_node] at hsz
    by_cases hx : cmp e.key x.key < 0
    · rw [nodePush_of_lt hx]
      refine ⟨?_, nodePush_exact e hl (by omega), hr⟩
      rw [hn', size_of_perm_cons (nodePush_perm e l)]
      omega
    · rw [nodePush_of_not_lt hx]
      refine ⟨?_, hl, nodePush_exact e hr (by omega)⟩
      rw [hn', size_of_perm_cons (nodePush_perm e r)]
      omega

/-- **Top insertion keeps exact counts**: each step up is a rotation of a tree that already
counts the new node. -/
theorem nodePushTop_exact (e : Item κ β) : ∀ {t : Tree κ β}, Exact t → t.size + 1 < 2 ^ 64 →
    ∃ n l r, nodePushTop cmp e t = some (.node e n l r) ∧ Exact (.node e n l r) ∧
      l.foreach ++ e :: r.foreach ~ e :: t.foreach
  | .null, _, _ => ⟨1, .null, .null, rfl, nodeNew_exact e, List.Perm.refl _⟩
  | .node x n l r, ⟨hn, hl, hr⟩, hsz => by
    have hn' := toNat_add_one hn hsz
    simp only [Tree.size_node] at hsz
    by_cases hx : cmp e.key x.key < 0
    · obtain ⟨m, yl, yr, htop, hexact, hperm⟩ := nodePushTop_exact e hl (by omega)
      have hsize : (Tree.node e m yl yr).size = l.size + 1 := size_of_perm_cons hperm
      have hbefore : Exact (.node x (n + 1) (.node e m yl yr) r) := ⟨by omega, hexact, hr⟩
      refine ⟨_, _, _, ?_, hbefore.rotate (rotate_right_node ..), ?_⟩
      · simp only [nodePushTop, if_pos hx, htop, Option.bind_eq_bind, Option.bind_some,
          rotate_right_node]
      · simpa using hperm.append_right (x :: r.foreach)
    · obtain ⟨m, yl, yr, htop, hexact, hperm⟩ := nodePushTop_exact e hr (by omega)
      have hsize : (Tree.node e m yl yr).size = r.size + 1 := size_of_perm_cons hperm
      have hbefore : Exact (.node x (n + 1) l (.node e m yl yr)) := ⟨by omega, hl, hexact⟩
      refine ⟨_, _, _, ?_, hbefore.rotate (rotate_left_node ..), ?_⟩
      · simp only [nodePushTop, if_neg hx, htop, Option.bind_eq_bind, Option.bind_some,
          rotate_left_node]
      · simp only [Tree.foreach_node, List.append_assoc, List.cons_append]
        exact perm_insert_right l.foreach x hperm

/-- Randomised insertion keeps exact counts too, and on them it is always defined: the division is
by a number that has not wrapped around. -/
theorem nodePushRand_exact (e : Item κ β) (rnd : UInt64) {t : Tree κ β} (ht : Exact t)
    (hsz : t.size + 1 < 2 ^ 64) :
    ∃ t', nodePushRand cmp e rnd t = some t' ∧ Exact t' ∧ t'.foreach ~ e :: t.foreach := by
  match t with
  | .null => exact ⟨nodeNew e, rfl, nodeNew_exact e, List.Perm.refl _⟩
  | .node x n l r =>
    have hn : ¬ n + 1 = 0 := by
      intro h
      have h' := toNat_add_one ht.1 hsz
      rw [h] at h'
      simp at h'
    have hpush : Exact (nodePush cmp e (.node x n l r)) := nodePush_exact e ht hsz
    have hperm : (nodePush cmp e (.node x n l r)).foreach ~ _ := nodePush_perm e _
    simp only [nodePushRand, if_neg hn]
    split
    · obtain ⟨m, yl, yr, htop, hexact, hperm⟩ := @nodePushTop_exact _ _ cmp e _ ht hsz
      exact ⟨_, htop, hexact, hperm⟩
    · split
      · next hx =>
        rw [nodePush_of_lt hx] at hpush hperm
        exact ⟨_, rfl, hpush, hperm⟩
      · next hx =>
        rw [nodePush_of_not_lt hx] at hpush hperm
        exact ⟨_, rfl, hpush, hperm⟩

end Insertion

/-! ## 4. Promotion and balancing -/

/-- **Promotion finds its position**: on exact counts the node it makes the root is the one with
`n` nodes before it. -/
theorem nodePromoteNth_exact : ∀ {t : Tree κ β} {n : UInt64}, Exact t → n.toNat < t.size →
    ∃ y d yl yr, nodePromoteNth t n = some (.node y d yl yr) ∧ Exact (.node y d yl yr) ∧
      (Tree.node y d yl yr).foreach = t.foreach ∧ yl.size = n.toNat
  | .null, _, _, h => by simp at h
  | .node x c l r, n, ⟨hc, hl, hr⟩, hn => by
    have ht := hl.nelemOr0
    simp only [Tree.size_node] at hn
    simp only [nodePromoteNth]
    split
    · next hlt =>
      rw [UInt64.lt_iff_toNat_lt, ht] at hlt
      obtain ⟨y, d, yl, yr, hp, hexact, hseq, hsize⟩ := nodePromoteNth_exact hl hlt
      have hbefore : Exact (.node x c (.node y d yl yr) r) :=
        ⟨by rw [size_eq_of_foreach_eq hseq]; exact hc, hexact, hr⟩
      refine ⟨_, _, _, _, by simp only [hp, Option.bind_eq_bind, Option.bind_some]; rfl,
        hbefore.rotate (rotate_right_node ..), ?_, hsize⟩
      rw [rotate_foreach (rotate_right_node x y c d yl yr r), Tree.foreach_node, hseq,
        Tree.foreach_node]
    · next hge =>
      rw [UInt64.lt_iff_toNat_lt, ht] at hge
      split
      · next hlt =>
        rw [UInt64.lt_iff_toNat_lt, ht] at hlt
        have hlt64 := n.toNat_lt
        have hplus : (l.nelemOr0 + 1).toNat = l.size + 1 := toNat_add_one ht (by omega)
        have hsub : (n - (l.nelemOr0 + 1)).toNat = n.toNat - (l.size + 1) :=
          toNat_sub (by omega) hplus
        obtain ⟨y, d, yl, yr, hp, hexact, hseq, hsize⟩ :=
          nodePromoteNth_exact hr (hsub ▸ (by omega : n.toNat - (l.size + 1) < r.size))
        have hbefore : Exact (.node x c l (.node y d yl yr)) :=
          ⟨by rw [size_eq_of_foreach_eq hseq]; exact hc, hl, hexact⟩
        refine ⟨_, _, _, _, by simp only [hp, Option.bind_eq_bind, Option.bind_some]; rfl,
          hbefore.rotate (rotate_left_node ..), ?_, ?_⟩
        · rw [rotate_foreach (rotate_left_node x y c d l yl yr), Tree.foreach_node, hseq,
            Tree.foreach_node]
        · simp only [Tree.size_node]; omega
      · next hge' =>
        rw [UInt64.lt_iff_toNat_lt, ht] at hge'
        exact ⟨x, c, l, r, rfl, ⟨hc, hl, hr⟩, rfl, by omega⟩

/-- **Balancing is total on exact counts** and keeps both the counts and the sequence. -/
theorem nodeBalance_exact : ∀ {fuel : Nat} {t : Tree κ β}, Exact t → t.size ≤ fuel →
    ∃ t', nodeBalance fuel t = some t' ∧ Exact t' ∧ t'.foreach = t.foreach
  | _, .null, _, _ => ⟨.null, by simp [nodeBalance], trivial, rfl⟩
  | 0, .node _ _ _ _, _, hsz => by simp at hsz
  | fuel + 1, .node x c l r, ht, hsz => by
    simp only [nodeBalance]
    split
    · exact ⟨_, rfl, ht, rfl⟩
    · next hc =>
      have hc' : (c / 2).toNat = c.toNat / 2 := by rw [UInt64.toNat_div]; rfl
      have hpos := ht.1
      have hlt : (c / 2).toNat < (Tree.node x c l r).size := by
        rw [Tree.size_node, ← ht.1]; omega
      obtain ⟨y, d, yl, yr, hp, ⟨hd, hyl, hyr⟩, hseq, -⟩ := nodePromoteNth_exact ht hlt
      have hsize := size_eq_of_foreach_eq hseq
      simp only [Tree.size_node] at hsize hsz
      obtain ⟨yl', hbl, hyl', hseql⟩ := nodeBalance_exact hyl (show yl.size ≤ fuel by omega)
      obtain ⟨yr', hbr, hyr', hseqr⟩ := nodeBalance_exact hyr (show yr.size ≤ fuel by omega)
      refine ⟨.node y d yl' yr', by simp [hp, hbl, hbr], ⟨?_, hyl', hyr'⟩, ?_⟩
      · rw [size_eq_of_foreach_eq hseql, size_eq_of_foreach_eq hseqr]; exact hd
      · rw [← hseq, Tree.foreach_node, Tree.foreach_node, hseql, hseqr]

/-! ## 5. Deletion -/

/-- On exact counts no count is zero, so every join keeps both of its subtrees. -/
theorem Exact.countedSpine : ∀ {t : Tree κ β}, Exact t → Bst.countedSpine t = true
  | .null, _ => rfl
  | .node _ _ .null _, _ => rfl
  | .node _ _ (.node y m yl yr) _, ⟨_, hl, _⟩ => by
    have hm : m ≠ 0 := by
      rintro rfl
      have h := hl.1
      simp at h
    have ih := Exact.countedSpine hl
    rw [Bst.countedSpine, ih]
    simp [hm]

/-- What a search finds in a tree with exact counts has exact counts. -/
theorem exact_of_nodeSearch {k : κ} : ∀ {t t' : Tree κ β}, Exact t → nodeSearch cmp k t = t' →
    Exact t'
  | .null, _, _, h => h ▸ trivial
  | .node y d yl yr, _, ht, h => by
    simp only [nodeSearch] at h
    split at h
    · exact h ▸ ht
    · split at h
      · exact exact_of_nodeSearch ht.2.2 h
      · exact exact_of_nodeSearch ht.2.1 h

/-- The tree that a join puts in the place of a node, after its count has been reduced. -/
theorem discount_join_exact_iff {l r j : Tree κ β} (hl : Exact l) (hr : Exact r)
    (hj : nodeJoinLr l r = some j) : Exact (discount true j) ↔ l = .null ∧ r = .null := by
  cases r with
  | null =>
    obtain rfl : l = j := by simpa [nodeJoinLr] using hj
    cases l with
    | null => simp [discount]
    | node x c xl xr =>
      -- the child that takes the node's place loses one from a count that was right
      have hc := hl.1
      simp only [discount, if_true, exact_node, reduceCtorEq, and_true, iff_false, not_and]
      intro h
      have hsub : (c - 1).toNat = xl.size + xr.size := toNat_sub hc rfl
      omega
  | node x c xl xr =>
    have hpos : (0 : UInt64).toNat < (Tree.node x c xl xr).size := by simp
    obtain ⟨y, d, yl, yr, hp, ⟨hd, -, hyr⟩, hseq, hyl⟩ := nodePromoteNth_exact hr hpos
    have hsize := size_eq_of_foreach_eq hseq
    obtain rfl : Tree.node y d l yr = j := by simpa [nodeJoinLr, hp] using hj
    -- the promoted node counts itself and `yr`, then loses one more
    simp only [discount, if_true, exact_node, reduceCtorEq, and_false, iff_false, not_and]
    intro h
    have hsub : (d - 1).toNat = yl.size + yr.size := toNat_sub hd rfl
    have hzero : (0 : UInt64).toNat = 0 := rfl
    omega

/-- A delete that keeps exact counts below a node keeps them at the node. -/
theorem discount_node_exact {x : Item κ β} {c : UInt64} {l l' r r' : Tree κ β}
    (hc : c.toNat = l.size + r.size + 1) (hsize : l'.size + r'.size + 1 = l.size + r.size) :
    Exact (discount true (.node x c l' r')) ↔ Exact l' ∧ Exact r' := by
  have hsub : (c - 1).toNat = l.size + r.size := toNat_sub hc rfl
  simp only [discount, if_true, exact_node, hsub, hsize, true_and]

/-- **When a delete keeps exact counts.**  Taking a node out of a tree with exact counts leaves
exact counts if and only if the node was a leaf. -/
theorem nodeDelete_exact_iff {k : κ} {x : Item κ β} {c : UInt64} {l r : Tree κ β} :
    ∀ {t : Tree κ β}, Exact t → nodeSearch cmp k t = .node x c l r →
      ∃ t', nodeDelete cmp k t = some (t', true) ∧ t'.size + 1 = t.size ∧
        (Exact t' ↔ l = .null ∧ r = .null)
  | .null, _, h => by simp [nodeSearch] at h
  | .node y d yl yr, ⟨hd, hyl, hyr⟩, h => by
    simp only [nodeSearch] at h
    split at h
    · next h0 =>
      obtain ⟨rfl, rfl, rfl, rfl⟩ : y = x ∧ d = c ∧ yl = l ∧ yr = r := by simpa using h
      obtain ⟨j, hj, hseq, -⟩ := nodeJoinLr_spec yl yr
      refine ⟨discount true j, by simp [nodeDelete, h0, hj], ?_,
        discount_join_exact_iff hyl hyr hj⟩
      have hlen := congrArg List.length (hseq hyr.countedSpine)
      simp only [List.length_append, Tree.length_foreach] at hlen
      rw [discount_size, Tree.size_node, hlen]
    · next h0 =>
      split at h
      · next hgt =>
        obtain ⟨t', hdel, hsize, hiff⟩ := nodeDelete_exact_iff hyr h
        have hlt : ¬ cmp k y.key < 0 := by omega
        refine ⟨discount true (.node y d yl t'), by simp [nodeDelete, hlt, hgt, hdel], ?_, ?_⟩
        · rw [discount_size, Tree.size_node, Tree.size_node]; omega
        · rw [discount_node_exact hd (by omega), hiff]
          simp [hyl]
      · next hgt =>
        obtain ⟨t', hdel, hsize, hiff⟩ := nodeDelete_exact_iff hyl h
        have hlt : cmp k y.key < 0 := by omega
        refine ⟨discount true (.node y d t' yr), by simp [nodeDelete, hlt, hdel], ?_, ?_⟩
        · rw [discount_size, Tree.size_node, Tree.size_node]; omega
        · rw [discount_node_exact hd (by omega), hiff]
          simp [hyr]

end Libu.Bst
