/-
# The in-order sequence under every operation of the tree

What `u_bst_node_foreach` visits is the abstract value of a tree.  This file says what each
routine of `toolbox/bst.c` does to it.

* A rotation does nothing (`rotate_foreach`), so neither do the routines that only rotate.
* All the insertion routines do the STABLE insertion of `Verif.Cmp`, whatever the shape of the
  tree, as long as the sequence is sorted (`nodePush_foreach`, `nodePushBottom_eq_nodePush`,
  `nodePushTop_spec`, `nodePushRand_spec`).  Equal keys may end up on both sides of a node: the
  argument only uses that the SEQUENCE is sorted.
* A delete cuts the found node out of the sequence and splices what `u_bst_node_join_lr` makes
  of its two subtrees into the gap (`nodeDelete_spec`).  The join keeps both subtrees exactly
  when the element counts along the left spine of the right subtree lead promotion all the way
  down to its first node (`countedSpine`, `nodeJoinLr_spec`).
-/
import Libu.Bst.Basic
import Libu.Verif.Cmp

namespace Libu.Bst

open Verif

variable {κ β : Type} {cmp : κ → κ → Int}

/-! ## 1. Rotation -/

/-- A rotation is the change of bracketing it is meant to be. -/
theorem rotate_foreach : ∀ {t t' : Tree κ β} {d : Rot}, rotate t d = some t' →
    t'.foreach = t.foreach
  | .null, _, _, h => by
    obtain rfl : Tree.null = _ := by simpa [rotate] using h
    rfl
  | .node x n l (.node y m yl yr), t', .left, h => by
    simp only [rotate, Option.some.injEq] at h
    simp [← h]
  | .node x n (.node y m yl yr) r, t', .right, h => by
    simp only [rotate, Option.some.injEq] at h
    simp [← h]
  | .node _ _ _ .null, _, .left, h => by simp [rotate] at h
  | .node _ _ .null _, _, .right, h => by simp [rotate] at h

/-! ## 2. Insertion -/

/-- Below a node with a greater key the insertion goes left, otherwise right: both are the
insertion into the whole sequence. -/
theorem stableInsert_node (hc : IsPreorder cmp) {e x : Item κ β} {l r : List (Item κ β)}
    (hs : SortedBy cmp Item.key (l ++ x :: r)) :
    stableInsert cmp Item.key e (l ++ x :: r)
      = if cmp e.key x.key < 0 then stableInsert cmp Item.key e l ++ x :: r
        else l ++ x :: stableInsert cmp Item.key e r := by
  split
  · next h => exact stableInsert_append_of_lt h
  · next h => exact stableInsert_append_of_not_lt hc hs h

/-- The sequence below a node on the left is sorted if that of the node is, and so is the one on the
right (`sortedBy_right`). -/
theorem sortedBy_left {x : Item κ β} {l r : List (Item κ β)}
    (hs : SortedBy cmp Item.key (l ++ x :: r)) : SortedBy cmp Item.key l :=
  hs.sublist (List.sublist_append_left _ _)

theorem sortedBy_right {x : Item κ β} {l r : List (Item κ β)}
    (hs : SortedBy cmp Item.key (l ++ x :: r)) : SortedBy cmp Item.key r :=
  hs.sublist ((List.sublist_cons_self _ _).trans (List.sublist_append_right _ _))

theorem nodePush_of_lt {e x : Item κ β} (h : cmp e.key x.key < 0) (n : UInt64) (l r : Tree κ β) :
    nodePush cmp e (.node x n l r) = .node x (n + 1) (nodePush cmp e l) r := if_pos h

theorem nodePush_of_not_lt {e x : Item κ β} (h : ¬ cmp e.key x.key < 0) (n : UInt64)
    (l r : Tree κ β) :
    nodePush cmp e (.node x n l r) = .node x (n + 1) l (nodePush cmp e r) := if_neg h

/-- **Insertion.** On a sorted sequence `u_bst_node_push` is the stable insertion, although it only
ever looks at one node of each level. -/
theorem nodePush_foreach (hc : IsPreorder cmp) (e : Item κ β) : ∀ {t : Tree κ β},
    SortedBy cmp Item.key t.foreach →
    (nodePush cmp e t).foreach = stableInsert cmp Item.key e t.foreach
  | .null, _ => rfl
  | .node x n l r, hs => by
    rw [Tree.foreach_node, stableInsert_node hc hs, nodePush]
    split
    · rw [Tree.foreach_node, nodePush_foreach hc e (sortedBy_left hs)]
    · rw [Tree.foreach_node, nodePush_foreach hc e (sortedBy_right hs)]

/-- A frame whose child is re-linked by the turn recorded in it. -/
theorem foldl_relink_pushBottomWalk (e : Item κ β) : ∀ (t : Tree κ β) (up : List (Frame κ β)),
    t ≠ .null →
    (match pushBottomWalk cmp e.key t up with
      | [] => nodeNew e
      | parent :: up =>
        let attached : Tree κ β :=
          if cmp e.key parent.item.key < 0 then
            .node parent.item parent.nelem (nodeNew e) parent.right
          else .node parent.item parent.nelem parent.left (nodeNew e)
        up.foldl (fun child f => f.relink child) attached)
      = up.foldl (fun child f => f.relink child) (nodePush cmp e t)
  | .null, _, h => absurd rfl h
  | .node x n l r, up, _ => by
    by_cases hx : cmp e.key x.key < 0
    · match l with
      | .null => simp [pushBottomWalk, nodePush, hx]
      | .node y m yl yr =>
        have ih := foldl_relink_pushBottomWalk e (.node y m yl yr)
          (⟨x, n + 1, .node y m yl yr, r, true⟩ :: up) (by simp)
        rw [pushBottomWalk, if_pos hx, ih, nodePush_of_lt hx]
        rfl
    · match r with
      | .null => simp [pushBottomWalk, nodePush, hx]
      | .node y m yl yr =>
        have ih := foldl_relink_pushBottomWalk e (.node y m yl yr)
          (⟨x, n + 1, l, .node y m yl yr, false⟩ :: up) (by simp)
        rw [pushBottomWalk, if_neg hx, ih, nodePush_of_not_lt hx]
        rfl

/-- **The loop of `u_bst_node_push_bottom` computes the recursion of `u_bst_node_push`.** -/
theorem nodePushBottom_eq_nodePush (e : Item κ β) (t : Tree κ β) :
    nodePushBottom cmp e t = nodePush cmp e t := by
  match t with
  | .null => rfl
  | .node x n l r => exact foldl_relink_pushBottomWalk e (.node x n l r) [] (by simp)

/-- **Top insertion.**  The new node comes out at the root, and the rotations that took it
there have put it in its place of the sequence. -/
theorem nodePushTop_spec (hc : IsPreorder cmp) (e : Item κ β) : ∀ {t : Tree κ β},
    SortedBy cmp Item.key t.foreach →
    ∃ n l r, nodePushTop cmp e t = some (.node e n l r) ∧
      l.foreach ++ e :: r.foreach = stableInsert cmp Item.key e t.foreach
  | .null, _ => ⟨1, .null, .null, rfl, rfl⟩
  | .node x n l r, hs => by
    rw [Tree.foreach_node, stableInsert_node hc hs]
    by_cases hx : cmp e.key x.key < 0
    · obtain ⟨m, yl, yr, hl, hseq⟩ := nodePushTop_spec hc e (sortedBy_left hs)
      rw [if_pos hx, ← hseq]
      simp [nodePushTop, hx, hl, rotate]
    · obtain ⟨m, yl, yr, hr, hseq⟩ := nodePushTop_spec hc e (sortedBy_right hs)
      rw [if_neg hx, ← hseq]
      simp [nodePushTop, hx, hr, rotate]

/-- **Randomised insertion**, for every outcome of `rand`.  It is undefined on a node whose
count is `SIZE_MAX`. -/
theorem nodePushRand_spec (hc : IsPreorder cmp) (e : Item κ β) (rnd : UInt64) {t : Tree κ β}
    (hs : SortedBy cmp Item.key t.foreach) (hn : t.nelemOr0 + 1 ≠ 0) :
    ∃ t', nodePushRand cmp e rnd t = some t' ∧
      t'.foreach = stableInsert cmp Item.key e t.foreach := by
  match t with
  | .null => exact ⟨nodeNew e, rfl, rfl⟩
  | .node x n l r =>
    simp only [Tree.nelemOr0] at hn
    have hpush := nodePush_foreach hc e hs
    rw [nodePush] at hpush
    simp only [nodePushRand, if_neg hn]
    split
    · obtain ⟨m, yl, yr, ht, hseq⟩ := nodePushTop_spec hc e hs
      exact ⟨_, ht, hseq⟩
    · split
      · next hx => exact ⟨_, rfl, by simpa only [if_pos hx] using hpush⟩
      · next hx => exact ⟨_, rfl, by simpa only [if_neg hx] using hpush⟩

/-- Randomised insertion is undefined on no other node than one that counts `SIZE_MAX`. -/
theorem nodePushRand_eq_none_iff (e : Item κ β) (rnd : UInt64) (hc : IsPreorder cmp)
    {t : Tree κ β} (hs : SortedBy cmp Item.key t.foreach) :
    nodePushRand cmp e rnd t = none ↔ t.nelemOr0 + 1 = 0 := by
  constructor
  · intro h
    by_contra hn
    obtain ⟨t', ht', -⟩ := nodePushRand_spec hc e rnd hs hn
    simp [ht'] at h
  · intro h
    match t with
    | .null => simp [Tree.nelemOr0] at h
    | .node x n l r => exact if_pos h

/-! ## 3. Search -/

/-- What the search finds has an equal key. -/
theorem nodeSearch_key {k : κ} : ∀ {t : Tree κ β} {x : Item κ β} {n : UInt64} {l r : Tree κ β},
    nodeSearch cmp k t = .node x n l r → cmp k x.key = 0
  | .null, _, _, _, _, h => by simp [nodeSearch] at h
  | .node y m yl yr, x, n, l, r, h => by
    simp only [nodeSearch] at h
    split at h
    · next h0 =>
      obtain ⟨rfl, -⟩ : y = x ∧ _ := by simpa using h
      exact h0
    · split at h
      · exact nodeSearch_key h
      · exact nodeSearch_key h

/-- **The search is complete on a sorted sequence**, however equal keys are spread over the
tree. -/
theorem nodeSearch_eq_null_iff (hc : IsPreorder cmp) {k : κ} : ∀ {t : Tree κ β},
    SortedBy cmp Item.key t.foreach →
    (nodeSearch cmp k t = .null ↔ ∀ e ∈ t.foreach, cmp k e.key ≠ 0)
  | .null, _ => by simp [nodeSearch]
  | .node x n l r, hs => by
    simp only [nodeSearch]
    split
    · next h0 =>
      refine ⟨fun h => by simp at h, fun h => absurd h0 (h x (by simp))⟩
    · next h0 =>
      split
      · next hgt =>
        rw [nodeSearch_eq_null_iff hc (sortedBy_right hs)]
        refine ⟨fun h e he hk => h e (hs.mem_right_of_lt hc hgt he hk) hk,
          fun h e he => h e (by simp [he])⟩
      · next hgt =>
        have hlt : cmp k x.key < 0 := by omega
        rw [nodeSearch_eq_null_iff hc (sortedBy_left hs)]
        refine ⟨fun h e he hk => h e (hs.mem_left_of_lt hc hlt he hk) hk,
          fun h e he => h e (by simp [he])⟩

/-! ## 4. Joining two subtrees -/

/-- Every left child on the left spine has a count other than zero: promotion of the first node,
which stops as soon as it reads a zero, reaches the end of the spine. -/
def countedSpine : Tree κ β → Bool
  | .null => true
  | .node _ _ l _ => (match l with | .null => true | .node _ m _ _ => m != 0) && countedSpine l

/-- **Promotion of position 0.**  It is always defined and keeps the sequence; the node it
promotes is the first one, that is one with no left child, exactly on a counted spine. -/
theorem nodePromoteNth_zero (x : Item κ β) (c : UInt64) : ∀ (l r : Tree κ β),
    ∃ y d yl yr, nodePromoteNth (.node x c l r) 0 = some (.node y d yl yr) ∧
      yl.foreach ++ y :: yr.foreach = l.foreach ++ x :: r.foreach ∧
      (yl = .null ↔ countedSpine (.node x c l r) = true)
  | .null, r => ⟨x, c, .null, r, by simp [nodePromoteNth, Tree.nelemOr0], rfl,
      by simp [countedSpine]⟩
  | .node z m zl zr, r => by
    by_cases hm : m = 0
    · subst hm
      exact ⟨x, c, .node z 0 zl zr, r, by simp [nodePromoteNth, Tree.nelemOr0], rfl,
        by simp [countedSpine]⟩
    · have hpos : 0 < m := UInt64.pos_iff_ne_zero.mpr hm
      obtain ⟨y, d, yl, yr, hp, hseq, hleft⟩ := nodePromoteNth_zero z m zl zr
      refine ⟨y, c, yl, .node x (c - yl.nelemPlus1) yr r, ?_, ?_, ?_⟩
      · rw [nodePromoteNth]
        simp only [Tree.nelemOr0, if_pos hpos, hp, Option.bind_eq_bind, Option.bind_some, rotate]
      · simp only [Tree.foreach_node, ← hseq]
        simp
      · rw [hleft]
        simp [countedSpine, hm]

/-- **The join.**  Nothing is lost on a counted spine; otherwise at least one node is. -/
theorem nodeJoinLr_spec (l r : Tree κ β) :
    ∃ j, nodeJoinLr l r = some j ∧
      (countedSpine r = true → j.foreach = l.foreach ++ r.foreach) ∧
      (countedSpine r = false → j.size < l.size + r.size) := by
  match r with
  | .null => exact ⟨l, rfl, by simp, by simp [countedSpine]⟩
  | .node x c xl xr =>
    obtain ⟨y, d, yl, yr, hp, hseq, hleft⟩ := nodePromoteNth_zero x c xl xr
    refine ⟨.node y d l yr, by simp [nodeJoinLr, hp], fun h => ?_, fun h => ?_⟩
    · have hnull := hleft.mpr h
      subst hnull
      simp only [Tree.foreach_null, List.nil_append] at hseq
      rw [Tree.foreach_node, Tree.foreach_node, hseq]
    · have hne : yl ≠ .null := fun hnull => by simp [hleft.mp hnull] at h
      have hpos : 0 < yl.size := by cases yl <;> simp_all
      have hlen := congrArg List.length hseq
      simp only [List.length_append, List.length_cons, Tree.length_foreach] at hlen
      simp only [Tree.size_node]
      omega

/-! ## 5. Deletion -/

@[simp] theorem discount_foreach (found : Bool) (t : Tree κ β) :
    (discount found t).foreach = t.foreach := by
  cases t <;> cases found <;> rfl

@[simp] theorem discount_false (t : Tree κ β) : discount false t = t := by cases t <;> rfl

@[simp] theorem discount_size (found : Bool) (t : Tree κ β) :
    (discount found t).size = t.size := by
  cases t <;> cases found <;> rfl

/-- An absent key: nothing changes. -/
theorem nodeDelete_of_null {k : κ} : ∀ {t : Tree κ β}, nodeSearch cmp k t = .null →
    nodeDelete cmp k t = some (t, false)
  | .null, _ => rfl
  | .node x c l r, h => by
    simp only [nodeSearch] at h
    split at h
    · simp at h
    · next h0 =>
      simp only [nodeDelete]
      split at h
      · next hgt =>
        rw [if_neg (by omega), if_pos hgt, nodeDelete_of_null h]
        rfl
      · next hgt =>
        rw [if_pos (by omega), nodeDelete_of_null h]
        rfl

/-- **A key that is found.**  The sequence is cut at the subtree the search finds, and the join
of that subtree's children takes its place. -/
theorem nodeDelete_spec {k : κ} {x : Item κ β} {c : UInt64} {l r j : Tree κ β}
    (hj : nodeJoinLr l r = some j) : ∀ {t : Tree κ β}, nodeSearch cmp k t = .node x c l r →
    ∃ t' a b, nodeDelete cmp k t = some (t', true) ∧
      t.foreach = a ++ (l.foreach ++ x :: r.foreach) ++ b ∧
      t'.foreach = a ++ j.foreach ++ b
  | .null, h => by simp [nodeSearch] at h
  | .node y d yl yr, h => by
    simp only [nodeSearch] at h
    split at h
    · next h0 =>
      obtain ⟨rfl, rfl, rfl, rfl⟩ : y = x ∧ d = c ∧ yl = l ∧ yr = r := by simpa using h
      refine ⟨discount true j, [], [], ?_, by simp, by simp⟩
      simp [nodeDelete, h0, hj]
    · next h0 =>
      split at h
      · next hgt =>
        obtain ⟨t', a, b, hd, hseq, hseq'⟩ := nodeDelete_spec hj h
        refine ⟨discount true (.node y d yl t'), yl.foreach ++ y :: a, b, ?_, ?_, ?_⟩
        · have hlt : ¬ cmp k y.key < 0 := by omega
          simp [nodeDelete, hlt, hgt, hd]
        · rw [Tree.foreach_node, hseq]; simp
        · rw [discount_foreach, Tree.foreach_node, hseq']; simp
      · next hgt =>
        obtain ⟨t', a, b, hd, hseq, hseq'⟩ := nodeDelete_spec hj h
        refine ⟨discount true (.node y d t' yr), a, b ++ y :: yr.foreach, ?_, ?_, ?_⟩
        · have hlt : cmp k y.key < 0 := by omega
          simp [nodeDelete, hlt, hd]
        · rw [Tree.foreach_node, hseq]; simp
        · rw [discount_foreach, Tree.foreach_node, hseq']; simp

end Libu.Bst
