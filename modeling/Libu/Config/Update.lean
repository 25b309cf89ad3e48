/-
# Updates that fail (`u_config_set_value`, `u_config_set_key`)

A value cannot be set when one of its references has no closing bracket.  By then the old value is
gone, and the nodes that a dotted key was missing are there.

There is no rollback, and none is promised.  The value is freed before the new one is looked at, so
that a failure finds the node without a value; and the nodes on the way of a dotted key are made one
by one, before it is known whether there will be a value for the last of them.

* §1: an update that fails leaves what the same update with no value leaves (`setValue_failed`).
* §2: what that is, node by node (`Left`).  No node is lost or moved, only the node that was to be
  set has lost its value, and the nodes that are new are on the way to it (`failed_update`).
-/
import Libu.Config.Scope

namespace Libu.Config

open Verif

section Update

variable {c c' : Config} {p q r : Path} {cs : Forest Item} {key : List Char}
    {keys : List (List Char)}
  {val : Option (List Char)}

/-! ## 1. Updates without a value -/

theorem setValue_failed (h : (c.setValue p val).1 ≠ .ok) : (c.setValue p val).2 =
    (c.setValue p none).2 := by
  cases val with
  | none => exact absurd rfl h
  | some val =>
    rw [setValue] at h ⊢
    cases hexp : expand ((c.putValue p none).lookup p) none val with
    | error ret => rfl
    | ok value =>
      rw [hexp] at h
      exact absurd rfl h

/-! ## 2. What is left -/

/-- What an update of the node at `q` that fails leaves of `c`. -/
structure Left (c c' : Config) (q : Path) : Prop where
  kept : ∀ r item, c.children.label r = some item →
    c'.children.label r = some (if r = q then { item with value := none } else item)
  added : ∀ r item, c.children.label r = none → c'.children.label r = some item →
    r <+: q ∧ item.value = none
  root : c'.value = if q = [] then none else c.value

/-- The nodes on the way to `q` may have been added. -/
structure Grown (c c' : Config) (q : Path) : Prop where
  kept : ∀ r item, c.children.label r = some item → c'.children.label r = some item
  added : ∀ r item, c.children.label r = none → c'.children.label r = some item →
    r <+: q ∧ item.value = none
  root : c'.value = c.value

theorem Grown.refl (c : Config) (q : Path) : Grown c c q := by
  refine ⟨fun _ _ h => h, fun r item hr hr' => ?_, rfl⟩
  rw [hr] at hr'
  cases hr'

theorem Grown.trans {c₁ : Config} (h : Grown c c₁ p) (h' : Grown c₁ c' q) (hpq : p <+: q) :
    Grown c c' q := by
  refine ⟨fun r item hr => h'.kept r item (h.kept r item hr), fun r item hr hr' => ?_,
    h'.root.trans h.root⟩
  cases hmid : c₁.children.label r with
  | none => exact h'.added r item hmid hr'
  | some item' =>
    have heq := h'.kept r item' hmid
    rw [hr'] at heq
    obtain rfl := Option.some.inj heq
    obtain ⟨hpre, hvalue⟩ := h.added r item hr hmid
    exact ⟨hpre.trans hpq, hvalue⟩

/-- The value of the last node goes. -/
theorem Grown.left (h : Grown c c' q) : Left c (c'.putValue q none) q := by
  by_cases hq : q = []
  · subst hq
    refine ⟨fun r item hr => ?_, h.added, rfl⟩
    have hne : r ≠ [] := by
      rintro rfl
      rw [Forest.label_root] at hr
      cases hr
    rw [if_neg hne]
    exact h.kept r item hr
  · rw [putValue, if_neg hq]
    refine ⟨fun r item hr => ?_, fun r item hr hr' => ?_, by rw [if_neg hq]; exact h.root⟩
    · rw [Forest.label_relabel hq]
      by_cases hrq : r = q
      · subst hrq
        rw [if_pos rfl, if_pos rfl, h.kept r item hr]
        rfl
      · rw [if_neg hrq, if_neg hrq]
        exact h.kept r item hr
    · simp only [Forest.label_relabel hq] at hr'
      by_cases hrq : r = q
      · subst hrq
        rw [if_pos rfl] at hr'
        obtain ⟨item', -, rfl⟩ := Option.map_eq_some_iff.mp hr'
        exact ⟨List.prefix_refl r, rfl⟩
      · rw [if_neg hrq] at hr'
        exact h.added r item hr hr'

/-- A child is found, or it is a new one. -/
theorem grown_childFor (hp : c.children.inside p = some cs) (key : List Char) :
    Grown c (c.childFor p key true).1 (p ++ [(c.childFor p key true).2]) ∧
      ∃ cs', (c.childFor p key true).1.children.inside (p ++ [(c.childFor p key true).2]) =
      some cs' := by
  have hat : (c.children.inside p).getD .nil = cs := by rw [hp, Option.getD_some]
  rcases getChildN_zero key cs with ⟨hnone, -⟩ | ⟨i, m, hi, -, -, hinside, -⟩
  · have hfor : c.childFor p key true = c.addChild p key := by simp [childFor, hat, hnone]
    rw [hfor, addChild, hat]
    refine ⟨⟨fun r item hr => ?_, fun r item hr hr' => ?_, rfl⟩, .nil, ?_⟩
    · have hnew : r ≠ p ++ [cs.length] := by
        rintro rfl
        rw [Forest.label_append_path, hp, Option.bind_some, Forest.label_length] at hr
        cases hr
      rw [Forest.label_add hp, if_neg hnew, hr]
    · simp only [Forest.label_add hp] at hr'
      by_cases hrq : r = p ++ [cs.length]
      · rw [if_pos hrq] at hr'
        obtain rfl := Option.some.inj hr'
        exact ⟨hrq ▸ List.prefix_refl _, rfl⟩
      · rw [if_neg hrq, hr] at hr'
        cases hr'
    · rw [Forest.inside_append_path, Forest.inside_alter hp, Option.bind_some, Forest.inside_behind,
        Forest.inside_root]
  · have hfor : c.childFor p key true = (c, i) := by simp [childFor, hat, hi]
    rw [hfor]
    exact ⟨.refl c _, m.2, by rw [Forest.inside_append_path, hp, Option.bind_some, hinside]⟩

theorem keyNode_extends (hkeys : keys ≠ []) : p <+: (keyNode true keys c p).2 := by
  induction keys generalizing c p with
  | nil => exact absurd rfl hkeys
  | cons key keys ih =>
    cases keys with
    | nil => exact List.prefix_append p _
    | cons k ks => exact (List.prefix_append p _).trans (ih (by simp))

theorem grown_keyNode (hkeys : keys ≠ []) (hp : c.children.inside p = some cs) :
    Grown c (keyNode true keys c p).1 (keyNode true keys c p).2 := by
  induction keys generalizing c p cs with
  | nil => exact absurd rfl hkeys
  | cons key keys ih =>
    obtain ⟨hgrown, cs', hinside⟩ := grown_childFor hp key
    cases keys with
    | nil => exact hgrown
    | cons k ks => exact hgrown.trans (ih (by simp) hinside) (keyNode_extends (by simp))

/-- **An update that fails** takes the value of its node, and leaves the nodes that it has added on
the way there.  Nothing else of the tree has changed: no node is lost or moved, and no other value
is another one. -/
theorem failed_update (hp : c.children.inside p = some cs) (key : List Char)
    (val : Option (List Char)) : ((c.setValue p val).1 = .err → Left c (c.setValue p val).2 p) ∧
      ((c.setKey p key val).1 = .err → Left c (c.setKey p key val).2
        (keyNode true (splitDots key) c p).2) := by
  constructor
  · intro hfail
    rw [setValue_failed (by rw [hfail]; simp)]
    exact (Grown.refl c p).left
  · intro hfail
    rw [setKey, doSetKey_keyNode (splitDots_ne_nil key)] at hfail ⊢
    simp only at hfail ⊢
    rw [setValue_failed (by rw [hfail]; simp)]
    exact (grown_keyNode (splitDots_ne_nil key) hp).left

end Update

/-- A key of two names, below a node that is there. -/
theorem failed_update_dotted : Left ⟨none, .node ⟨['a'], some ['1']⟩ .nil .nil⟩
    (setKey ⟨none, .node ⟨['a'], some ['1']⟩ .nil .nil⟩ [] ['a', '.', 'b']
      (some ['$', '{'])).2 [0, 0] :=
  (@failed_update ⟨none, .node ⟨['a'], some ['1']⟩ .nil .nil⟩ [] _ rfl ['a', '.', 'b']
    (some ['$', '{'])).2 (by decide)

/-- The value is gone. -/
theorem value_lost :
    (setValue ⟨none, .node ⟨['a'], some ['1']⟩ .nil .nil⟩ [0] (some ['$', '{'])).1 = .err ∧
    (setValue ⟨none, .node ⟨['a'], some ['1']⟩ .nil .nil⟩ [0] (some ['$', '{'])).2 ≠
      ⟨none, .node ⟨['a'], some ['1']⟩ .nil .nil⟩ := by
  decide

end Libu.Config
