/-
# References in values (`toolbox/config.c`)

A `${name}` in a value stands for the value of `name` in the innermost section around the key that
defines it.  `u_config_set_value` looks into that section and into the root, and into the root only
if the section has no node of the name, with a value or without.

* §1 is the scoping (`scoped`), and the condition under which the code follows it (`Clear`).
* §2: what is looked up for a reference is what it stands for exactly when it is clear
  (`lookup_scope_iff`).
* §3 is the node whose value a key sets.  `Libu.Config.Scoping` says what is stored there.
-/
import Libu.Config.Load
import Libu.Config.SetGet

namespace Libu.Config

open Verif

/-! ## 1. Scoping -/

/-- The names that are looked up for a value; `var` as in `expand`. -/
def references : Option (List Char) → List Char → List (List Char)
  | none, [] => []
  | none, '$' :: '{' :: val => references (some []) val
  | none, _ :: val => references none val
  | some _, [] => []
  | some var, c :: val =>
    if c = '}' then var :: references none val else references (some (var ++ [c])) val

/-- The children of the section at `p`. -/
def inSection (c : Config) (p : Path) : Forest Item := (c.children.inside p).getD .nil

/-- The sections around the node at `q`, from the innermost out to the root. -/
def enclosing (q : Path) : List Path := (List.range q.length).reverse.map q.take

/-- The value of the name in the first of the sections that defines it. -/
def innermost (c : Config) (var : List Char) (ps : List Path) : Option (List Char) :=
  ps.findSome? fun p => getSubkeyValue var (c.inSection p)

/-- What a reference in the value of the node at `q` stands for. -/
def scopeValue (c : Config) (q : Path) (var : List Char) : List Char :=
  (c.innermost var (enclosing q)).getD []

/-- The sections between the innermost one and the root. -/
def between (q : Path) : List Path := (enclosing q).tail.dropLast

/-- The section of the node at `q` defines the name; or it has a node of the name without a value,
and further out the name stands for nothing; or it has no such node, and no section between it and
the root hides what the root says. -/
def Clear (c : Config) (q : Path) (var : List Char) : Prop :=
  (getSubkeyValue var (c.inSection q.dropLast)).isSome ∨
    ((getSubkey var (c.inSection q.dropLast)).isSome ∧
      ∀ val, c.innermost var (enclosing q).tail = some val → val = []) ∨
    (getSubkey var (c.inSection q.dropLast) = none ∧
      ∀ val, c.innermost var (between q) = some val → val = (getSubkeyValue var c.children).getD [])

/-! ## 2. A reference -/

section Reference

variable {c : Config} {q : Path} {var : List Char}

theorem enclosing_eq (hq : q ≠ []) : enclosing q = q.dropLast :: (enclosing q).tail := by
  obtain ⟨n, hn⟩ := Nat.exists_eq_succ_of_ne_zero fun h => hq (List.eq_nil_of_length_eq_zero h)
  rw [enclosing, hn, List.range_succ, List.reverse_append, List.reverse_singleton,
    List.singleton_append, List.map_cons, List.tail_cons, List.dropLast_eq_take,
    hn, Nat.succ_sub_one]

/-- The outermost section is the root. -/
theorem enclosing_tail (hq : q.dropLast ≠ []) : (enclosing q).tail = between q ++ [[]] := by
  obtain ⟨n, hn⟩ : ∃ n, q.length = n + 2 := by
    have hlen := List.length_pos_of_ne_nil hq
    rw [List.length_dropLast] at hlen
    exact ⟨q.length - 2, by omega⟩
  have htail : (enclosing q).tail = (List.range (n + 1)).reverse.map q.take := by
    rw [enclosing, hn, List.range_succ, List.reverse_append, List.reverse_singleton,
      List.singleton_append, List.map_cons, List.tail_cons]
  have hroot : (enclosing q).tail = ((List.range n).map Nat.succ).reverse.map q.take ++ [[]] := by
    rw [htail, List.range_succ_eq_map, List.reverse_cons, List.map_append,
      List.map_singleton, List.take_zero]
  rw [between, hroot, List.dropLast_concat]

/-- Without a node of the name there is no value. -/
theorem getSubkeyValue_of_none {f : Forest Item} (h : getSubkey var f = none) :
    getSubkeyValue var f = none := by
  rw [getSubkeyValue, h]
  rfl

theorem inSection_root (c : Config) : c.inSection [] = c.children := by
  rw [inSection, Forest.inside_root, Option.getD_some]

theorem innermost_cons (p : Path) (ps : List Path) :
    c.innermost var (p :: ps) = (getSubkeyValue var (c.inSection p)).or (c.innermost var ps) := by
  rw [innermost, List.findSome?_cons]
  cases getSubkeyValue var (c.inSection p) <;> rfl

theorem innermost_concat (p : Path) (ps : List Path) :
    c.innermost var (ps ++ [p]) = (c.innermost var ps).or (getSubkeyValue var (c.inSection p)) := by
  rw [innermost, List.findSome?_append]
  congr 1
  rw [List.findSome?_cons]
  cases getSubkeyValue var (c.inSection p) <;> rfl

/-- What the code looks up. -/
theorem lookup_eq (hq : q ≠ []) : c.lookup q var =
    .ok ((if (getSubkey var (c.inSection q.dropLast)).isSome then
    getSubkeyValue var (c.inSection q.dropLast) else getSubkeyValue var c.children).getD []) := by
  rw [lookup, if_neg hq]
  unfold inSection
  dsimp only
  split <;> rfl

/-- **A reference is replaced by the value in the innermost section that defines the name exactly
when it is clear.** -/
theorem lookup_scope_iff (hq : q ≠ []) : c.lookup q var = .ok (c.scopeValue q var) ↔
    Clear c q var := by
  rw [lookup_eq hq, scopeValue, enclosing_eq hq, innermost_cons, Except.ok.injEq]
  unfold Clear
  cases hval : getSubkeyValue var (c.inSection q.dropLast) with
  | some val =>
    have hkey : (getSubkey var (c.inSection q.dropLast)).isSome := by
      by_contra h
      rw [getSubkeyValue_of_none (Option.not_isSome_iff_eq_none.mp h)] at hval
      cases hval
    simp [hkey]
  | none =>
    cases hkey : getSubkey var (c.inSection q.dropLast) with
    | some pc =>
      cases c.innermost var (enclosing q).tail with
      | none => simp
      | some val => simp [eq_comm]
    | none =>
      by_cases hroot : q.dropLast = []
      · -- the section is the root
        have hlen : q.length = 1 := by
          have hpos := List.length_pos_of_ne_nil hq
          have hzero := congrArg List.length hroot
          rw [List.length_dropLast, List.length_nil] at hzero
          omega
        have htail : (enclosing q).tail = [] := by
          rw [enclosing, hlen]
          rfl
        rw [hroot, inSection_root] at hval
        simp [between, htail, innermost, hval]
      · rw [enclosing_tail hroot, innermost_concat, inSection_root]
        cases c.innermost var (between q) with
        | none => simp
        | some val => simp [eq_comm]

end Reference

/-! ## 3. The node that is set -/

/-- The tree and the node in it whose value `u_config_do_set_key` sets. -/
def keyNode (overwrite : Bool) : List (List Char) → Config → Path → Config × Path
  | [], c, p => (c, p)
  | [key], c, p => ((c.childFor p key overwrite).1, p ++ [(c.childFor p key overwrite).2])
  | key :: keys, c, p =>
    keyNode overwrite keys (c.childFor p key true).1 (p ++ [(c.childFor p key true).2])

section KeyNode

variable {overwrite : Bool} {c : Config} {p : Path} {keys : List (List Char)}

theorem keyNode_ne_nil (hkeys : keys ≠ []) : (keyNode overwrite keys c p).2 ≠ [] := by
  induction keys generalizing c p with
  | nil => exact absurd rfl hkeys
  | cons key keys ih =>
    cases keys with
    | nil => simp [keyNode]
    | cons k ks => exact ih (by simp)

/-- Setting a key sets the value of its node. -/
theorem doSetKey_keyNode (hkeys : keys ≠ []) (val : Option (List Char)) :
    doSetKey val overwrite keys c p =
    (((keyNode overwrite keys c p).1.setValue (keyNode overwrite keys c p).2 val).1,
      ((keyNode overwrite keys c p).1.setValue (keyNode overwrite keys c p).2 val).2,
      (keyNode overwrite keys c p).2) := by
  induction keys generalizing c p with
  | nil => exact absurd rfl hkeys
  | cons key keys ih =>
    cases keys with
    | nil => rfl
    | cons k ks =>
      exact ih (by simp)

end KeyNode

end Libu.Config
