/-
# The subkeys of a path (`u_config_get_subkey_nth`)

Several children may have one key.  `u_config_get_subkey_nth` is to get the `n`-th of those that a
dotted path names, below the first child of each name before.

The interface promises that counting `n` up gives all children of the name, one after the other, and
then nothing.  Where it does not keep this, it is because the second of its two branches calls the
routine for the first child of a name: the same child comes for every `n`, and a caller that counts
up until nothing comes goes on for ever.

* §1: the children that a path names (`named`).
* §2: behind a dot the code goes on with `u_config_get_subkey`, which has no `n`.  What it gets is
  the `n`-th subkey exactly when `n` is zero, the path has no dot, or it names nothing; and a caller
  that counts `n` up gets every subkey once and comes to an end in the last two cases only
  (`subkey_nth_iff`).
-/
import Libu.Config.SetGet
import Mathlib.Data.List.Nodup

namespace Libu.Config

open Verif

/-! ## 1. The children that a path names -/

/-- The children with the key, by their indices. -/
def withKey (key : List Char) : Forest Item → List Nat
  | .nil => []
  | .node item _ items =>
    if key = item.key then 0 :: (withKey key items).map (· + 1) else (withKey key items).map (· + 1)

/-- The nodes that a path names in the children of a node. -/
def named : List (List Char) → Forest Item → List Path
  | [], _ => []
  | [key], f => (withKey key f).map fun i => [i]
  | key :: keys, f =>
    match (withKey key f).head? with
    | none => []
    | some i => (named keys ((f.inside [i]).getD .nil)).map (i :: ·)

section Named

variable {key : List Char} {keys : List (List Char)} {f : Forest Item} {n : Nat}

theorem pairwise_withKey (key : List Char) (f : Forest Item) :
    (withKey key f).Pairwise (· < ·) := by
  induction f with
  | nil => exact .nil
  | node item children items _ ih =>
    have hmap : ((withKey key items).map (· + 1)).Pairwise (· < ·) :=
      ih.map _ fun _ _ => Nat.succ_lt_succ
    rw [withKey]
    split
    · exact List.pairwise_cons.mpr ⟨by simp, hmap⟩
    · exact hmap

theorem nodup_named (keys : List (List Char)) (f : Forest Item) : (named keys f).Nodup := by
  fun_induction named keys f with
  | case1 => exact List.nodup_nil
  | case2 key f =>
    have hlt : (withKey key f).Nodup := (pairwise_withKey key f).imp fun h => Nat.ne_of_lt h
    exact hlt.map fun _ _ h => (List.cons.inj h).1
  | case3 => exact List.nodup_nil
  | case4 f key keys _ i _ ih => exact ih.map fun _ _ h => (List.cons.inj h).2

/-- `u_config_get_child_n` gets the children with the key one after the other. -/
theorem getChildN_eq (key : List Char) (n : Nat) (f : Forest Item) : getChildN (some key) n f =
    (withKey key f)[n]? := by
  induction f generalizing n with
  | nil => rfl
  | node item children items _ ih =>
    rw [withKey]
    by_cases hkey : key = item.key
    · have hmatch : some key = none ∨ some key = some item.key := .inr (congrArg some hkey)
      rw [if_pos hkey]
      cases n with
      | zero => rw [getChildN, if_pos hmatch, List.getElem?_cons_zero]
      | succ n => rw [getChildN, if_pos hmatch, List.getElem?_cons_succ, List.getElem?_map, ← ih]
    · have hmatch : ¬ (some key = none ∨ some key = some item.key) := by simp [hkey]
      rw [if_neg hkey, List.getElem?_map, ← ih]
      cases n with
      | zero => rw [getChildN, if_neg hmatch]
      | succ n => rw [getChildN, if_neg hmatch]

theorem named_nil (keys : List (List Char)) : named keys .nil = [] := by
  cases keys with
  | nil => rfl
  | cons key keys => cases keys <;> rfl

/-- `u_config_get_subkey` gets the first of the nodes that the path names. -/
theorem getSubkeyNth_zero (hkeys : keys ≠ []) (f : Forest Item) : getSubkeyNth 0 keys f =
    (named keys f)[0]? := by
  induction keys generalizing f with
  | nil => exact absurd rfl hkeys
  | cons key keys ih =>
    cases keys with
    | nil => rw [getSubkeyNth, getChildN_eq, named, List.getElem?_map]
    | cons k ks =>
      rw [getSubkeyNth, getChildN_eq, named, ← List.head?_eq_getElem?]
      · cases hchild : (withKey key f).head? with
        | none => rfl
        | some i =>
          cases hinside : f.inside [i] with
          | none => simp [hinside, named_nil]
          | some child =>
            simp only [hinside, Option.bind_eq_bind, Option.bind_some, Option.getD_some,
              List.getElem?_map, ih (by simp) child]
            cases (named (k :: ks) child)[0]? <;> rfl
      all_goals simp

/-- A path without a dot. -/
theorem getSubkeyNth_undotted (key : List Char) (n : Nat) (f : Forest Item) :
    getSubkeyNth n [key] f = (named [key] f)[n]? := by
  rw [getSubkeyNth, getChildN_eq, named, List.getElem?_map]

theorem dotted_of_mem {key : List Char} (h : '.' ∈ key) : ∃ k k' ks, splitDots key =
    k :: k' :: ks := by
  induction key with
  | nil => cases h
  | cons c key ih =>
    by_cases hc : c = '.'
    · subst hc
      obtain ⟨k, ks, hsplit⟩ := List.exists_cons_of_ne_nil (splitDots_ne_nil key)
      exact ⟨[], k, ks, by rw [splitDots_dot, hsplit]⟩
    · obtain ⟨k, k', ks, hsplit⟩ := ih ((List.mem_cons.mp h).resolve_left (Ne.symm hc))
      obtain ⟨k₁, ks₁, h₁, h₂⟩ := splitDots_cons hc key
      rw [hsplit] at h₁
      obtain ⟨rfl, rfl⟩ := List.cons.inj h₁
      exact ⟨_, k', ks, h₂⟩

/-- Behind a dot there is no `n`. -/
theorem getSubkeyNth_dotted {key : List Char} (h : '.' ∈ key) (n : Nat) (f : Forest Item) :
    getSubkeyNth n (splitDots key) f = (named (splitDots key) f)[0]? := by
  rw [← getSubkeyNth_zero (splitDots_ne_nil key)]
  obtain ⟨k, k', ks, hsplit⟩ := dotted_of_mem h
  rw [hsplit]
  rfl

end Named

/-! ## 2. Counting up -/

/-- A caller that counts `n` up until it gets nothing gets these, once each. -/
structure Enumerates (get : Nat → Option Path) (ps : List Path) : Prop where
  gets : ∀ n < ps.length, get n = ps[n]?
  stops : get ps.length = none
  once : ps.Nodup

/-- **The `n`-th subkey** is what the code gets exactly when `n` is zero, the path has no dot or it
names nothing.  The enumeration ends, and is right, in the last two cases. -/
theorem subkey_nth_iff (key : List Char) (f : Forest Item) :
    (∀ n, getSubkeyNth n (splitDots key) f = (named (splitDots key) f)[n]? ↔
      n = 0 ∨ '.' ∉ key ∨ named (splitDots key) f = []) ∧
    ((∃ n, getSubkeyNth n (splitDots key) f = none) ↔ '.' ∉ key ∨ named (splitDots key) f = []) ∧
    (Enumerates (fun n => getSubkeyNth n (splitDots key) f) (named (splitDots key) f) ↔
      '.' ∉ key ∨ named (splitDots key) f = []) := by
  by_cases hdot : '.' ∈ key
  · have hget := getSubkeyNth_dotted hdot (f := f)
    simp only [hget, hdot, not_true_eq_false, false_or]
    cases hnamed : named (splitDots key) f with
    | nil =>
      refine ⟨fun n => by simp, by simp, iff_of_true ⟨fun n hn => ?_, rfl, List.nodup_nil⟩ rfl⟩
      exact absurd hn (Nat.not_lt_zero n)
    | cons pc pcs =>
      refine ⟨fun n => ?_, by simp, iff_of_false (fun h => ?_) (by simp)⟩
      · cases n with
        | zero => simp
        | succ n =>
          -- the first subkey is not met again
          have hne : pc ∉ pcs := (List.nodup_cons.mp (hnamed ▸ nodup_named (splitDots key) f)).1
          simp only [List.getElem?_cons_zero, List.getElem?_cons_succ, reduceCtorEq, or_self,
            iff_false, Nat.add_one_ne_zero]
          exact fun heq => hne (List.mem_of_getElem? heq.symm)
      · have hstops := h.stops
        simp at hstops
  · have hget : ∀ n, getSubkeyNth n (splitDots key) f = (named (splitDots key) f)[n]? := by
      intro n
      rw [splitDots_undotted hdot, getSubkeyNth_undotted]
    have hstops : getSubkeyNth (named (splitDots key) f).length (splitDots key) f = none := by
      rw [hget]
      exact List.getElem?_eq_none (Nat.le_refl _)
    exact ⟨fun n => iff_of_true (hget n) (.inr (.inl hdot)), iff_of_true ⟨_, hstops⟩ (.inl hdot),
      iff_of_true ⟨fun n _ => hget n, hstops, nodup_named _ f⟩ (.inl hdot)⟩

/-- Two children of one key: behind a dot, the second is the first again. -/
theorem second_subkey_missed : ∃ f : Forest Item, f = .node ⟨['a'], none⟩
    (.node ⟨['b'], some ['1']⟩ .nil (.node ⟨['b'], some ['2']⟩ .nil .nil)) .nil ∧
    getSubkeyNth 1 (splitDots ['a', '.', 'b']) f ≠ (named (splitDots ['a', '.', 'b']) f)[1]? :=
  ⟨_, rfl, by decide⟩

end Libu.Config
