/-
# What a line leaves alone (`toolbox/config.c`)

A line of a configuration gives a value to the node with its key, and adds the nodes that are
missing on the way there.  Whatever the line is, it changes no key, and the only values it changes
are those of first children (`Tends`): a key that is not found first is out of its reach.

* §1: the child and the node that a line finds or makes (`ChildOf`, `NodeOf`).
* §2: what is set there, when the variables may stand for anything (`Stands`, `Closed`), and what is
  never changed (`tends_doSetKey`).
* §3: what is so of every node, and stays so (`All`, `Keeps`): that an `include` has a value
  (`Quiet.keeps`), and that there is none (`keeps_foreign`).
-/
import Libu.Config.Include
import Libu.Config.Expand
import Libu.Config.Update

namespace Libu.Config

open Verif

variable {c c' c₁ : Config} {p q r : Path} {i j : Nat} {key value : List Char}
  {keys : List (List Char)} {overwrite : Bool}

/-! ## 1. Nodes -/

theorem items_getElem? (c : Config) (p : Path) (i : Nat) :
    (c.items p)[i]? = c.children.label (p ++ [i]) := by
  rw [Forest.label_append_path, items]
  cases c.children.inside p with
  | none => rfl
  | some cs => exact Forest.heads_getElem? cs i

/-- No child in front of the `i`-th one of the node at `p` has the key. -/
def FirstAt (c : Config) (p : Path) (i : Nat) (key : List Char) : Prop :=
  ∀ j < i, ∀ item, c.children.label (p ++ [j]) = some item → item.key ≠ key

/-- **What is never changed**: the keys, and the values of all children but the first one of each
key. -/
structure Tends (c c' : Config) : Prop where
  key : ∀ r item, c.children.label r = some item →
    ∃ item', c'.children.label r = some item' ∧ item'.key = item.key
  value : ∀ p i item, c.children.label (p ++ [i]) = some item → ¬ FirstAt c p i item.key →
    c'.children.label (p ++ [i]) = some item

theorem Tends.refl (c : Config) : Tends c c := ⟨fun _ item h => ⟨item, h, rfl⟩, fun _ _ _ h _ => h⟩

theorem Tends.first (h : Tends c c') (hfirst : FirstAt c' p i key) : FirstAt c p i key := by
  intro j hj item hitem
  obtain ⟨item', hitem', hkey⟩ := h.key _ item hitem
  exact hkey ▸ hfirst j hj item' hitem'

theorem Tends.trans (h : Tends c c₁) (h' : Tends c₁ c') : Tends c c' := by
  refine ⟨fun r item hr => ?_, fun p i item hr hnot => ?_⟩
  · obtain ⟨item₁, hr₁, hkey₁⟩ := h.key r item hr
    obtain ⟨item', hr', hkey'⟩ := h'.key r item₁ hr₁
    exact ⟨item', hr', hkey'.trans hkey₁⟩
  · exact h'.value p i item (h.value p i item hr hnot) fun hfirst => hnot (h.first hfirst)

/-- The child that a line finds or makes: the first one with the key, or a new one. -/
structure ChildOf (c : Config) (p : Path) (key : List Char) (c₁ : Config) (i : Nat) : Prop where
  kept : ∀ r item, c.children.label r = some item → c₁.children.label r = some item
  added : ∀ r item, c₁.children.label r = some item → c.children.label r = some item ∨
    r = p ++ [i] ∧ c.children.label r = none ∧ item = ⟨key, none⟩
  first : ∀ item, c.children.label (p ++ [i]) = some item → item.key = key ∧ FirstAt c p i key

theorem firstAt_of_getChildN {cs : Forest Item} (h : getChildN (some key) 0 cs = some i) :
    ∃ item, cs.label [i] = some item ∧ item.key = key ∧
      ∀ j < i, ∀ item, cs.label [j] = some item → item.key ≠ key := by
  induction cs generalizing i with
  | nil => cases h
  | node item children items _ ih =>
    rw [getChildN] at h
    by_cases hkey : key = item.key
    · rw [if_pos (.inr (congrArg some hkey))] at h
      obtain rfl := Option.some.inj h
      exact ⟨item, rfl, hkey.symm, fun j hj => absurd hj (Nat.not_lt_zero j)⟩
    · rw [if_neg (by simp [hkey])] at h
      obtain ⟨i', hi', rfl⟩ := Option.map_eq_some_iff.mp h
      obtain ⟨item', hlabel, hkey', hfirst⟩ := ih hi'
      refine ⟨item', hlabel, hkey', fun j hj x hx => ?_⟩
      cases j with
      | zero =>
        obtain rfl : item = x := Option.some.inj hx
        exact Ne.symm hkey
      | succ j => exact hfirst j (Nat.lt_of_succ_lt_succ hj) x hx

theorem childOf_childFor (c : Config) (p : Path) (key : List Char) (overwrite : Bool) :
    ChildOf c p key (c.childFor p key overwrite).1 (c.childFor p key overwrite).2 ∧
      (overwrite = false →
        c.children.label (p ++ [(c.childFor p key overwrite).2]) = none) := by
  have hadd : ChildOf c p key (c.addChild p key).1 (c.addChild p key).2 ∧
      c.children.label (p ++ [(c.addChild p key).2]) = none := by
    cases hp : c.children.inside p with
    | none =>
      have hsame : (c.addChild p key).1 = c := by
        rw [addChild, Forest.alter_of_none hp]
      have hnone : ∀ i, c.children.label (p ++ [i]) = none := fun i => by
        rw [Forest.label_append_path, hp, Option.bind_none]
      refine ⟨⟨fun r item hr => by rw [hsame]; exact hr, fun r item hr => .inl (hsame ▸ hr),
        fun item hitem => ?_⟩, hnone _⟩
      rw [hnone] at hitem
      cases hitem
    | some cs =>
      have hlabel : ∀ r, (c.addChild p key).1.children.label r =
          if r = p ++ [cs.length] then some ⟨key, none⟩ else c.children.label r :=
        fun r => Forest.label_add hp
      have hidx : (c.addChild p key).2 = cs.length := by rw [addChild, hp, Option.getD_some]
      have hnone : c.children.label (p ++ [cs.length]) = none := by
        rw [Forest.label_append_path, hp, Option.bind_some, Forest.label_length]
      rw [hidx]
      refine ⟨⟨fun r item hr => ?_, fun r item hr => ?_, fun item hitem => ?_⟩, hnone⟩
      · have hne : r ≠ p ++ [cs.length] := by
          rintro rfl
          rw [hnone] at hr
          cases hr
        rw [hlabel, if_neg hne]
        exact hr
      · rw [hlabel] at hr
        split at hr
        · next heq => exact .inr ⟨heq, heq ▸ hnone, (Option.some.inj hr).symm⟩
        · exact .inl hr
      · rw [hnone] at hitem
        cases hitem
  cases overwrite with
  | false => exact ⟨hadd.1, fun _ => hadd.2⟩
  | true =>
    refine ⟨?_, fun h => (by cases h)⟩
    rw [childFor, if_pos rfl]
    cases hget : getChildN (some key) 0 ((c.children.inside p).getD .nil) with
    | none => exact hadd.1
    | some i =>
      cases hp : c.children.inside p with
      | none =>
        rw [hp] at hget
        cases hget
      | some cs =>
        rw [hp, Option.getD_some] at hget
        obtain ⟨item, hitem, hkey, hfirst⟩ := firstAt_of_getChildN hget
        have hlabel : ∀ j, c.children.label (p ++ [j]) = cs.label [j] := fun j => by
          rw [Forest.label_append_path, hp, Option.bind_some]
        refine ⟨fun _ _ h => h, fun _ _ h => .inl h, fun x hx => ?_⟩
        rw [hlabel, hitem] at hx
        obtain rfl := Option.some.inj hx
        refine ⟨hkey, fun j hj x hx => hfirst j hj x ?_⟩
        rwa [hlabel] at hx

/-- The node that a line sets: the first child with its key, or a new one; the nodes that are added
on the way have no values. -/
structure NodeOf (c : Config) (keys : List (List Char)) (c₁ : Config) (q : Path) : Prop where
  kept : ∀ r item, c.children.label r = some item → c₁.children.label r = some item
  added : ∀ r item, c₁.children.label r = some item → c.children.label r = some item ∨
    r = q ∨ item.key ∈ keys.dropLast
  first : ∀ item, c.children.label q = some item →
    ∃ p i, q = p ++ [i] ∧ FirstAt c p i item.key
  key : ∀ item, c₁.children.label q = some item → keys.getLast? = some item.key

theorem nodeOf_keyNode (hkeys : keys ≠ []) (c : Config) (p : Path) (overwrite : Bool) :
    NodeOf c keys (keyNode overwrite keys c p).1 (keyNode overwrite keys c p).2 := by
  induction keys generalizing c p with
  | nil => exact absurd rfl hkeys
  | cons k ks ih =>
    cases ks with
    | nil =>
      obtain ⟨hkept, hadded, hfirst⟩ := (childOf_childFor c p k overwrite).1
      refine ⟨hkept, fun r item hr => (hadded r item hr).imp_right fun h => .inl h.1,
        fun item hitem => ⟨p, _, rfl, (hfirst item hitem).1 ▸ (hfirst item hitem).2⟩,
        fun item hitem => ?_⟩
      rcases hadded _ item hitem with hold | ⟨-, -, rfl⟩
      · exact congrArg some (hfirst item hold).1.symm
      · rfl
    | cons k' ks =>
      obtain ⟨hkept, hadded, hfirst⟩ := (childOf_childFor c p k true).1
      obtain ⟨hkept', hadded', hfirst', hkey'⟩ := ih (by simp) (c.childFor p k true).1
        (p ++ [(c.childFor p k true).2])
      refine ⟨fun r item hr => hkept' r item (hkept r item hr), fun r item hr => ?_,
        fun item hitem => ?_, hkey'⟩
      · rcases hadded' r item hr with hold | hq | hmem
        · rcases hadded r item hold with hold | ⟨-, -, rfl⟩
          · exact .inl hold
          · exact .inr (.inr List.mem_cons_self)
        · exact .inr (.inl hq)
        · exact .inr (.inr (List.mem_cons_of_mem k hmem))
      · obtain ⟨p', i', hq, hat⟩ := hfirst' item (hkept _ item hitem)
        exact ⟨p', i', hq, fun j hj x hx => hat j hj x (hkept _ x hx)⟩

/-! ## 2. Values -/

/-- What a value stands for, whatever its variables do. -/
def Stands (value path : List Char) : Prop :=
  ∃ names s, Expansion names value (some s) ∧ path = trim s

/-- Every `${` of the value is closed. -/
def Closed (value : List Char) : Prop := ¬ Expansion (fun _ => []) value none

/-- What the variables stand for does not matter to the brackets. -/
theorem Expansion.closed {names : List Char → List Char} {o : Option (List Char)}
    (h : Expansion names value o) (names' : List Char → List Char) :
    ∃ o', Expansion names' value o' ∧ (o' = none ↔ o = none) := by
  induction h with
  | @plain s hs => exact ⟨some s, .plain hs, by simp⟩
  | @reference pre name rest o hpre hname _ ih =>
    obtain ⟨o', ho', hiff⟩ := ih
    exact ⟨_, .reference hpre hname ho',
      by rw [Option.map_eq_none_iff, Option.map_eq_none_iff, hiff]⟩
  | unclosed hpre hrest => exact ⟨none, .unclosed hpre hrest, Iff.rfl⟩

/-- A value without variables stands for itself. -/
theorem Stands.eq_trim {path : List Char} (h : Stands value path)
    (hplain : ¬ ['$', '{'] <:+: value) : path = trim value := by
  obtain ⟨names, s, hs, rfl⟩ := h
  rw [Option.some.inj (hs.unique (.plain hplain))]

/-- What is set at the node `q`: a value that the text stands for, or none if the text cannot be
expanded. -/
theorem setValue_labels (hq : q ≠ []) (value : List Char) :
    ∃ v, (∀ r, (c.setValue q (some value)).2.children.label r =
        if r = q then (c.children.label q).map fun item => { item with value := v }
        else c.children.label r) ∧
      (v = none → ¬ Closed value) ∧ (∀ path, v = some path → Stands value path) ∧
      ((c.setValue q (some value)).1 = .ok → v ≠ none) := by
  obtain ⟨p, i, rfl⟩ : ∃ p i, q = p ++ [i] :=
    ⟨q.dropLast, q.getLast hq, (List.dropLast_append_getLast hq).symm⟩
  have hput : ∀ v r, (c.putValue (p ++ [i]) v).children.label r =
      if r = p ++ [i] then (c.children.label (p ++ [i])).map fun item => { item with value := v }
      else c.children.label r := by
    intro v r
    rw [putValue, if_neg hq]
    exact Forest.label_relabel hq _ r _
  obtain ⟨⟨o, ho, -⟩, hok, hfail⟩ := setValue_expansion c p i value
  rw [← setValue_eq_loop] at hfail
  cases o with
  | none =>
    have hret := hfail.mpr ho
    refine ⟨none, ?_, fun _ hclosed => ?_, fun path h => (by cases h), fun h => absurd h hret⟩
    · rw [setValue_failed hret]
      exact hput none
    · obtain ⟨o', ho', hiff⟩ := ho.closed fun _ => []
      obtain rfl := hiff.mpr rfl
      exact hclosed ho'
  | some s =>
    refine ⟨some (trim s), ?_, fun h => (by cases h), ?_, fun _ h => by cases h⟩
    · rw [setValue_eq_loop, hok s ho]
      exact hput (some (trim s))
    · rintro _ ⟨⟩
      exact ⟨_, s, ho, rfl⟩

/-- **What setting a key does**: it gives a value to the node that it finds or makes. -/
theorem doSetKey_labels (hkeys : keys ≠ []) (value : List Char) (c : Config) (p : Path)
    (overwrite : Bool) :
    ∃ c₁ v, NodeOf c keys c₁ (doSetKey (some value) overwrite keys c p).2.2 ∧
      (∀ r, (doSetKey (some value) overwrite keys c p).2.1.children.label r =
        if r = (doSetKey (some value) overwrite keys c p).2.2 then
          (c₁.children.label r).map fun item => { item with value := v }
        else c₁.children.label r) ∧
      (v = none → ¬ Closed value) ∧ (∀ path, v = some path → Stands value path) ∧
      ((doSetKey (some value) overwrite keys c p).1 = .ok → v ≠ none) := by
  rw [doSetKey_keyNode hkeys]
  have hnode : (keyNode overwrite keys c p).2 ≠ [] := keyNode_ne_nil hkeys
  obtain ⟨v, hlabel, hv⟩ := setValue_labels (c := (keyNode overwrite keys c p).1) hnode value
  refine ⟨_, v, nodeOf_keyNode hkeys c p overwrite, fun r => ?_, hv⟩
  rw [hlabel]
  split
  · next heq => rw [heq]
  · rfl

theorem tends_doSetKey (hkeys : keys ≠ []) (value : List Char) (c : Config) (p : Path)
    (overwrite : Bool) : Tends c (doSetKey (some value) overwrite keys c p).2.1 := by
  obtain ⟨c₁, v, ⟨hkept, -, hfirst, -⟩, hlabel, -⟩ := doSetKey_labels hkeys value c p overwrite
  refine ⟨fun r item hr => ?_, fun p' i item hr hnot => ?_⟩
  · rw [hlabel, hkept r item hr]
    split
    · exact ⟨_, rfl, rfl⟩
    · exact ⟨item, rfl, rfl⟩
  · rw [hlabel, hkept _ item hr]
    split
    · next heq =>
      obtain ⟨p₁, i₁, hq, hat⟩ := hfirst item (heq ▸ hr)
      obtain ⟨rfl, hi⟩ := List.append_inj' (heq.trans hq) rfl
      obtain rfl := (List.cons.inj hi).1
      exact absurd hat hnot
    · rfl

theorem Tends.set {ret : Ret} {child : Path} (h : Tends c c₁)
    (hset : doSetKey (some value) overwrite (splitDots key) c₁ p = (ret, c', child)) :
    Tends c c' := by
  have hthen := tends_doSetKey (splitDots_ne_nil key) value c₁ p overwrite
  rw [hset] at hthen
  exact h.trans hthen

theorem tends_childFor (h : c.childFor p key overwrite = (c', i)) : Tends c c' := by
  obtain ⟨⟨hkept, -, -⟩, -⟩ := childOf_childFor c p key overwrite
  rw [h] at hkept
  exact ⟨fun r item hr => ⟨item, hkept r item hr, rfl⟩, fun p i item hr _ => hkept _ item hr⟩

/-! ## 3. What every line keeps -/

/-- Every node of the tree is as `Q` says. -/
def All (Q : Item → Prop) (c : Config) : Prop := ∀ r item, c.children.label r = some item → Q item

/-- Setting the key, wherever it is, leaves every node as `Q` says. -/
def Keeps (Q : Item → Prop) (key value : List Char) : Prop :=
  ∀ c p overwrite, All Q c → All Q (doSetKey (some value) overwrite (splitDots key) c p).2.1

section All

variable {Q : Item → Prop}

theorem All.set {ret : Ret} {child : Path} (h : All Q c) (hkeeps : Keeps Q key value)
    (hset : doSetKey (some value) overwrite (splitDots key) c p = (ret, c', child)) :
    All Q c' := by
  have hthen := hkeeps c p overwrite h
  rwa [hset] at hthen

theorem All.child (h : All Q c) (hnew : Q ⟨key, none⟩)
    (hfor : c.childFor p key overwrite = (c', i)) : All Q c' := by
  obtain ⟨⟨-, hadded, -⟩, -⟩ := childOf_childFor c p key overwrite
  rw [hfor] at hadded
  intro r item hr
  rcases hadded r item hr with hold | ⟨-, -, rfl⟩
  · exact h r item hold
  · exact hnew

end All

/-- An `include` has a value. -/
def Valued (item : Item) : Prop := item.key = includeKey → item.value ≠ none

/-- A line that leaves no `include` without a value: `include` is no piece of its key but the last,
and then the value can be expanded. -/
def Quiet (key value : List Char) : Prop :=
  includeKey ∉ (splitDots key).dropLast ∧
    ((splitDots key).getLast? = some includeKey → Closed value)

theorem Quiet.keeps (hquiet : Quiet key value) : Keeps Valued key value := by
  intro c p overwrite h
  obtain ⟨c₁, v, ⟨-, hadded, -, hlast⟩, hlabel, hnone, -⟩ :=
    doSetKey_labels (splitDots_ne_nil key) value c p overwrite
  intro r item hr hkey
  rw [hlabel] at hr
  split at hr
  · next heq =>
    obtain ⟨item₁, hitem₁, rfl⟩ := Option.map_eq_some_iff.mp hr
    intro hv
    refine hnone hv (hquiet.2 ?_)
    rw [hlast item₁ (heq ▸ hitem₁)]
    exact congrArg some hkey
  · next hne =>
    rcases hadded r item hr with hold | heq | hmem
    · exact h r item hold hkey
    · exact absurd heq hne
    · exact absurd (hkey ▸ hmem) hquiet.1

/-- The node is no `include`. -/
def Foreign (item : Item) : Prop := item.key ≠ includeKey

theorem keeps_foreign (hkey : includeKey ∉ splitDots key) : Keeps Foreign key value := by
  intro c p overwrite h
  obtain ⟨c₁, v, ⟨-, hadded, -, hlast⟩, hlabel, -⟩ :=
    doSetKey_labels (splitDots_ne_nil key) value c p overwrite
  intro r item hr hitem
  rw [hlabel] at hr
  split at hr
  · next heq =>
    obtain ⟨item₁, hitem₁, rfl⟩ := Option.map_eq_some_iff.mp hr
    exact hkey (hitem ▸ List.mem_of_getLast? (hlast item₁ (heq ▸ hitem₁)))
  · next hne =>
    rcases hadded r item hr with hold | heq | hmem
    · exact h r item hold hitem
    · exact absurd heq hne
    · exact hkey (hitem ▸ List.dropLast_subset _ hmem)

end Libu.Config
