/-
# Forests by first child and next sibling

A tree whose nodes are linked by a pointer to the first child and a pointer to the next sibling is
traversed through these two pointers: a routine is called with a node, or with NULL, and calls
itself on both links.  `Forest` is what such a pointer reaches.  A tree is a forest of one node.

A pointer into a forest is what it reaches and the links that lead back from there (`plug`).  A
routine that goes up as well as down, such as an iterator with links to parents, is then a function
on such a place, and what it still has to visit is `after` (`levels_plug`).

A node is also named by a path from the root.  A program that changes a tree through a path changes
it in one place, and the lemmas on `alter` and `relabel` say that all other paths lead to what they
led to before.

* Walks: the nodes in the order of a depth-first walk, each with its depth.
* Places in a forest: what is before and behind a place.
* Paths: the node under a path, and the forest with other children or another node there.
* Nodes with their children: a property of every node that speaks of its children as well.
-/
import Mathlib.Data.List.Basic

namespace Verif

/-- What a node pointer reaches: nothing, or a node, its children and its next siblings. -/
inductive Forest (α : Type*) where
  | nil
  | node (a : α) (children siblings : Forest α)
  deriving DecidableEq

namespace Forest

variable {α β γ : Type*}

/-- The siblings of `f`, then those of `g`. -/
def append : Forest α → Forest α → Forest α
  | .nil, g => g
  | .node a c s, g => .node a c (append s g)

/-- The number of siblings. -/
def length : Forest α → Nat
  | .nil => 0
  | .node _ _ s => s.length + 1

/-- Another label for every node. -/
def map (h : α → β) : Forest α → Forest β
  | .nil => .nil
  | .node a c s => .node (h a) (c.map h) (s.map h)

/-- Every node satisfies `p` at its depth, that of the siblings of `f` being `d`. -/
def AllAt (p : Nat → α → Prop) : Nat → Forest α → Prop
  | _, .nil => True
  | d, .node a c s => p d a ∧ AllAt p (d + 1) c ∧ AllAt p d s

@[simp] theorem nil_append (g : Forest α) : append nil g = g := rfl

@[simp] theorem node_append (a : α) (c s g : Forest α) :
    append (node a c s) g = node a c (s.append g) := rfl

@[simp] theorem append_nil : ∀ f : Forest α, f.append nil = f
  | .nil => rfl
  | .node a c s => by rw [node_append, append_nil s]

/-- The siblings of three forests in a row. -/
theorem append_assoc : ∀ f g h : Forest α, (f.append g).append h = f.append (g.append h)
  | .nil, _, _ => rfl
  | .node a c s, g, h => by simp only [node_append, append_assoc s g h]

@[simp] theorem map_nil (h : α → β) : map h nil = nil := rfl

@[simp] theorem map_node (h : α → β) (a : α) (c s : Forest α) :
    map h (node a c s) = node (h a) (c.map h) (s.map h) := rfl

@[simp] theorem map_append (h : α → β) : ∀ f g : Forest α,
    (f.append g).map h = (f.map h).append (g.map h)
  | .nil, _ => rfl
  | .node a c s, g => by simp only [node_append, map_node, map_append h s g]

/-- No labels, no nodes. -/
theorem map_eq_nil {h : α → β} {f : Forest α} : f.map h = nil ↔ f = nil := by
  cases f <;> simp

@[simp] theorem allAt_nil (p : Nat → α → Prop) (d : Nat) : AllAt p d nil := trivial

@[simp] theorem allAt_node {p : Nat → α → Prop} {d : Nat} {a : α} {c s : Forest α} :
    AllAt p d (node a c s) ↔ p d a ∧ AllAt p (d + 1) c ∧ AllAt p d s := Iff.rfl

@[simp] theorem allAt_append {p : Nat → α → Prop} {d : Nat} : ∀ {f g : Forest α},
    AllAt p d (f.append g) ↔ AllAt p d f ∧ AllAt p d g
  | .nil, _ => by simp
  | .node a c s, g => by simp [@allAt_append p d s g, and_assoc]

/-- A weaker property of the nodes. -/
theorem AllAt.imp {p q : Nat → α → Prop} (h : ∀ d a, p d a → q d a) :
    ∀ {f : Forest α} {d : Nat}, AllAt p d f → AllAt q d f
  | .nil, _, _ => trivial
  | .node _ _ _, _, ⟨ha, hc, hs⟩ => ⟨h _ _ ha, hc.imp h, hs.imp h⟩

/-- Two properties of the nodes, which speak of the depth too. -/
theorem allAt_and {p q : Nat → α → Prop} : ∀ {f : Forest α} {d : Nat},
    AllAt (fun d a => p d a ∧ q d a) d f ↔ AllAt p d f ∧ AllAt q d f
  | .nil, _ => by simp
  | .node a c s, d => by
    rw [allAt_node, allAt_node, allAt_node, @allAt_and p q c, @allAt_and p q s]
    exact (and_congr_right fun _ => and_and_and_comm).trans and_and_and_comm

instance {p : Nat → α → Prop} [∀ d a, Decidable (p d a)] : ∀ d f, Decidable (AllAt p d f)
  | _, .nil => .isTrue trivial
  | d, .node a c s =>
    have := @instDecidableAllAt p _ (d + 1) c
    have := @instDecidableAllAt p _ d s
    inferInstanceAs (Decidable (p d a ∧ AllAt p (d + 1) c ∧ AllAt p d s))

/-! ## Walks -/

/-- The nodes, each before its children and these before its siblings. -/
def toList : Forest α → List α
  | .nil => []
  | .node a c s => a :: (c.toList ++ s.toList)

@[simp] theorem toList_nil : toList (nil : Forest α) = [] := rfl

@[simp] theorem toList_node (a : α) (c s : Forest α) :
    toList (node a c s) = a :: (c.toList ++ s.toList) := rfl

@[simp] theorem toList_map (h : α → β) : ∀ f : Forest α, (f.map h).toList = f.toList.map h
  | .nil => rfl
  | .node a c s => by
    rw [map_node, toList_node, toList_node, toList_map h c, toList_map h s,
      List.map_cons, List.map_append]

/-- The siblings, each with its children. -/
def heads : Forest α → List (α × Forest α)
  | .nil => []
  | .node a c s => (a, c) :: heads s

/-- A sibling is a node of the forest. -/
theorem mem_heads {f : Forest α} {m : α × Forest α} (h : m ∈ f.heads) : m.1 ∈ f.toList := by
  induction f with
  | nil => cases h
  | node a c s _ ihs =>
    rw [toList_node, List.mem_cons, List.mem_append]
    rcases List.mem_cons.mp h with rfl | h
    · exact .inl rfl
    · exact .inr (.inr (ihs h))

/-- A forest without nodes is empty. -/
theorem toList_eq_nil {f : Forest α} : f.toList = [] ↔ f = .nil := by
  cases f <;> simp

/-- The nodes with their depths, that of the siblings of `f` being `d`, in the order of `toList`. -/
def levels : Nat → Forest α → List (α × Nat)
  | _, .nil => []
  | d, .node a c s => (a, d) :: (levels (d + 1) c ++ levels d s)

/-- A walk meets the nodes in their order, whatever depth it starts at. -/
theorem levels_fst : ∀ (d : Nat) (f : Forest α), (levels d f).map Prod.fst = f.toList
  | _, .nil => rfl
  | d, .node a c s => by
    rw [levels, toList_node, List.map_cons, List.map_append, levels_fst (d + 1) c, levels_fst d s]

end Forest

/-! ## Places in a forest -/

/-- One link back: to the sibling before, or to the parent of a first child. -/
inductive Crumb (α : Type*) where
  | sibling (a : α) (children : Forest α)
  | parent (a : α) (siblings : Forest α)

/-- The links with other nodes. -/
def Crumb.map {α β : Type*} (h : α → β) : Crumb α → Crumb β
  | .sibling a c => .sibling (h a) (c.map h)
  | .parent a s => .parent (h a) (s.map h)

namespace Forest

variable {α β : Type*}

/-- The forest in which the links `z` lead back from `f`. -/
def plug : List (Crumb α) → Forest α → Forest α
  | [], f => f
  | .sibling a c :: z, f => plug z (.node a c f)
  | .parent a s :: z, f => plug z (.node a f s)

/-- How many ancestors there are. -/
def height : List (Crumb α) → Nat
  | [] => 0
  | .sibling _ _ :: z => height z
  | .parent _ _ :: z => height z + 1

/-- What a walk meets before it gets to the place. -/
def before : List (Crumb α) → List (α × Nat)
  | [] => []
  | .sibling a c :: z => before z ++ (a, height z) :: levels (height z + 1) c
  | .parent a _ :: z => before z ++ [(a, height z)]

/-- What a walk meets after it has left the place. -/
def after : List (Crumb α) → List (α × Nat)
  | [] => []
  | .sibling _ _ :: z => after z
  | .parent _ s :: z => levels (height z) s ++ after z

/-- Relabelling the whole forest relabels what is at the place and the links around it. -/
theorem plug_map (h : α → β) (z : List (Crumb α)) (f : Forest α) :
    (plug z f).map h = plug (z.map (Crumb.map h)) (f.map h) := by
  induction z generalizing f with
  | nil => rfl
  | cons w z ih =>
    cases w with
    | sibling a c => exact ih (.node a c f)
    | parent a s => exact ih (.node a f s)

/-- **A walk goes through a place.**  It meets what is before, then what the place reaches, and then
what is after. -/
theorem levels_plug (z : List (Crumb α)) (f : Forest α) :
    levels 0 (plug z f) = before z ++ levels (height z) f ++ after z := by
  induction z generalizing f with
  | nil => simp only [plug, before, height, after, List.nil_append, List.append_nil]
  | cons w z ih =>
    cases w with
    | sibling a c =>
      simp only [plug, before, height, after, ih, levels, List.append_assoc, List.cons_append]
    | parent a s =>
      simp only [plug, before, height, after, ih, levels, List.append_assoc,
        List.cons_append, List.nil_append]

/-- What a place reaches is in the forest. -/
theorem mem_plug {z : List (Crumb α)} {f : Forest α} {a : α} (h : a ∈ f.toList) :
    a ∈ (plug z f).toList := by
  rw [← levels_fst 0, levels_plug, List.map_append, List.map_append, levels_fst]
  exact List.mem_append_left _ (List.mem_append_right _ h)

/-- Where no node occurs twice, the nodes outside the siblings at a place are those on both
sides. -/
theorem outside_plug [DecidableEq α] {z : List (Crumb α)} {f : Forest α}
    (hnodup : (plug z f).toList.Nodup) :
    (levels 0 (plug z f)).filter (fun x => x.1 ∉ f.toList) = before z ++ after z ∧
      (before z ++ after z).filter (fun x => x.1 ∉ f.toList) = before z ++ after z := by
  rw [← levels_fst 0, levels_plug, List.map_append, List.map_append, levels_fst] at hnodup
  have hleft := List.nodup_append.mp (List.nodup_append.mp hnodup).1
  have hright := (List.nodup_append.mp hnodup).2.2
  have hbefore : ∀ x ∈ before z, x.1 ∉ f.toList := fun x hx hf =>
    hleft.2.2 _ (List.mem_map_of_mem hx) _ hf rfl
  have hafter : ∀ x ∈ after z, x.1 ∉ f.toList := fun x hx hf =>
    hright _ (List.mem_append_right _ hf) _ (List.mem_map_of_mem hx) rfl
  have hrest : (before z ++ after z).filter (fun x => x.1 ∉ f.toList) = before z ++ after z := by
    rw [List.filter_eq_self]
    intro x hx
    exact decide_eq_true ((List.mem_append.mp hx).elim (hbefore x) (hafter x))
  have hinside : (levels (height z) f).filter (fun x => x.1 ∉ f.toList) = [] := by
    rw [List.filter_eq_nil_iff]
    intro x hx
    have hmem : x.1 ∈ f.toList := by
      rw [← levels_fst (height z) f]
      exact List.mem_map_of_mem hx
    simpa using hmem
  refine ⟨?_, hrest⟩
  rw [levels_plug, List.filter_append, List.filter_append, hinside, List.append_nil,
    ← List.filter_append, hrest]

end Forest

/-! ## Paths

A node is also found from the root: a path counts the siblings to skip, level by level. -/

namespace Forest

variable {α : Type*}

/-- The children of the node at the end of the path, where those of the root are `f`. -/
def inside : List Nat → Forest α → Option (Forest α)
  | [], f => some f
  | _ :: _, .nil => none
  | 0 :: p, .node _ c _ => inside p c
  | (i + 1) :: p, .node _ _ s => inside (i :: p) s

/-- The node itself. -/
def label : List Nat → Forest α → Option α
  | [], _ => none
  | _ :: _, .nil => none
  | [0], .node a _ _ => some a
  | 0 :: i :: p, .node _ c _ => label (i :: p) c
  | (i + 1) :: p, .node _ _ s => label (i :: p) s

/-- Other children for the node. -/
def alter (h : Forest α → Forest α) : List Nat → Forest α → Forest α
  | [], f => h f
  | _ :: _, .nil => .nil
  | 0 :: p, .node a c s => .node a (alter h p c) s
  | (i + 1) :: p, .node a c s => .node a c (alter h (i :: p) s)

/-- Another node in its place, with the same children. -/
def relabel (u : α → α) : List Nat → Forest α → Forest α
  | [], f => f
  | _ :: _, .nil => .nil
  | [0], .node a c s => .node (u a) c s
  | 0 :: i :: p, .node a c s => .node a (relabel u (i :: p) c) s
  | (i + 1) :: p, .node a c s => .node a c (relabel u (i :: p) s)

section Path

variable {f : Forest α} {h h' : Forest α → Forest α} {u : α → α} {p q r : List Nat} {a : α}
  {c s : Forest α}

@[simp] theorem inside_root (f : Forest α) : inside [] f = some f := by
  cases f <;> rfl

@[simp] theorem alter_root (h : Forest α → Forest α) (f : Forest α) : alter h [] f = h f := by
  cases f <;> rfl

/-- The children of a node that is found in two steps. -/
theorem inside_append_path (p q : List Nat) (f : Forest α) :
    inside (p ++ q) f = (inside p f).bind (inside q) := by
  induction f generalizing p with
  | nil => cases p <;> simp [inside]
  | node a c s ihc ihs =>
    match p with
    | [] => simp
    | 0 :: p => exact ihc p
    | (i + 1) :: p => exact ihs (i :: p)

/-- A change of children below a node is a change of its children. -/
theorem alter_append_path (h : Forest α → Forest α) (p q : List Nat) (f : Forest α) :
    alter h (p ++ q) f = alter (alter h q) p f := by
  induction f generalizing p with
  | nil => cases p <;> simp [alter]
  | node a c s ihc ihs =>
    match p with
    | [] => simp
    | 0 :: p => simp only [List.cons_append, alter, ihc p]
    | (i + 1) :: p => exact congrArg (Forest.node a c) (ihs (i :: p))

/-- Another label for a node below is a change of the children on the way to it. -/
theorem relabel_append_path (u : α → α) (p : List Nat) (i : Nat) (q : List Nat) (f : Forest α) :
    relabel u (p ++ i :: q) f = alter (relabel u (i :: q)) p f := by
  induction f generalizing p with
  | nil => cases p <;> simp [alter, relabel]
  | node a c s ihc ihs =>
    match p with
    | [] => simp
    | [0] => simp only [List.cons_append, List.nil_append, alter, relabel, alter_root]
    | 0 :: j :: p =>
      exact congrArg (fun c => Forest.node a c s) (ihc (j :: p))
    | (j + 1) :: p => exact congrArg (Forest.node a c) (ihs (j :: p))

/-- Two changes to the children of one node. -/
theorem alter_alter (h h' : Forest α → Forest α) (p : List Nat) (f : Forest α) :
    alter h p (alter h' p f) = alter (fun c => h (h' c)) p f := by
  induction f generalizing p with
  | nil => cases p <;> simp [alter]
  | node a c s ihc ihs =>
    match p with
    | [] => simp
    | 0 :: p => simp only [alter, ihc p]
    | (i + 1) :: p => exact congrArg (Forest.node a c) (ihs (i :: p))

/-- Two new labels for one node, one after the other. -/
theorem relabel_relabel (u v : α → α) (p : List Nat) (f : Forest α) :
    relabel u p (relabel v p f) = relabel (fun a => u (v a)) p f := by
  induction f generalizing p with
  | nil => cases p <;> rfl
  | node a c s ihc ihs =>
    match p with
    | [] => rfl
    | [0] => rfl
    | 0 :: i :: p => exact congrArg (fun c => Forest.node a c s) (ihc (i :: p))
    | (i + 1) :: p => exact congrArg (Forest.node a c) (ihs (i :: p))

/-- A change is known by what it does to the children that are there. -/
theorem alter_congr (hc : inside p f = some c) (hh : h c = h' c) : alter h p f = alter h' p f := by
  induction f generalizing p with
  | nil =>
    cases p with
    | nil =>
      obtain rfl : Forest.nil = c := Option.some.inj hc
      exact hh
    | cons i p => rfl
  | node a d s ihc ihs =>
    match p with
    | [] =>
      obtain rfl : Forest.node a d s = c := Option.some.inj hc
      simpa using hh
    | 0 :: p => exact congrArg (fun d => Forest.node a d s) (ihc hc)
    | (i + 1) :: p => exact congrArg (Forest.node a d) (ihs (p := i :: p) hc)

/-- Putting back what is there changes nothing. -/
theorem alter_self (hc : inside p f = some c) : alter (fun _ => c) p f = f := by
  induction f generalizing p with
  | nil =>
    cases p with
    | nil =>
      obtain rfl : Forest.nil = c := Option.some.inj hc
      rfl
    | cons i p => rfl
  | node a d s ihc ihs =>
    match p with
    | [] =>
      obtain rfl : Forest.node a d s = c := Option.some.inj hc
      simp
    | 0 :: p => exact congrArg (fun d => Forest.node a d s) (ihc hc)
    | (i + 1) :: p => exact congrArg (Forest.node a d) (ihs (p := i :: p) hc)

/-- The children that were given are found. -/
theorem inside_alter (hc : inside p f = some c) : inside p (alter h p f) = some (h c) := by
  induction f generalizing p with
  | nil =>
    cases p with
    | nil =>
      obtain rfl : Forest.nil = c := Option.some.inj hc
      simp
    | cons i p => cases hc
  | node a d s ihc ihs =>
    match p with
    | [] =>
      obtain rfl : Forest.node a d s = c := Option.some.inj hc
      simp
    | 0 :: p => exact ihc hc
    | (i + 1) :: p => exact ihs (p := i :: p) hc

/-- The label below a child. -/
theorem label_cons (i j : Nat) (p : List Nat) (f : Forest α) :
    label (i :: j :: p) f = (inside [i] f).bind (label (j :: p)) := by
  induction f generalizing i with
  | nil => rfl
  | node a c s _ ihs =>
    cases i with
    | zero => simp [label, inside]
    | succ i => exact ihs i

/-- The label of a node that is found in two steps. -/
theorem label_append_path (p : List Nat) (j : Nat) (q : List Nat) (f : Forest α) :
    label (p ++ j :: q) f = (inside p f).bind (label (j :: q)) := by
  induction p generalizing f with
  | nil => rw [List.nil_append, inside_root, Option.bind_some]
  | cons i p ih =>
    have hinside : inside (i :: p) f = (inside [i] f).bind (inside p) := inside_append_path [i] p f
    rw [hinside]
    cases p with
    | nil =>
      rw [List.singleton_append, label_cons]
      cases inside [i] f with
      | none => rfl
      | some c => rw [Option.bind_some, Option.bind_some, inside_root, Option.bind_some]
    | cons k p =>
      rw [List.cons_append, List.cons_append, label_cons]
      cases inside [i] f with
      | none => rfl
      | some c => exact ih c

/-- The siblings, by their places. -/
theorem heads_getElem? (f : Forest α) (i : Nat) : (f.heads.map Prod.fst)[i]? = label [i] f := by
  induction f generalizing i with
  | nil => rfl
  | node a c s _ ihs =>
    cases i with
    | zero => rfl
    | succ i => exact ihs i

/-- Nothing is altered where there is no node. -/
theorem alter_of_none (hc : inside p f = none) : alter h p f = f := by
  induction f generalizing p with
  | nil =>
    cases p with
    | nil => cases hc
    | cons i p => rfl
  | node a c s ihc ihs =>
    match p with
    | [] => cases hc
    | 0 :: p => rw [alter, ihc hc]
    | (i + 1) :: p => rw [alter, ihs (p := i :: p) hc]

/-- There is nothing behind the last sibling. -/
theorem label_length (f : Forest α) : label [f.length] f = none := by
  induction f with
  | nil => rfl
  | node a c s _ ihs => exact ihs

/-! The sibling behind those of `f`. -/

theorem inside_behind (f : Forest α) (a : α) (c s : Forest α) (p : List Nat) :
    inside (f.length :: p) (f.append (.node a c s)) = inside p c := by
  induction f with
  | nil => rfl
  | node b d t _ iht => exact iht

theorem alter_behind (h : Forest α → Forest α) (f : Forest α) (a : α)
    (c s : Forest α) (p : List Nat) :
    alter h (f.length :: p) (f.append (.node a c s)) = f.append (.node a (alter h p c) s) := by
  induction f with
  | nil => rfl
  | node b d t _ iht => exact congrArg (Forest.node b d) iht

theorem relabel_behind (u : α → α) (f : Forest α) (a : α) (c s : Forest α) :
    relabel u [f.length] (f.append (.node a c s)) = f.append (.node (u a) c s) := by
  induction f with
  | nil => rfl
  | node b d t _ iht => exact congrArg (Forest.node b d) iht

/-! The labels behind a change. -/

@[simp] theorem label_nil (r : List Nat) : label r (nil : Forest α) = none := by
  rcases r with _ | ⟨_ | i, _ | ⟨j, r⟩⟩ <;> rfl

@[simp] theorem label_root (f : Forest α) : label [] f = none := by
  cases f <;> rfl

/-- A sibling that is added is found behind the others, and nothing else is changed. -/
theorem label_behind (f : Forest α) (a : α) (r : List Nat) :
    label r (f.append (.node a .nil .nil)) = if r = [f.length] then some a else label r f := by
  induction f generalizing r with
  | nil =>
    match r with
    | [] => simp
    | [0] => rfl
    | 0 :: j :: r => simp [label]
    | (i + 1) :: r => simp [label, length]
  | node b d t _ iht =>
    match r with
    | [] => simp
    | [0] => rfl
    | 0 :: j :: r => rfl
    | (i + 1) :: r =>
      rw [node_append, label, iht, length, label]
      simp

/-- The same at any node: its new last child is found behind the others, and all other paths lead to
what they led to before. -/
theorem label_add (hc : inside p f = some c) :
    label r (alter (·.append (.node a .nil .nil)) p f) = if r = p ++ [c.length] then some a
    else label r f := by
  induction f generalizing p r with
  | nil =>
    cases p with
    | nil =>
      obtain rfl : Forest.nil = c := Option.some.inj hc
      rw [alter_root]
      exact label_behind .nil a r
    | cons i p => cases hc
  | node b d s ihd ihs =>
    match p with
    | [] =>
      obtain rfl : Forest.node b d s = c := Option.some.inj hc
      rw [alter_root]
      exact label_behind _ a r
    | 0 :: p =>
      rw [alter]
      match r with
      | [] => simp
      | [0] => simp [label]
      | 0 :: j :: r => simp [label, ihd hc]
      | (i + 1) :: r => simp [label]
    | (k + 1) :: p =>
      rw [alter]
      match r with
      | [] => simp
      | [0] => simp [label]
      | 0 :: j :: r => simp [label]
      | (i + 1) :: r => simp [label, ihs (p := k :: p) hc]

/-- A new label is found in its place, and all other paths lead to what they led to before. -/
theorem label_relabel (hp : p ≠ []) (u : α → α) (r : List Nat) (f : Forest α) :
    label r (relabel u p f) = if r = p then (label p f).map u else label r f := by
  induction f generalizing p r with
  | nil =>
    obtain ⟨i, p, rfl⟩ := List.exists_cons_of_ne_nil hp
    cases r <;> simp [relabel, label]
  | node b d s ihd ihs =>
    match p with
    | [0] =>
      match r with
      | [] => simp
      | [0] => simp [label, relabel]
      | 0 :: j :: r => simp [label, relabel]
      | (i + 1) :: r => simp [label, relabel]
    | 0 :: k :: p =>
      match r with
      | [] => simp
      | [0] => simp [label, relabel]
      | 0 :: j :: r => simp [label, relabel, ihd]
      | (i + 1) :: r => simp [label, relabel]
    | (k + 1) :: p =>
      match r with
      | [] => simp
      | [0] => simp [label, relabel]
      | 0 :: j :: r => simp [label, relabel]
      | (i + 1) :: r => simp [label, relabel, ihs]

end Path

end Forest

/-! ## Nodes with their children -/

namespace Forest

variable {α : Type*}

/-- Every node satisfies `P` together with its children. -/
def Everywhere (P : α → Forest α → Prop) : Forest α → Prop
  | .nil => True
  | .node a c s => P a c ∧ Everywhere P c ∧ Everywhere P s

section Everywhere

variable {P Q : α → Forest α → Prop} {f g c s : Forest α} {a : α}

@[simp] theorem everywhere_nil : Everywhere P nil := trivial

@[simp] theorem everywhere_node : Everywhere P (node a c s) ↔ P a c ∧
    Everywhere P c ∧ Everywhere P s :=
  Iff.rfl

/-- Siblings in two parts. -/
theorem everywhere_append : Everywhere P (f.append g) ↔ Everywhere P f ∧ Everywhere P g := by
  induction f with
  | nil => simp
  | node a c s _ ihs => simp only [node_append, everywhere_node, ihs, and_assoc]

/-- A property of every node holds of the nodes that a place reaches. -/
theorem Everywhere.of_plug {z : List (Crumb α)} (h : Everywhere P (plug z f)) : Everywhere P f := by
  induction z generalizing f with
  | nil => exact h
  | cons w z ih =>
    cases w with
    | sibling a c => exact (ih h).2.2
    | parent a s => exact (ih h).2.1

theorem everywhere_of_plug {z : List (Crumb α)} (h : ∀ z' a c s, plug z' (node a c s) =
    plug z f → P a c) : Everywhere P f := by
  induction f generalizing z with
  | nil => trivial
  | node a c s ihc ihs =>
    exact ⟨h z a c s rfl, ihc (z := .parent a s :: z) h, ihs (z := .sibling a c :: z) h⟩

/-- **A node of a forest is one that some links lead back from.** -/
theorem everywhere_iff : Everywhere P f ↔ ∀ z a c s, plug z (node a c s) = f → P a c := by
  constructor
  · rintro h z a c s rfl
    exact (everywhere_node.mp h.of_plug).1
  · intro h
    exact everywhere_of_plug (z := []) h

@[simp] theorem length_heads (f : Forest α) : f.heads.length = f.length := by
  induction f with
  | nil => rfl
  | node a c s _ ihs => rw [heads, List.length_cons, ihs, length]

@[simp] theorem heads_append (f g : Forest α) : (f.append g).heads = f.heads ++ g.heads := by
  induction f with
  | nil => rfl
  | node a c s _ ihs => rw [node_append, heads, ihs, heads, List.cons_append]

@[simp] theorem length_append (f g : Forest α) : (f.append g).length = f.length + g.length := by
  induction f with
  | nil => exact (Nat.zero_add _).symm
  | node a c s _ ihs =>
    rw [node_append, length, length, ihs]
    omega

@[simp] theorem length_map {β : Type*} (h : α → β) (f : Forest α) :
    (f.map h).length = f.length := by
  induction f with
  | nil => rfl
  | node a c s _ ihs => rw [map_node, length, length, ihs]

end Everywhere

end Forest

end Verif
