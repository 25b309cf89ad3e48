/-
# References while a source is loaded (`toolbox/config.c`)

The loader sets the value of a node with `u_config_set_value` on every line that has one, and on an
include line a second time.  What it stores is the value with a text in the place of each reference,
and that text should be what the reference stands for, in the tree as it is at that moment.

The condition is one on a reference and the tree around it (`Clear`), and the theorem says of all
the references that a load comes to what `Libu.Config.Scope` says of one: a value is stored as the
scoping has it if and only if its references are clear.  Which values are come to is read off the
calls that the loader makes, whatever files and sections they are in; a load that does not end is
covered too.

* §1: a value is set as it should be when its references are clear (`setValue_scoped`).
* §2 is the values that loading comes to, whatever is loaded (`scoped_iff`).
-/
import Libu.Config.Expand

namespace Libu.Config

open Verif

/-! ## 1. A value -/

/-- Only what the references of the value stand for matters. -/
theorem expand_congr {f g : List Char → Except Ret (List Char)}
    {var : Option (List Char)} {val : List Char}
    (h : ∀ name ∈ references var val, f name = g name) : expand f var val = expand g var val := by
  fun_induction references var val with
  | case1 => rfl
  | case2 val ih =>
    rw [expand, expand]
    exact ih h
  | case3 c val hopen ih =>
    rw [expand, expand, ih h]
    · exact hopen
    · exact hopen
  | case4 var => rfl
  | case5 var val ih =>
    rw [expand, expand, if_pos rfl, if_pos rfl, h var List.mem_cons_self,
      ih fun name hname => h name (List.mem_cons_of_mem _ hname)]
  | case6 var c val hc ih =>
    rw [expand, expand, if_neg hc, if_neg hc]
    exact ih h

/-- The node at `q` is set to `val`, whose own old value is gone.

* `replaced`: what the code puts in the place of a reference is the value of the name in the
  innermost section around the node that defines it, and nothing if none does.
* `stored`: what is stored is `val` with these values in the places of its references, without the
  blanks around it; a `val` that cannot be expanded is refused. -/
structure ScopedAt (c : Config) (q : Path) (val : List Char) : Prop where
  replaced : ∀ var ∈ references none val,
    (c.putValue q none).lookup q var = .ok ((c.putValue q none).scopeValue q var)
  stored : ∀ o, Expansion ((c.putValue q none).scopeValue q) val o →
    c.setValue q (some val) = o.elim (.err, c.putValue q none) fun value =>
      (.ok, c.putValue q (some (trim value)))

/-- **A value whose references are clear** is set with what they stand for in their places. -/
theorem setValue_scoped {c : Config} {q : Path} {val : List Char} {o : Option (List Char)}
    (hq : q ≠ []) (h : ∀ var ∈ references none val, Clear (c.putValue q none) q var)
    (ho : Expansion ((c.putValue q none).scopeValue q) val o) :
    c.setValue q (some val) = o.elim (.err, c.putValue q none) fun value =>
      (.ok, c.putValue q (some (trim value))) := by
  have hcongr : expand ((c.putValue q none).lookup q) none val = expanded o := by
    rw [← ho.expand]
    exact expand_congr fun var hvar => (lookup_scope_iff hq).mpr (h var hvar)
  rw [setValue]
  simp only [hcongr]
  cases o with
  | none => rfl
  | some value => simp [expanded, putValue_putValue]

/-- **A value is set as it should be exactly when** its references are clear. -/
theorem scopedAt_iff {c : Config} {q : Path} {val : List Char} (hq : q ≠ []) :
    ScopedAt c q val ↔ ∀ var ∈ references none val, Clear (c.putValue q none) q var := by
  constructor
  · intro h var hvar
    exact (lookup_scope_iff hq).mp (h.replaced var hvar)
  · intro h
    exact ⟨fun var hvar => (lookup_scope_iff hq).mpr (h var hvar), fun o => setValue_scoped hq h⟩

/-! ## 2. Loading -/

/-- The line of the round sets the node at `q` of the tree `c` to `val`: an include line on its own
account, and every line behind the directive that it may be. -/
def Sets (drv : Driver) (overwrite : Bool) (f : Frame) (val : List Char) (c : Config)
    (q : Path) : Prop :=
  ∃ key src, Reads f.src (.assign key val) src ∧ val ≠ [] ∧
    (IsInclude key ∧ keyNode false (splitDots key) f.c f.p = (c, q) ∨
      ∃ c', Passes drv (Returns (round drv overwrite)) f key val c' ∧ keyNode overwrite
      (splitDots key) c' f.p = (c, q))

/-- Every value that loading sets is set with the values of the innermost sections that define its
names then. -/
def Scoped (drv : Driver) (overwrite : Bool) (c : Config) (src : Source) : Prop :=
  ∀ f, Leads (round drv overwrite) (start c src) f → ∀ val c' q, Sets drv overwrite f val c' q →
    ScopedAt c' q val

/-- **Loading follows the scoping exactly when** the references it comes to are clear, each in the
tree as it is when its line is loaded.  The documented scoping goes up through the enclosing
sections; the code looks in the section of the key, and then in the root. -/
theorem scoped_iff (drv : Driver) (overwrite : Bool) (c : Config) (src : Source) :
    Scoped drv overwrite c src ↔
      ∀ f, Leads (round drv overwrite) (start c src) f → ∀ val c' q, Sets drv overwrite f val c' q →
        ∀ var ∈ references none val, Clear (c'.putValue q none) q var := by
  have hnode : ∀ {f val c' q}, Sets drv overwrite f val c' q → q ≠ [] := by
    rintro f val c' q ⟨key, src', -, -, ⟨-, hnode⟩ | ⟨c'', -, hnode⟩⟩
    · obtain rfl := congrArg Prod.snd hnode
      exact keyNode_ne_nil (splitDots_ne_nil key)
    · obtain rfl := congrArg Prod.snd hnode
      exact keyNode_ne_nil (splitDots_ne_nil key)
  constructor
  · intro h f hf val c' q hsets
    exact (scopedAt_iff (hnode hsets)).mp (h f hf val c' q hsets)
  · intro h f hf val c' q hsets
    exact (scopedAt_iff (hnode hsets)).mpr (h f hf val c' q hsets)

/-- A section in a section, below two definitions of `v`. -/
def nested : List Char :=
  ['v', ' ', '1', '\n', 'a', '\n', '{', '\n', 'v', ' ', '2', '\n', 'b', '\n', '{', '\n',
    'x', ' ', '$', '{', 'v', '}', '\n', '}', '\n', '}', '\n']

/-- What has been read of it before `x`. -/
def nestedTree : Config :=
  ⟨none, .node ⟨['v'], some ['1']⟩ .nil (.node ⟨['a'], none⟩
    (.node ⟨['v'], some ['2']⟩ .nil (.node ⟨['b'], none⟩ .nil .nil)) .nil)⟩

/-- `x` is set to what the root says of `v`: **the section between is passed over**. -/
theorem nested_hidden :
    ((loadFromBuf nested).bind fun c => c.children.label [1, 1, 0]) =
      some ⟨['x'], some ['1']⟩ ∧
    ¬ Scoped bufDriver false create (bufSource nested.length nested) := by
  refine ⟨by decide +kernel, fun h => ?_⟩
  have hleads : Leads (round bufDriver false) (start create (bufSource nested.length nested))
      ⟨[], nestedTree, [1, 1], [], [['x', ' ', '$', '{', 'v', '}', '\n'],
        ['}', '\n'], ['}', '\n']]⟩ :=
    leads_of_follow (n := 6) rfl
  have hsets : Sets bufDriver false
      ⟨[], nestedTree, [1, 1], [], [['x', ' ', '$', '{', 'v', '}', '\n'], ['}', '\n'], ['}', '\n']]⟩
        ['$', '{', 'v', '}']
      (nestedTree.addChild [1, 1] ['x']).1 [1, 1, 0] := by
    refine ⟨['x'], _, ⟨_, rfl, by decide⟩, by decide, .inr ⟨nestedTree, ?_, by decide⟩⟩
    rfl
  have hlookup := (h _ hleads _ _ _ hsets).replaced ['v'] (by decide)
  revert hlookup
  decide +kernel

end Libu.Config
