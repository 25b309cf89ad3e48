/-
# Includes (`toolbox/config.c`)

`u_config_include` compares the path of a file with the other `include` children of the node it is
read into, and reads the file with `u_config_do_load_drv` unless one of them has the same.

The comparison is the only thing in the loader that looks at what has been loaded, and it is there
to stop files that include each other.  It sees the children of one node, of one name; a file that
is included with the other spelling, or from a section further down, is a new one to it.

* §1: the comparison follows a NULL pointer where it meets an `include` without a value (`Bare`), as
  a line `include.x 1` leaves one behind; nothing else in the loader does (`crash_bare`).
* §2: a file that has `-include` for itself is read into itself for ever (`optional_include_loops`),
  since only `include` children are compared.

When loading ends is settled in `Cycles.lean`.
-/
import Libu.Config.Load
import Libu.Config.SetGet

namespace Libu.Config

open Verif

/-! ## 1. The comparison -/

/-- Among the children but `inckey`, the first `include` that is not a different file has no
value. -/
def BareFirst (path : List Char) (inckey : Nat) (items : List (Item × Nat)) : Prop :=
  ∃ pre item i post, items = pre ++ (item, i) :: post ∧ item.key = includeKey ∧ i ≠ inckey ∧
  item.value = none ∧
    ∀ x ∈ pre, x.1.key = includeKey → x.2 ≠ inckey → x.1.value ≠ some path

theorem circular_crash {path : List Char} {inckey : Nat} {items : List (Item × Nat)} :
    circular path inckey items = .crash ↔ BareFirst path inckey items := by
  induction items with
  | nil =>
    refine ⟨fun h => (by cases h), ?_⟩
    rintro ⟨pre, item, i, post, heq, -⟩
    simp at heq
  | cons x items ih =>
    obtain ⟨item, i⟩ := x
    -- what is found behind an item that is passed over
    have hskip : (item.key = includeKey → i ≠ inckey → item.value ≠ some path ∧ item.value ≠ none) →
        (BareFirst path inckey ((item, i) :: items) ↔ BareFirst path inckey items) := by
      intro hpass
      constructor
      · rintro ⟨pre, item', i', post, heq, hkey, hne, hnone, hpre⟩
        cases pre with
        | nil =>
          obtain ⟨hhead, rfl⟩ := List.cons.inj heq
          obtain ⟨rfl, rfl⟩ := Prod.mk.inj hhead
          exact absurd hnone (hpass hkey hne).2
        | cons y pre =>
          obtain ⟨rfl, rfl⟩ := List.cons.inj heq
          exact ⟨pre, item', i', post, rfl, hkey, hne, hnone, fun x hx => hpre x
            (List.mem_cons_of_mem _ hx)⟩
      · rintro ⟨pre, item', i', post, rfl, hkey, hne, hnone, hpre⟩
        refine ⟨(item, i) :: pre, item', i', post, rfl, hkey, hne, hnone, ?_⟩
        intro x hx hk hi
        rcases List.mem_cons.mp hx with rfl | hx
        · exact (hpass hk hi).1
        · exact hpre x hx hk hi
    unfold circular
    split
    · next hcmp =>
      obtain ⟨hkey, hne⟩ := hcmp
      split
      · next hnone =>
          exact ⟨fun _ => ⟨[], item, i, items, rfl, hkey, hne, hnone, by simp⟩, fun _ => rfl⟩
      · next value hvalue =>
        split
        · next hpath =>
          refine ⟨fun h => (by cases h), ?_⟩
          rintro ⟨pre, item', i', post, heq, -, -, hnone, hpre⟩
          cases pre with
          | nil =>
            obtain ⟨hhead, -⟩ := List.cons.inj heq
            obtain ⟨rfl, rfl⟩ := Prod.mk.inj hhead
            rw [hvalue] at hnone
            cases hnone
          | cons y pre =>
            obtain ⟨rfl, -⟩ := List.cons.inj heq
            exact absurd (hvalue.trans (congrArg some hpath.symm))
              (hpre _ List.mem_cons_self hkey hne)
        · next hpath =>
          rw [hskip fun _ _ => ⟨by simpa [hvalue] using Ne.symm hpath, by simp [hvalue]⟩]
          exact ih
    · next hcmp =>
      rw [hskip fun hkey hne => absurd ⟨hkey, hne⟩ hcmp]
      exact ih

theorem circular_ok {path : List Char} {inckey : Nat} {items : List (Item × Nat)}
    (h : ∀ x ∈ items, x.1.key ≠ includeKey) : circular path inckey items = .ok := by
  induction items with
  | nil => rfl
  | cons x items ih =>
    rw [circular, if_neg fun hcmp => h x List.mem_cons_self hcmp.1]
    exact ih fun y hy => h y (List.mem_cons_of_mem _ hy)

/-- The line is an include line, and the comparison meets an `include` without a value. -/
def Bare (f : Frame) : Prop :=
  ∃ key value src c subkey path, Reads f.src (.assign key value) src ∧ IsInclude key ∧ value ≠ [] ∧
    doSetKey (some value) false (splitDots key) f.c f.p = (.ok, c, subkey) ∧
    (c.items f.p)[subkey.getLast?.getD 0]?.bind Item.value = some path ∧
    BareFirst path (subkey.getLast?.getD 0) (c.items f.p).zipIdx

theorem target_crash {drv : Driver} {c : Config} {p : Path} {inckey : Nat} :
    target drv c p inckey = .error .crash ↔
      ∃ path, (c.items p)[inckey]?.bind Item.value = some path ∧
      BareFirst path inckey (c.items p).zipIdx := by
  unfold target
  cases hpath : (c.items p)[inckey]?.bind Item.value with
  | none => simp
  | some path =>
    simp only [Option.some.injEq, exists_eq_left', ← circular_crash]
    cases circular path inckey (c.items p).zipIdx with
    | ok =>
      dsimp only
      split
      · simp
      · split
        · simp
        · split <;> simp
    | err => simp
    | crash => simp

theorem bind_ne_crash {α β : Type} {x : Except Ret α} {g : α → Except Ret β}
    (hx : x ≠ .error .crash) (hg : ∀ a, g a ≠ .error .crash) : (x >>= g) ≠ .error .crash := by
  cases x with
  | error ret => exact fun h => hx (congrArg Except.error (Except.error.inj h))
  | ok a => exact hg a

theorem expand_ne_crash {lookup : List Char → Except Ret (List Char)}
    (h : ∀ var, lookup var ≠ .error .crash)
    (var : Option (List Char)) (val : List Char) : expand lookup var val ≠ .error .crash := by
  fun_induction expand lookup var val with
  | case1 => simp
  | case2 val ih => exact ih
  | case3 c val _ ih => exact bind_ne_crash ih fun _ => by simp
  | case4 => simp
  | case5 var val ih => exact bind_ne_crash (h var) fun _ => bind_ne_crash ih fun _ => by simp
  | case6 var c val _ ih => exact ih

/-- Setting a key follows no NULL pointer: the node that is set has a parent. -/
theorem doSetKey_ne_crash (val : Option (List Char)) (overwrite : Bool)
    (keys : List (List Char)) (c : Config)
    (p : Path) : (doSetKey val overwrite keys c p).1 ≠ .crash := by
  induction keys generalizing c p with
  | nil => simp [doSetKey]
  | cons key keys ih =>
    cases keys with
    | nil =>
      simp only [doSetKey, setValue]
      cases val with
      | none => simp
      | some val =>
        dsimp only
        split
        · next ret herr =>
          rintro rfl
          refine expand_ne_crash (fun var => ?_) none val herr
          simp [lookup]
        · simp
    | cons k ks => exact ih _ _

section Crash

variable {drv : Driver} {overwrite : Bool} {f : Frame}

theorem critical_crash {key : List Char} {ret : Ret} : critical key ret = .crash ↔
    ret = .crash := by
  unfold critical
  split
  · next h => simp [h.2]
  · exact Iff.rfl

theorem closed_crash {uri : List Char} {ret : Ret} : closed drv uri ret = .crash ↔
    ret = .crash := by
  unfold closed
  split
  · next h => simp [h.1]
  · exact Iff.rfl

/-- A crash on an include line is that of the comparison, or that of the file. -/
theorem directive_crash {R : Frame → Loaded → Prop} {key value : List Char}
    {src : Source} {c : Config}
    (hread : Reads f.src (.assign key value) src) (h : (directiveBody drv f key value).Yields R
      (.crash, c)) :
    Bare f ∨ ∃ g r, R g r ∧ r.1 = .crash := by
  unfold directiveBody at h
  split at h
  · next hkey =>
    split at h
    · simp at h
    · next hvalue =>
      split at h
      · next c' subkey hset =>
        split at h
        · next ret htarget =>
          left
          obtain rfl := critical_crash.mp (Prod.mk.inj h).1.symm
          obtain ⟨path, hpath, hbare⟩ := target_crash.mp htarget
          exact ⟨key, value, src, c', subkey, path, hread, hkey, hvalue, hset, hpath, hbare⟩
        · next uri src' htarget =>
          obtain ⟨r, hr, heq⟩ := h
          exact .inr ⟨_, r, hr, closed_crash.mp (critical_crash.mp (Prod.mk.inj heq).1.symm)⟩
      · next ret c' subkey hret hset =>
        obtain rfl := (Prod.mk.inj h).1
        exact absurd (congrArg Prod.fst hset) (doSetKey_ne_crash _ _ _ _ _)
  · simp at h

/-- **A crash is that of a comparison** in some round. -/
theorem crash_bare {r : Loaded} (h : Returns (round drv overwrite) f r) (hr : r.1 = .crash) :
    ∃ g, Leads (round drv overwrite) f g ∧ Bare g := by
  refine Returns.rule (P := fun f r => r.1 = .crash → ∃ g,
    Leads (round drv overwrite) f g ∧ Bare g) ?_ h hr
  intro f r hyields
  -- what the rounds that are called lead to
  have hcall : ∀ {g : Frame} {r : Loaded}, Calls (round drv overwrite) f g ∧ Returns
    (round drv overwrite) g r ∧
      (r.1 = .crash → ∃ g', Leads (round drv overwrite) g g' ∧ Bare g') → r.1 = .crash →
      ∃ g, Leads (round drv overwrite) f g ∧ Bare g := by
    rintro g r ⟨hcalls, -, ih⟩ hr
    obtain ⟨g', hleads, hbare⟩ := ih hr
    exact ⟨g', hleads.head hcalls, hbare⟩
  intro hr
  cases round_yields hyields with
  | eof => cases hr
  | bad => cases hr
  | close => cases hr
  | directive hread hdir =>
    obtain rfl : _ = Ret.crash := hr
    rcases directive_crash hread hdir with hbare | ⟨g, r, hg, hcrash⟩
    · exact ⟨f, .refl, hbare⟩
    · exact hcall hg hcrash
  | set _ _ _ hset =>
    obtain rfl : _ = Ret.crash := hr
    exact absurd (congrArg Prod.fst hset) (doSetKey_ne_crash _ _ _ _ _)
  | inside _ _ _ hin => exact hcall hin hr
  | next _ hin => exact hcall hin hr

end Crash

/-! ## 2. A file that includes itself -/

/-- The one line of the file `A`. -/
def selfLine : List Char := ['-', 'i', 'n', 'c', 'l', 'u', 'd', 'e', ' ', 'A', '\n']

/-- A driver that opens `A`. -/
def selfDriver : Driver := ⟨some fun uri => if uri = ['A'] then some [selfLine]
  else none, none, true, none⟩

/-- Where no `include` is compared, the file is read into itself whatever has been read before. -/
theorem self_includes {n : Nat} {c : Config} (h : ∀ item ∈ c.items [], item.key ≠ includeKey)
    (overwrite : Bool) : load selfDriver overwrite n c [] [] [selfLine] = none := by
  induction n generalizing c with
  | zero => rfl
  | succ n ih =>
    let item : Item := ⟨optIncludeKey, some ['A']⟩
    let c' : Config := ⟨c.value, c.children.append (.node item .nil .nil)⟩
    have hset : doSetKey (some ['A']) false (splitDots optIncludeKey) c [] =
      (.ok, c', [c.children.length]) := by
      have hdots : splitDots optIncludeKey = [optIncludeKey] := by decide
      rw [hdots, doSetKey_new (Forest.inside_root _) _ (by decide), Forest.alter_root]
      rfl
    have hitems : c'.items [] = c.items [] ++ [item] := by
      simp [items, c', Forest.heads]
    have hnew : ∀ item ∈ c'.items [], item.key ≠ includeKey := by
      rw [hitems]
      intro x hx
      rcases List.mem_append.mp hx with hx | hx
      · exact h x hx
      · obtain rfl := List.mem_singleton.mp hx
        decide
    have htarget : target selfDriver c' [] c.children.length = .ok (['A'], [selfLine]) := by
      have hlen : c.children.length = (c.items []).length := by simp [items]
      have hcirc : circular ['A'] c.children.length (c'.items []).zipIdx = .ok :=
        circular_ok fun x hx => by
          obtain ⟨hlt, hget⟩ := List.mem_zipIdx' hx
          exact hnew x.1 (hget ▸ List.getElem_mem hlt)
      have hpath : (c'.items [])[c.children.length]?.bind Item.value = some ['A'] := by
        rw [hitems, hlen]
        simp [item]
      unfold target
      simp only [hpath, hcirc]
      rfl
    have hline : csGetline [] [selfLine] = some (selfLine.dropLast, []) := by decide
    have hparse : parseLine selfLine.dropLast = some (.assign optIncludeKey ['A']) := by decide
    have hdir : directive (load selfDriver overwrite n) selfDriver c [] optIncludeKey
      ['A'] = none := by
      rw [directive, if_pos (.inr rfl), if_neg (by decide), hset]
      simp only [doInclude_eq, List.getLast?_singleton, Option.getD_some, htarget, ih hnew]
      rfl
    rw [load, loadLine, hline]
    simp only [hparse, assign, hdir]

end Libu.Config
