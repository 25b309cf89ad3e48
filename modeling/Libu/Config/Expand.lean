/-
# What a value is expanded to (`u_config_set_value`)

The loop of `u_config_set_value` goes over the value with three cursors: `p` at the next `${`, `ve`
at the `}` behind it, and `vs` at what has not been copied.  What stands behind the last reference
is copied after the loop.

Three cursors into one value, and an expansion that grows behind them, make a loop that is hard to
see through and easy to follow: at each turn what has been copied is the expansion of what was
passed over, and what is left starts at `vs`.

* §1 is the loop as it is written.  It makes the same of a value as `expand`, which reads it
  character by character (`copyLoop_eq`), so that `setValueLoop` is `setValue`.
* §2 says what a value is to be expanded to, and that there is one such expansion of each.
* §3: `u_config_set_value` stores it (`setValue_expansion`).
-/
import Libu.Config.Scope

namespace Libu

open Verif

namespace Config

/-! ## 1. The loop -/

/-- `strstr(vs, "${")`: the text up to there, and the text from there. -/
def strOpen : List Char → Option (List Char × List Char)
  | [] => none
  | c :: vs =>
    if ['$', '{'] <+: c :: vs then some ([], c :: vs)
    else (strOpen vs).map fun s => (c :: s.1, s.2)

/-- What `strOpen` finds is the first `${`. -/
theorem strOpen_of_some {vs pre p : List Char} (h : strOpen vs = some (pre, p)) :
    ∃ rest, p = '$' :: '{' :: rest ∧ vs = pre ++ p ∧ ¬ ['$', '{'] <:+: pre := by
  induction vs generalizing pre with
  | nil => cases h
  | cons c vs ih =>
    rw [strOpen] at h
    by_cases hopen : ['$', '{'] <+: c :: vs
    · rw [if_pos hopen] at h
      obtain ⟨rfl, rfl⟩ := Prod.mk.inj (Option.some.inj h)
      obtain ⟨rest, hrest⟩ := hopen
      exact ⟨rest, hrest.symm, rfl, by simp⟩
    · rw [if_neg hopen] at h
      obtain ⟨⟨pre', p'⟩, hsome, heq⟩ := Option.map_eq_some_iff.mp h
      obtain ⟨rfl, rfl⟩ := Prod.mk.inj heq
      obtain ⟨rest, rfl, rfl, hpre⟩ := ih hsome
      refine ⟨rest, rfl, rfl, ?_⟩
      intro hin
      rcases List.infix_cons_iff.mp hin with hstart | hin
      · exact hopen (hstart.trans (List.prefix_append (c :: pre') _))
      · exact hpre hin

theorem strOpen_of_none {vs : List Char} (h : strOpen vs = none) : ¬ ['$', '{'] <:+: vs := by
  induction vs with
  | nil => simp
  | cons c vs ih =>
    rw [strOpen] at h
    by_cases hopen : ['$', '{'] <+: c :: vs
    · rw [if_pos hopen] at h
      cases h
    · rw [if_neg hopen] at h
      intro hin
      exact (List.infix_cons_iff.mp hin).elim hopen (ih (Option.map_eq_none_iff.mp h))

/-- What `strchr(vs, '}')` finds is the first closing bracket. -/
theorem eq_of_strchr {vs ve : List Char} {c : Char} (h : vs.dropWhile (· ≠ '}') = c :: ve) :
    vs = vs.takeWhile (· ≠ '}') ++ '}' :: ve ∧ '}' ∉ vs.takeWhile (· ≠ '}') := by
  have hc : c = '}' := by
    have hnot := List.head?_dropWhile_not (fun c => decide (c ≠ '}')) vs
    rw [h] at hnot
    simpa using hnot
  subst hc
  constructor
  · rw [← h, List.takeWhile_append_dropWhile]
  · intro hin
    simpa using List.mem_takeWhile_imp hin

/-- What stands behind a reference is shorter. -/
theorem length_behind {vs pre p ve : List Char} {c : Char} (h : strOpen vs = some (pre, p))
    (hve : (p.drop 2).dropWhile (· ≠ '}') = c :: ve) : ve.length < vs.length := by
  obtain ⟨rest, rfl, rfl, -⟩ := strOpen_of_some h
  have hle := (List.dropWhile_suffix (fun c => decide (c ≠ '}')) (l := rest)).length_le
  have hlen : (List.dropWhile (fun c => decide (c ≠ '}')) rest).length = ve.length + 1 :=
    congrArg List.length hve
  simp only [List.length_append, List.length_cons]
  omega

/-- The loop of `u_config_set_value`, and the copy of what it leaves; `value` is what it has
made. -/
def copyLoop (lookup : List Char → Except Ret (List Char)) (value vs ve : List Char) :
    Except Ret (List Char) :=
  match h : strOpen vs with
  | none => .ok (value ++ ve)
  | some (pre, p) =>
    match hve : (p.drop 2).dropWhile (· ≠ '}') with
    -- closing bracket missing
    | [] => .error .err
    | _ :: ve =>
      have := length_behind h hve
      match lookup ((p.drop 2).takeWhile (· ≠ '}')) with
      | .error ret => .error ret
      | .ok varval => copyLoop lookup (value ++ pre ++ varval) ve ve
termination_by vs.length

/-- `u_config_set_value` -/
def setValueLoop (c : Config) (p : Path) (val : Option (List Char)) : Ret × Config :=
  let c := c.putValue p none
  match val with
  | none => (.ok, c)
  | some val =>
    match copyLoop (c.lookup p) [] val val with
    | .error ret => (ret, c)
    | .ok value => (.ok, c.putValue p (some (trim value)))

section Loop

variable {lookup : List Char → Except Ret (List Char)} {pre name rest : List Char}

/-- Text without a `${` is copied up to the next one. -/
theorem expand_append (hpre : ¬ ['$', '{'] <:+: pre) :
    expand lookup none (pre ++ '$' :: '{' :: rest) =
    (expand lookup (some []) rest).map (pre ++ ·) := by
  induction pre with
  | nil =>
    rw [List.nil_append, expand]
    cases expand lookup (some []) rest <;> rfl
  | cons c pre ih =>
    have hopen : ¬ ['$', '{'] <+: c :: (pre ++ '$' :: '{' :: rest) := by
      intro hstart
      obtain ⟨rfl, hbehind⟩ := List.cons_prefix_cons.mp hstart
      cases pre with
      | nil => exact absurd (List.cons_prefix_cons.mp hbehind).1 (by decide)
      | cons d pre =>
        obtain ⟨rfl, -⟩ := List.cons_prefix_cons.mp hbehind
        exact hpre (List.prefix_append ['$', '{'] pre).isInfix
    rw [List.cons_append, expand_cons lookup hopen,
      ih fun hin => hpre (hin.trans (List.suffix_cons c pre).isInfix)]
    cases expand lookup (some []) rest <;> rfl

/-- A name goes up to the first `}`. -/
theorem expand_name (hname : '}' ∉ name) (var : List Char) :
    expand lookup (some var) (name ++ '}' :: rest) =
    (lookup (var ++ name)).bind fun varval => (expand lookup none rest).map (varval ++ ·) := by
  induction name generalizing var with
  | nil =>
    rw [List.nil_append, expand, if_pos rfl, List.append_nil]
    cases lookup var with
    | error ret => rfl
    | ok varval => cases expand lookup none rest <;> rfl
  | cons c name ih =>
    rw [List.mem_cons, not_or] at hname
    rw [List.cons_append, expand, if_neg (Ne.symm hname.1), ih hname.2, List.append_assoc]
    rfl

/-- **The cursors make what the characters make.**  In front of each round `vs` and `ve` are the
same. -/
theorem copyLoop_eq {vs ve : List Char} (value : List Char) (hve : vs = ve) :
    copyLoop lookup value vs ve = (expand lookup none vs).map (value ++ ·) := by
  fun_induction copyLoop lookup value vs ve with
  | case1 value vs ve hstr =>
    rw [expand_plain (strOpen_of_none hstr), ← hve]
    rfl
  | case2 value vs ve pre p hstr hclose =>
    obtain ⟨rest, rfl, rfl, hpre⟩ := strOpen_of_some hstr
    have hrest : '}' ∉ rest := fun hin => by
      have := List.dropWhile_eq_nil_iff.mp hclose '}' hin
      simp at this
    rw [expand_append hpre, expand_open hrest]
    rfl
  | case3 value vs ve pre p hstr c ve' hclose _ ret hlookup =>
    obtain ⟨rest, rfl, rfl, hpre⟩ := strOpen_of_some hstr
    obtain ⟨hrest, hname⟩ := eq_of_strchr hclose
    rw [expand_append hpre]
    rw [List.drop_succ_cons, List.drop_succ_cons, List.drop_zero] at hrest hname hlookup
    rw [hrest, expand_name hname, List.nil_append, hlookup]
    rfl
  | case4 value vs ve pre p hstr c ve' hclose _ varval hlookup ih =>
    obtain ⟨rest, rfl, rfl, hpre⟩ := strOpen_of_some hstr
    obtain ⟨hrest, hname⟩ := eq_of_strchr hclose
    rw [expand_append hpre, ih rfl]
    rw [List.drop_succ_cons, List.drop_succ_cons, List.drop_zero] at hrest hname hlookup
    rw [hrest, expand_name hname, List.nil_append, hlookup]
    cases expand lookup none ve' with
    | error ret => rfl
    | ok v => simp [Except.bind, Except.map]

end Loop

theorem setValue_eq_loop (c : Config) (p : Path) (val : Option (List Char)) :
    c.setValue p val = c.setValueLoop p val := by
  cases val with
  | none => rfl
  | some val =>
    simp only [setValue, setValueLoop, copyLoop_eq [] rfl, List.nil_append]
    cases expand ((c.putValue p none).lookup p) none val <;> rfl

/-! ## 2. The expansion of a value -/

/-- `Expansion value s o`: where `value` is what the names stand for, `s` is expanded to `o`, or
cannot be. -/
inductive Expansion (value : List Char → List Char) : List Char → Option (List Char) → Prop
  | plain {s : List Char} : ¬ ['$', '{'] <:+: s → Expansion value s (some s)
  | reference {pre name rest : List Char} {o : Option (List Char)} :
      ¬ ['$', '{'] <:+: pre → '}' ∉ name → Expansion value rest o →
      Expansion value (pre ++ '$' :: '{' :: (name ++ '}' :: rest))
      (o.map fun v => pre ++ value name ++ v)
  | unclosed {pre rest : List Char} :
      ¬ ['$', '{'] <:+: pre → '}' ∉ rest → Expansion value (pre ++ '$' :: '{' :: rest) none

section Expansions

variable {value : List Char → List Char} {s : List Char} {o : Option (List Char)}

/-- What the loop makes where every name has a value. -/
def expanded (o : Option (List Char)) : Except Ret (List Char) := o.elim (.error .err) .ok

theorem Expansion.expand (h : Expansion value s o) :
    Config.expand (fun name => .ok (value name)) none s = expanded o := by
  induction h with
  | plain hs => exact expand_plain hs
  | @reference pre name rest o hpre hname _ ih =>
    rw [expand_append hpre, expand_name hname, List.nil_append]
    cases o with
    | none => simp [ih, expanded, Except.bind, Except.map]
    | some v => simp [ih, expanded, Except.bind, Except.map]
  | unclosed hpre hrest => rw [expand_append hpre, expand_open hrest]; rfl

/-- Every value has an expansion: a round of the loop is a rule. -/
theorem exists_expansion (value : List Char → List Char) (s : List Char) :
    ∃ o, Expansion value s o := by
  induction hn : s.length using Nat.strong_induction_on generalizing s with
  | _ n ih =>
    cases hstr : strOpen s with
    | none => exact ⟨_, .plain (strOpen_of_none hstr)⟩
    | some r =>
      obtain ⟨rest, hp, rfl, hpre⟩ := strOpen_of_some (show strOpen s = some (r.1, r.2) from hstr)
      rw [hp] at hn ⊢
      cases hclose : rest.dropWhile (· ≠ '}') with
      | nil =>
        have hrest : '}' ∉ rest :=
          fun hin => by simpa using List.dropWhile_eq_nil_iff.mp hclose '}' hin
        exact ⟨_, .unclosed hpre hrest⟩
      | cons c ve =>
        obtain ⟨hrest, hname⟩ := eq_of_strchr hclose
        have hlt : ve.length < n := by
          have hlen := congrArg List.length hrest
          simp only [List.length_append, List.length_cons] at hlen hn
          omega
        obtain ⟨o, ho⟩ := ih _ hlt ve rfl
        rw [hrest]
        exact ⟨_, .reference hpre hname ho⟩

theorem expanded_inj {o o' : Option (List Char)} (h : expanded o = expanded o') : o = o' := by
  cases o <;> cases o' <;> simp_all [expanded]

theorem Expansion.unique {o' : Option (List Char)} (h : Expansion value s o)
    (h' : Expansion value s o') : o = o' :=
  expanded_inj (h.expand.symm.trans h'.expand)

end Expansions

/-! ## 3. Setting a value -/

/-- What a name stands for in the value of the `i`-th child of the node at `p`, whose own old value
is gone. -/
def nameValue (c : Config) (p : Path) (i : Nat) (name : List Char) : List Char :=
  let c := c.putValue (p ++ [i]) none
  (if (getSubkey name (c.inSection p)).isSome then getSubkeyValue name (c.inSection p)
    else getSubkeyValue name c.children).getD []

theorem lookup_nameValue (c : Config) (p : Path) (i : Nat) :
    (c.putValue (p ++ [i]) none).lookup (p ++ [i]) = fun name => .ok (c.nameValue p i name) := by
  funext name
  rw [lookup_eq (by simp), List.dropLast_concat]
  rfl

/-- **`u_config_set_value` on a node below the root** stores the expansion of the value, without the
blanks around it, and fails when the value cannot be expanded. -/
theorem setValue_expansion (c : Config) (p : Path) (i : Nat) (val : List Char) :
    (∃! o, Expansion (c.nameValue p i) val o) ∧
      (∀ v, Expansion (c.nameValue p i) val (some v) →
        c.setValueLoop (p ++ [i]) (some val) = (.ok, c.putValue (p ++ [i]) (some (trim v)))) ∧
      ((c.setValueLoop (p ++ [i]) (some val)).1 ≠ .ok ↔ Expansion (c.nameValue p i) val none) := by
  have hset : ∀ o, Expansion (c.nameValue p i) val o → c.setValueLoop (p ++ [i]) (some val) =
      o.elim (.err, c.putValue (p ++ [i]) none) fun v =>
      (.ok, c.putValue (p ++ [i]) (some (trim v))) := by
    intro o ho
    rw [← setValue_eq_loop, setValue]
    simp only [lookup_nameValue, ho.expand]
    cases o with
    | none => rfl
    | some v => simp [expanded, putValue_putValue]
  obtain ⟨o, ho⟩ := exists_expansion (c.nameValue p i) val
  refine ⟨⟨o, ho, fun o' ho' => ho'.unique ho⟩, fun v hv => hset _ hv, ?_,
    fun h => by simp [hset _ h]⟩
  intro hfail
  cases o with
  | none => exact ho
  | some v => exact absurd (congrArg Prod.fst (hset _ ho)) hfail

end Config

end Libu
