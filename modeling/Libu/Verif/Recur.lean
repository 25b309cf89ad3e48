/-
# Recursive procedures

The body of a procedure is a tree: it returns, or it calls the procedure and goes on with what the
call returns.  Neither the arguments nor the results are in any order; whether the recursion ends is
a question.

* §1: bodies, and the procedure with fuel.  More fuel does not change a result (`fix_mono`).
* §2: the calls that a call makes.  A call returns if no chain of calls goes on from it for ever
  (`returns_of_acc`), and so it does if every call has a lower rank than the one it comes of
  (`returns_of_rank`).
* §3: the rule for what the results satisfy (`Returns.rule`).
* §4: bodies that make related calls and go on alike with related results (`Body.Related`).
-/
import Mathlib.Logic.Relation
import Mathlib.Order.WellFounded

namespace Verif

/-- A body: `ι` is what a call is made with, `ρ` what it returns, `α` what the body comes to. -/
inductive Body (ι ρ α : Type*)
  | ret (a : α)
  | call (i : ι) (k : ρ → Body ι ρ α)

variable {ι ρ α β : Type*}

/-! ## 1. Running -/

namespace Body

/-- One body after the other. -/
def bind : Body ι ρ α → (α → Body ι ρ β) → Body ι ρ β
  | ret a, g => g a
  | call i k, g => call i fun r => (k r).bind g

/-- The body, with `f` for the procedure. -/
def run (f : ι → Option ρ) : Body ι ρ α → Option α
  | ret a => some a
  | call i k => (f i).bind fun r => (k r).run f

variable {f g : ι → Option ρ}

@[simp] theorem run_ret (a : α) : (ret a : Body ι ρ α).run f = some a := rfl

@[simp] theorem run_call (i : ι) (k : ρ → Body ι ρ α) :
    (call i k).run f = (f i).bind fun r => (k r).run f := rfl

/-- Running one body after the other. -/
theorem run_bind (x : Body ι ρ α) (h : α → Body ι ρ β) :
    (x.bind h).run f = (x.run f).bind fun a => (h a).run f := by
  induction x with
  | ret a => rfl
  | call i k ih =>
    simp only [bind, run, Option.bind_assoc]
    exact congrArg (Option.bind (f i)) (funext ih)

/-- A procedure that returns what `f` does, where `f` does, gives the body what `f` gives it. -/
theorem run_mono (h : ∀ i r, f i = some r → g i = some r) {x : Body ι ρ α} {a : α}
    (hx : x.run f = some a) : x.run g = some a := by
  induction x with
  | ret b => exact hx
  | call i k ih =>
    obtain ⟨r, hr, hk⟩ := Option.bind_eq_some_iff.mp hx
    exact Option.bind_eq_some_iff.mpr ⟨r, h i r hr, ih r hk⟩

end Body

/-- The procedure: no more than `n` calls are open at a time. -/
def fix (body : ι → Body ι ρ ρ) : Nat → ι → Option ρ
  | 0, _ => none
  | n + 1, i => (body i).run (fix body n)

section Procedure

variable {body : ι → Body ι ρ ρ} {i j : ι} {r r' : ρ} {m n : Nat}

theorem fix_mono (hmn : m ≤ n) (h : fix body m i = some r) : fix body n i = some r := by
  induction m generalizing n i r with
  | zero => cases h
  | succ m ih =>
    obtain ⟨n, rfl⟩ := Nat.exists_eq_succ_of_ne_zero (by omega : n ≠ 0)
    exact Body.run_mono (fun _ _ => ih (Nat.le_of_succ_le_succ hmn)) h

/-- The call returns `r`. -/
def Returns (body : ι → Body ι ρ ρ) (i : ι) (r : ρ) : Prop := ∃ n, fix body n i = some r

/-- A call has one result at most. -/
theorem Returns.unique (h : Returns body i r) (h' : Returns body i r') : r = r' := by
  obtain ⟨m, hm⟩ := h
  obtain ⟨n, hn⟩ := h'
  have hm' := fix_mono (Nat.le_max_left m n) hm
  exact Option.some.inj (hm'.symm.trans (fix_mono (Nat.le_max_right m n) hn))

/-! ## 2. Calls -/

/-- The body gets to the call with `j`, where the calls before it return as `R` says. -/
inductive Body.Calls (R : ι → ρ → Prop) : Body ι ρ α → ι → Prop
  | here {i : ι} {k : ρ → Body ι ρ α} : Calls R (.call i k) i
  | there {i j : ι} {k : ρ → Body ι ρ α} {r : ρ} : R i r → Calls R (k r) j → Calls R (.call i k) j

/-- What the body may come to, where the calls return as `R` says. -/
def Body.Yields (R : ι → ρ → Prop) : Body ι ρ α → α → Prop
  | .ret b, a => a = b
  | .call i k, a => ∃ r, R i r ∧ (k r).Yields R a

section Sequence

variable {R : ι → ρ → Prop} {x : Body ι ρ α} {h : α → Body ι ρ β}

@[simp] theorem Body.calls_ret (a : α) : ¬ (ret a : Body ι ρ α).Calls R j := fun h => by cases h

@[simp] theorem Body.calls_call {k : ρ → Body ι ρ α} :
    (call i k).Calls R j ↔ j = i ∨ ∃ r, R i r ∧ (k r).Calls R j := by
  constructor
  · rintro (_ | ⟨hr, hj⟩)
    · exact .inl rfl
    · exact .inr ⟨_, hr, hj⟩
  · rintro (rfl | ⟨r, hr, hj⟩)
    · exact .here
    · exact .there hr hj

@[simp] theorem Body.yields_ret {a b : α} : (ret b : Body ι ρ α).Yields R a ↔ a = b := Iff.rfl

@[simp] theorem Body.yields_call {k : ρ → Body ι ρ α} {a : α} :
    (call i k).Yields R a ↔ ∃ r, R i r ∧ (k r).Yields R a := Iff.rfl

/-- The calls of one body after the other. -/
theorem Body.calls_bind : (x.bind h).Calls R j ↔ x.Calls R j ∨ ∃ a, x.Yields R a ∧
    (h a).Calls R j := by
  induction x with
  | ret a => simp [bind]
  | call i k ih =>
    simp only [bind, calls_call, yields_call, ih]
    constructor
    · rintro (rfl | ⟨r, hr, hk | ⟨a, ha, hj⟩⟩)
      · exact .inl (.inl rfl)
      · exact .inl (.inr ⟨r, hr, hk⟩)
      · exact .inr ⟨a, ⟨r, hr, ha⟩, hj⟩
    · rintro ((rfl | ⟨r, hr, hk⟩) | ⟨a, ⟨r, hr, ha⟩, hj⟩)
      · exact .inl rfl
      · exact .inr ⟨r, hr, .inl hk⟩
      · exact .inr ⟨r, hr, .inr ⟨a, ha, hj⟩⟩

/-- The results of one body after the other. -/
theorem Body.yields_bind {b : β} : (x.bind h).Yields R b ↔ ∃ a, x.Yields R a ∧
    (h a).Yields R b := by
  induction x with
  | ret a => simp [bind]
  | call i k ih =>
    simp only [bind, yields_call, ih]
    constructor
    · rintro ⟨r, hr, a, ha, hb⟩
      exact ⟨a, ⟨r, hr, ha⟩, hb⟩
    · rintro ⟨a, ⟨r, hr, ha⟩, hb⟩
      exact ⟨r, hr, a, ha, hb⟩

end Sequence

/-- What a body comes to, it yields; only the calls that are made have to return as `R` says. -/
theorem Body.yields_of_run {R : ι → ρ → Prop} {x : Body ι ρ α} {a : α}
    (h : x.run (fix body n) = some a)
    (hR : ∀ j r, x.Calls (Returns body) j → fix body n j = some r → R j r) : x.Yields R a := by
  induction x with
  | ret b => exact (Option.some.inj h).symm
  | call i k ih =>
    obtain ⟨r, hr, hk⟩ := Option.bind_eq_some_iff.mp h
    exact ⟨r, hR i r .here hr, ih r hk fun j r' hj => hR j r' (.there ⟨n, hr⟩ hj)⟩

/-- What a body yields, it comes to with enough fuel. -/
theorem Body.run_of_yields {x : Body ι ρ α} {a : α} (h : x.Yields (Returns body) a) :
    ∃ n, x.run (fix body n) = some a := by
  induction x with
  | ret b => exact ⟨0, congrArg some (Eq.symm h)⟩
  | call i k ih =>
    obtain ⟨r, ⟨m, hr⟩, hk⟩ := h
    obtain ⟨n, hn⟩ := ih r hk
    refine ⟨max m n, Option.bind_eq_some_iff.mpr ⟨r, fix_mono (Nat.le_max_left m n) hr, ?_⟩⟩
    exact Body.run_mono (fun _ _ => fix_mono (Nat.le_max_right m n)) hn

/-- A call returns what its body yields. -/
theorem returns_of_yields (h : (body i).Yields (Returns body) r) : Returns body i r := by
  obtain ⟨n, hn⟩ := Body.run_of_yields h
  exact ⟨n + 1, hn⟩

/-- The call with `i` makes the call with `j`. -/
def Calls (body : ι → Body ι ρ ρ) (i j : ι) : Prop := (body i).Calls (Returns body) j

/-- When the calls on the way end, the body does. -/
theorem Body.ends {x : Body ι ρ α} (h : ∀ j, x.Calls (Returns body) j → ∃ r, Returns body j r) :
    ∃ n a, x.run (fix body n) = some a := by
  induction x with
  | ret a => exact ⟨0, a, rfl⟩
  | call i k ih =>
    obtain ⟨r, m, hr⟩ := h i .here
    obtain ⟨n, a, hk⟩ := ih r fun j hj => h j (.there ⟨m, hr⟩ hj)
    refine ⟨max m n, a, Option.bind_eq_some_iff.mpr ⟨r, fix_mono (Nat.le_max_left m n) hr, ?_⟩⟩
    exact Body.run_mono (fun _ _ => fix_mono (Nat.le_max_right m n)) hk

/-- With fuel for each of the calls there is enough for the body. -/
theorem Body.ends_at {x : Body ι ρ α} (h : ∀ j, x.Calls (Returns body) j → ∃ r,
    fix body n j = some r) : ∃ a, x.run (fix body n) = some a := by
  induction x with
  | ret a => exact ⟨a, rfl⟩
  | call i k ih =>
    obtain ⟨r, hr⟩ := h i .here
    obtain ⟨a, hk⟩ := ih r fun j hj => h j (.there ⟨n, hr⟩ hj)
    exact ⟨a, Option.bind_eq_some_iff.mpr ⟨r, hr, hk⟩⟩

/-- **A measure that goes down with every call** is fuel enough. -/
theorem fix_of_measure (I : ι → Prop) (m : ι → Nat)
    (hm : ∀ i j, I i → Calls body i j → I j ∧ m j < m i)
    (hi : I i) (hn : m i < n) : ∃ r, fix body n i = some r := by
  induction n generalizing i with
  | zero => exact absurd hn (Nat.not_lt_zero _)
  | succ n ih =>
    refine Body.ends_at fun j hj => ?_
    obtain ⟨hj', hlt⟩ := hm i j hi hj
    exact ih hj' (by omega)

/-- **A call from which no chain of calls goes on for ever returns.** -/
theorem returns_of_acc (h : Acc (fun j i => Calls body i j) i) : ∃ r, Returns body i r := by
  induction h with
  | intro i _ ih =>
    obtain ⟨n, r, hr⟩ := Body.ends ih
    exact ⟨r, n + 1, hr⟩

/-- **A rank that goes down with every call**, in any well-founded order: `I` says which ranks a
call may have. -/
theorem returns_of_rank {γ : Type*} {lt : γ → γ → Prop} (hwf : WellFounded lt) (I : ι → γ → Prop)
    (hstep : ∀ i a j, I i a → Calls body i j → ∃ b, I j b ∧ lt b a) {a : γ} (hi : I i a) :
    ∃ r, Returns body i r := by
  refine returns_of_acc ?_
  induction a using hwf.induction generalizing i with
  | _ a ih =>
    refine .intro i fun j hj => ?_
    obtain ⟨b, hb, hlt⟩ := hstep i a j hi hj
    exact ih b hlt hb

/-- The calls that come of a call. -/
abbrev Leads (body : ι → Body ι ρ ρ) : ι → ι → Prop := Relation.ReflTransGen (Calls body)

/-- The call that the body makes first. -/
def Body.first : Body ι ρ α → Option ι
  | .ret _ => none
  | .call i _ => some i

/-- `n` calls on, always along the first. -/
def follow (body : ι → Body ι ρ ρ) : Nat → ι → Option ι
  | 0, i => some i
  | n + 1, i => (body i).first.bind (follow body n)

/-- The first call of a body is made, whatever calls return. -/
theorem Body.calls_of_first {R : ι → ρ → Prop} {x : Body ι ρ α}
    (h : x.first = some j) : x.Calls R j := by
  cases x with
  | ret a => cases h
  | call i k =>
    obtain rfl := Option.some.inj h
    exact .here

/-- What is found along the first calls is come to. -/
theorem leads_of_follow (h : follow body n i = some j) : Leads body i j := by
  induction n generalizing i with
  | zero =>
    obtain rfl := Option.some.inj h
    exact .refl
  | succ n ih =>
    obtain ⟨k, hk, hj⟩ := Option.bind_eq_some_iff.mp h
    exact .head (Body.calls_of_first hk) (ih hj)

/-! ## 3. Results -/

/-- **Rule for results.**  What every body that makes of it for the results of its calls makes of it
for its own, holds of every call that returns. -/
theorem Returns.rule {P : ι → ρ → Prop}
    (hbody : ∀ i r, (body i).Yields (fun j r => Calls body i j ∧ Returns body j r ∧ P j r) r →
      P i r)
    (h : Returns body i r) : P i r := by
  obtain ⟨n, hn⟩ := h
  induction n generalizing i r with
  | zero => cases hn
  | succ n ih => exact hbody i r (Body.yields_of_run hn fun j r' hj hr' => ⟨hj, ⟨n, hr'⟩, ih hr'⟩)

end Procedure

/-! ## 4. Related bodies -/

section Related

variable {ι' ρ' α' β' : Type*} {I : ι → ι' → Prop} {J : ρ → ρ' → Prop} {K : α → α' → Prop}
  {L : β → β' → Prop} {R : ι → ρ → Prop} {R' : ι' → ρ' → Prop}

/-- The bodies make calls that `I` relates, and come to what `K` relates when the calls return what
`J` relates. -/
def Body.Related (I : ι → ι' → Prop) (J : ρ → ρ' → Prop) (K : α → α' → Prop) :
    Body ι ρ α → Body ι' ρ' α' → Prop
  | .ret a, .ret b => K a b
  | .call i k, .call j k' => I i j ∧ ∀ r r', J r r' → (k r).Related I J K (k' r')
  | .ret _, .call _ _ => False
  | .call _ _, .ret _ => False

/-- Bodies that are related, and that go on alike with related results, are related. -/
theorem Body.Related.bind {x : Body ι ρ α} {y : Body ι' ρ' α'} {f : α → Body ι ρ β}
    {g : α' → Body ι' ρ' β'} (h : x.Related I J K y)
    (hfg : ∀ a b, K a b → (f a).Related I J L (g b)) : (x.bind f).Related I J L (y.bind g) := by
  induction x generalizing y with
  | ret a =>
    cases y with
    | ret b => exact hfg a b h
    | call j k' => exact h.elim
  | call i k ih =>
    cases y with
    | ret b => exact h.elim
    | call j k' => exact ⟨h.1, fun r r' hr => ih r (h.2 r r' hr)⟩

/-- What the one yields has its counterpart in the other. -/
theorem Body.Related.yields {x : Body ι ρ α} {y : Body ι' ρ' α'} {a : α} (h : x.Related I J K y)
    (hR : ∀ i j r, I i j → R i r → ∃ r', R' j r' ∧ J r r') (hx : x.Yields R a) :
    ∃ b, y.Yields R' b ∧ K a b := by
  induction x generalizing y with
  | ret a' =>
    cases y with
    | ret b =>
      obtain rfl : a = a' := hx
      exact ⟨b, rfl, h⟩
    | call j k' => exact h.elim
  | call i k ih =>
    cases y with
    | ret b => exact h.elim
    | call j k' =>
      obtain ⟨r, hr, hk⟩ := hx
      obtain ⟨r', hr', hJ⟩ := hR i j r h.1 hr
      obtain ⟨b, hb, hK⟩ := ih r (h.2 r r' hJ) hk
      exact ⟨b, ⟨r', hr', hb⟩, hK⟩

end Related

end Verif
