/-
# Computations that keep a log

A computation on a state `σ` that can fail, and that logs what it does on the way.  What it has
logged is kept when it fails.

A parser or a driver is modelled twice with it: once for what it returns and once for what it does
to its buffers on the way there.  The log is where a claim on the way (no byte is stored behind the
end, no stream is left open) is stated, and it is the same computation that returns the result.

* §1: the monad, and what of a sequence goes where: the outcome of `w >>= f` is that of the plain
  computations (`bind_snd`), its log is the first log and then the second one (`bind_of_ok`,
  `bind_of_error`).
* §2: metering.  A `Meter` has an invariant of the state, a budget, failures that do not occur, and
  a relation that says which logs lead from one state to another.  `Metered s k w`: from `s`, the
  computation `w` does not fail in such a way, keeps the invariant, leaves such a log, and takes at
  least `k` from the budget when it succeeds.  Loops and recursions with a fuel are metered by
  induction on the fuel, which the budget bounds.
* §3: keeping.  `Keeps I E G s w`: from `s`, the computation `w` logs nothing but `G`, ends within
  `I`, and fails with `E`.  It says nothing of what is used up, so that loops are kept for any fuel.
-/
import Libu.Verif.Outcome

namespace Verif

/-! ## 1. The monad -/

/-- A computation on states `σ` with a log of `ω`. -/
def Logged (ε σ ω : Type) (α : Type) : Type := σ → List ω × Except ε (σ × α)

namespace Logged

variable {ε σ ω : Type} {α β : Type}

instance : Monad (Logged ε σ ω) where
  pure a := fun s => ([], .ok (s, a))
  bind w f := fun s =>
    match w s with
    | (es, .ok (s', a)) => (es ++ (f a s').1, (f a s').2)
    | (es, .error e) => (es, .error e)

def fail (e : ε) : Logged ε σ ω α := fun _ => ([], .error e)

def get : Logged ε σ ω σ := fun s => ([], .ok (s, s))

def modify (f : σ → σ) : Logged ε σ ω Unit := fun s => ([], .ok (f s, ()))

def log (es : List ω) : Logged ε σ ω Unit := fun s => (es, .ok (s, ()))

variable {w : Logged ε σ ω α} {f : α → Logged ε σ ω β} {s s' : σ} {a : α} {e : ε}

@[simp] theorem pure_apply (a : α) (s : σ) : (pure a : Logged ε σ ω α) s = ([], .ok (s, a)) := rfl

@[simp] theorem fail_apply (e : ε) (s : σ) : (fail e : Logged ε σ ω α) s = ([], .error e) := rfl

@[simp] theorem get_apply (s : σ) : (get : Logged ε σ ω σ) s = ([], .ok (s, s)) := rfl

@[simp] theorem modify_apply (f : σ → σ) (s : σ) :
    (modify f : Logged ε σ ω Unit) s = ([], .ok (f s, ())) := rfl

@[simp] theorem log_apply (es : List ω) (s : σ) :
    (log es : Logged ε σ ω Unit) s = (es, .ok (s, ())) := rfl

/-- Where the first step succeeds, its log comes first, and the rest is what the second step does
from there. -/
theorem bind_of_ok (h : (w s).2 = .ok (s', a)) :
    (w >>= f) s = ((w s).1 ++ (f a s').1, (f a s').2) := by
  obtain ⟨es, hw⟩ : ∃ es, w s = (es, .ok (s', a)) := ⟨(w s).1, Prod.ext rfl h⟩
  simp only [bind, hw]

/-- Where the first step fails, its log is all there is. -/
theorem bind_of_error (h : (w s).2 = .error e) : (w >>= f) s = ((w s).1, .error e) := by
  obtain ⟨es, hw⟩ : ∃ es, w s = (es, .error e) := ⟨(w s).1, Prod.ext rfl h⟩
  simp only [bind, hw]

@[simp] theorem get_bind {f : σ → Logged ε σ ω β} : (get >>= f) s = f s s := bind_of_ok rfl

/-- Without their logs, computations are sequenced like any that can fail. -/
theorem bind_snd : ((w >>= f) s).2 = (w s).2 >>= fun p => (f p.2 p.1).2 := by
  cases h : (w s).2 with
  | ok p => rw [bind_of_ok h]; rfl
  | error e => rw [bind_of_error h]; rfl

/-- What the first step logs is logged. -/
theorem mem_bind_left {x : ω} (h : x ∈ (w s).1) : x ∈ ((w >>= f) s).1 := by
  cases hw : (w s).2 with
  | ok p => rw [bind_of_ok hw]; exact List.mem_append_left _ h
  | error e => rwa [bind_of_error hw]

/-- What the second step logs is logged, if it is come to. -/
theorem mem_bind_right {x : ω} (hw : (w s).2 = .ok (s', a)) (h : x ∈ (f a s').1) :
    x ∈ ((w >>= f) s).1 := by
  rw [bind_of_ok hw]
  exact List.mem_append_right _ h

/-- What is logged is logged by the first step, or by the second one. -/
theorem mem_bind {x : ω} (h : x ∈ ((w >>= f) s).1) :
    x ∈ (w s).1 ∨ ∃ s' a, (w s).2 = .ok (s', a) ∧ x ∈ (f a s').1 := by
  cases hw : (w s).2 with
  | ok p =>
    rw [bind_of_ok hw] at h
    exact (List.mem_append.mp h).imp_right fun h => ⟨p.1, p.2, rfl, h⟩
  | error e =>
    rw [bind_of_error hw] at h
    exact .inl h

theorem bind_pure_apply : (w >>= fun a => pure a) s = w s := by
  cases h : (w s).2 with
  | ok p => rw [bind_of_ok h, pure_apply, List.append_nil, ← h]
  | error e => rw [bind_of_error h, ← h]

/-- Three steps in a row. -/
theorem bind_assoc_apply {γ : Type} {g : β → Logged ε σ ω γ} :
    (w >>= f >>= g) s = (w >>= fun a => f a >>= g) s := by
  cases h : (w s).2 with
  | error e =>
    have hf : ((w >>= f) s).2 = .error e := by rw [bind_of_error h]
    rw [bind_of_error hf, bind_of_error h, bind_of_error h]
  | ok p =>
    rw [bind_of_ok (f := fun a => f a >>= g) h]
    cases h' : (f p.2 p.1).2 with
    | error e =>
      have hf : ((w >>= f) s).2 = .error e := by rw [bind_of_ok h, h']
      rw [bind_of_error h', bind_of_error hf, bind_of_ok h]
    | ok q =>
      have hf : ((w >>= f) s).2 = .ok q := by rw [bind_of_ok h, h']
      rw [bind_of_ok h', bind_of_ok hf, bind_of_ok h, List.append_assoc]

instance : LawfulMonad (Logged ε σ ω) :=
  LawfulMonad.mk' _ (fun _ => funext fun _ => bind_pure_apply) (fun _ _ => rfl)
    fun _ _ _ => funext fun _ => bind_assoc_apply

/-- `x` is logged in no run of `w`. -/
def Avoids (x : ω) (w : Logged ε σ ω α) : Prop := ∀ s, x ∉ (w s).1

section

variable {x : ω}

/-- Returning logs nothing, and so it avoids every event. -/
theorem avoids_pure (a : α) : Avoids x (pure a : Logged ε σ ω α) := fun _ => List.not_mem_nil

theorem avoids_fail (e : ε) : Avoids x (fail e : Logged ε σ ω α) := fun _ => List.not_mem_nil

theorem avoids_get : Avoids x (get : Logged ε σ ω σ) := fun _ => List.not_mem_nil

theorem avoids_modify (g : σ → σ) : Avoids x (modify g : Logged ε σ ω Unit) :=
  fun _ => List.not_mem_nil

/-- What is not among the events is not logged. -/
theorem avoids_log {es : List ω} (h : x ∉ es) : Avoids x (log es : Logged ε σ ω Unit) := fun _ => h

/-- Two steps avoid what both avoid. -/
theorem Avoids.bind (h : Avoids x w) (hf : ∀ a, Avoids x (f a)) : Avoids x (w >>= f) := by
  intro s hx
  rcases mem_bind hx with hx | ⟨s', a, -, hx⟩
  · exact h s hx
  · exact hf a s' hx

/-- Behind a step that does not log `x`, it is logged by the rest. -/
theorem Avoids.mem_bind (h : Avoids x w) (hx : x ∈ ((w >>= f) s).1) :
    ∃ s' a, (w s).2 = .ok (s', a) ∧ x ∈ (f a s').1 :=
  (Logged.mem_bind hx).resolve_left (h s)

/-- Two computations do the same, unless they log `x`. -/
def SameUnless (x : ω) (w w' : Logged ε σ ω α) : Prop :=
  ∀ s, w s = w' s ∨ x ∈ (w s).1 ∧ x ∈ (w' s).1

variable {w' : Logged ε σ ω α} {f' : α → Logged ε σ ω β}

/-- A computation does what it does. -/
theorem SameUnless.refl (w : Logged ε σ ω α) : SameUnless x w w := fun _ => .inl rfl

/-- **Two sequences do the same if their steps do**, unless one of the steps logs `x`; then both do.
-/
theorem SameUnless.bind (h : SameUnless x w w') (hf : ∀ a, SameUnless x (f a) (f' a)) :
    SameUnless x (w >>= f) (w' >>= f') := by
  intro s
  rcases h s with h | ⟨h, h'⟩
  · cases hw : (w s).2 with
    | error e => exact .inl (by rw [bind_of_error hw, bind_of_error (h ▸ hw), h])
    | ok p =>
      rw [bind_of_ok hw, bind_of_ok (h ▸ hw), h]
      rcases hf p.2 p.1 with hf | ⟨hf, hf'⟩
      · exact .inl (by rw [hf])
      · exact .inr ⟨List.mem_append_right _ hf, List.mem_append_right _ hf'⟩
  · exact .inr ⟨mem_bind_left h, mem_bind_left h'⟩

/-- What one of them logs up to there, the other logs. -/
theorem SameUnless.mem_iff (h : SameUnless x w w') : x ∈ (w s).1 ↔ x ∈ (w' s).1 := by
  rcases h s with h | ⟨h, h'⟩
  · rw [h]
  · exact iff_of_true h h'

end

end Logged

/-! ## 2. Metering -/

/-- What is kept, what is used up, and which logs lead from state to state. -/
structure Meter (ε σ ω : Type) where
  Inv : σ → Prop
  left : σ → Nat
  Stuck : ε → Prop
  Leads : σ → List ω → σ → Prop
  refl : ∀ s, Inv s → Leads s [] s
  trans : ∀ {s s' s'' es es'}, Leads s es s' → Leads s' es' s'' → Leads s (es ++ es') s''

section Metered

variable {ε σ ω : Type} {α β : Type} {M : Meter ε σ ω} {s : σ} {j k n : Nat}

/-- From `s`, the computation goes on to its end within the invariant, and takes at least `k`. -/
structure Metered (M : Meter ε σ ω) (s : σ) (k : Nat) (w : Logged ε σ ω α) : Prop where
  ok : ∀ s' a, (w s).2 = .ok (s', a) → M.Inv s' ∧ M.left s' + k ≤ M.left s ∧ M.Leads s (w s).1 s'
  stop : ∀ e, (w s).2 = .error e → ¬ M.Stuck e ∧ ∃ s', M.Inv s' ∧ M.Leads s (w s).1 s'

variable {w : Logged ε σ ω α} {f : α → Logged ε σ ω β}

/-- Less may be said to be taken. -/
theorem Metered.mono (h : Metered M s k w) (hjk : j ≤ k) : Metered M s j w := by
  refine ⟨fun s' a hw => ?_, h.stop⟩
  obtain ⟨hinv, hleft, hlog⟩ := h.ok s' a hw
  exact ⟨hinv, by omega, hlog⟩

/-- Returning takes nothing and logs nothing. -/
theorem metered_pure (hs : M.Inv s) (a : α) : Metered M s 0 (pure a) := by
  refine ⟨fun s' b h => ?_, fun e h => ?_⟩
  · obtain ⟨rfl, -⟩ : s = s' ∧ a = b := by simpa using h
    exact ⟨hs, le_refl _, M.refl s hs⟩
  · cases h

/-- Failing in a way that may occur: it takes whatever is asked, since it does not succeed. -/
theorem metered_fail (hs : M.Inv s) {e : ε} (he : ¬ M.Stuck e) :
    Metered M s k (Logged.fail e : Logged ε σ ω α) := by
  refine ⟨fun s' b h => ?_, fun e' h => ?_⟩
  · cases h
  · obtain rfl : e = e' := by simpa using h
    exact ⟨he, s, hs, M.refl s hs⟩

/-- Events that lead from the state to itself. -/
theorem metered_log (hs : M.Inv s) {es : List ω} (h : M.Leads s es s) :
    Metered M s 0 (Logged.log es : Logged ε σ ω Unit) := by
  refine ⟨fun s' b hb => ?_, fun e he => ?_⟩
  · obtain rfl : s = s' := by simpa using hb
    exact ⟨hs, le_refl _, h⟩
  · cases he

/-- A change of the state that keeps the invariant, takes its part of the budget, and needs no
event. -/
theorem metered_modify {g : σ → σ} (hs : M.Inv (g s)) (hleft : M.left (g s) + k ≤ M.left s)
    (h : M.Leads s [] (g s)) : Metered M s k (Logged.modify g : Logged ε σ ω Unit) := by
  refine ⟨fun s' b hb => ?_, fun e he => ?_⟩
  · obtain rfl : g s = s' := by simpa using hb
    exact ⟨hs, hleft, h⟩
  · cases he

/-- What is taken may be known from the result alone. -/
theorem Metered.takes (h : Metered M s 0 w)
    (hk : ∀ s' a, (w s).2 = .ok (s', a) → M.left s' + k ≤ M.left s) : Metered M s k w := by
  refine ⟨fun s' a hw => ?_, h.stop⟩
  obtain ⟨hinv, -, hlog⟩ := h.ok s' a hw
  exact ⟨hinv, hk s' a hw, hlog⟩

/-- Only the run from `s` matters. -/
theorem Metered.congr {w' : Logged ε σ ω α} (h : Metered M s k w) (hw : w' s = w s) :
    Metered M s k w' := by
  refine ⟨?_, ?_⟩
  · rw [hw]
    exact h.ok
  · rw [hw]
    exact h.stop

/-- Looking at the state: the rest is metered from there. -/
theorem Metered.get_bind {f : σ → Logged ε σ ω β} (h : Metered M s k (f s)) :
    Metered M s k (Logged.get >>= f) :=
  h.congr Logged.get_bind

/-- **A sequence is metered when its steps are**, and takes what both take. -/
theorem Metered.bind (h : Metered M s j w)
    (hf : ∀ s' a, (w s).2 = .ok (s', a) → M.Inv s' → M.left s' + j ≤ M.left s →
      Metered M s' k (f a)) : Metered M s (j + k) (w >>= f) := by
  cases hw : (w s).2 with
  | error e =>
    refine ⟨fun s' b hb => ?_, fun e' he' => ?_⟩
    · rw [Logged.bind_of_error hw] at hb
      cases hb
    · rw [Logged.bind_of_error hw] at he' ⊢
      obtain rfl : e = e' := by simpa using he'
      exact h.stop e hw
  | ok p =>
    obtain ⟨s₁, a⟩ := p
    obtain ⟨hinv, hleft, hlog⟩ := h.ok s₁ a hw
    have h₂ := hf s₁ a hw hinv hleft
    refine ⟨fun s' b hb => ?_, fun e he => ?_⟩
    · rw [Logged.bind_of_ok hw] at hb ⊢
      obtain ⟨hinv', hleft', hlog'⟩ := h₂.ok s' b hb
      exact ⟨hinv', by omega, M.trans hlog hlog'⟩
    · rw [Logged.bind_of_ok hw] at he ⊢
      obtain ⟨hne, s', hinv', hlog'⟩ := h₂.stop e he
      exact ⟨hne, s', hinv', M.trans hlog hlog'⟩

/-- A first step that takes nothing. -/
theorem Metered.bind_free (h : Metered M s 0 w)
    (hf : ∀ s' a, (w s).2 = .ok (s', a) → M.Inv s' → M.left s' ≤ M.left s → Metered M s' k (f a)) :
    Metered M s k (w >>= f) := by
  have hbind := h.bind (k := k) hf
  rwa [Nat.zero_add] at hbind

end Metered

/-! ## 3. Keeping -/

section Keeps

variable {ε σ ω : Type} {α β : Type} {I : σ → Prop} {E : ε → Prop} {G : ω → Prop} {s : σ}

/-- From `s`, nothing but `G` is logged, and the computation ends within `I` or fails with `E`. -/
structure Keeps (I : σ → Prop) (E : ε → Prop) (G : ω → Prop) (s : σ) (w : Logged ε σ ω α) :
    Prop where
  logs : ∀ x ∈ (w s).1, G x
  ok : ∀ s' a, (w s).2 = .ok (s', a) → I s'
  error : ∀ e, (w s).2 = .error e → E e

variable {w : Logged ε σ ω α} {f : α → Logged ε σ ω β}

/-- Returning keeps where it is. -/
theorem keeps_pure (hs : I s) (a : α) : Keeps I E G s (pure a) := by
  refine ⟨fun x hx => absurd hx List.not_mem_nil, fun s' b h => ?_, fun e h => ?_⟩
  · obtain ⟨rfl, -⟩ : s = s' ∧ a = b := by simpa using h
    exact hs
  · cases h

/-- A failure of the kind that is allowed. -/
theorem keeps_fail {e : ε} (he : E e) : Keeps I E G s (Logged.fail e : Logged ε σ ω α) := by
  refine ⟨fun x hx => absurd hx List.not_mem_nil, fun s' b h => ?_, fun e' h => ?_⟩
  · cases h
  · obtain rfl : e = e' := by simpa using h
    exact he

/-- Looking at the state: the rest is kept from there. -/
theorem Keeps.get_bind {f : σ → Logged ε σ ω β} (h : Keeps I E G s (f s)) :
    Keeps I E G s (Logged.get >>= f) := by
  have heq : (Logged.get >>= f) s = f s s := Logged.get_bind
  refine ⟨?_, ?_, ?_⟩
  · rw [heq]
    exact h.logs
  · rw [heq]
    exact h.ok
  · rw [heq]
    exact h.error

/-- **A sequence keeps what its steps keep.** -/
theorem Keeps.bind (h : Keeps I E G s w)
    (hf : ∀ s' a, (w s).2 = .ok (s', a) → I s' → Keeps I E G s' (f a)) :
    Keeps I E G s (w >>= f) := by
  cases hw : (w s).2 with
  | error e =>
    refine ⟨?_, fun s' b hb => ?_, fun e' he' => ?_⟩
    · rw [Logged.bind_of_error hw]
      exact h.logs
    · rw [Logged.bind_of_error hw] at hb
      cases hb
    · rw [Logged.bind_of_error hw] at he'
      obtain rfl : e = e' := by simpa using he'
      exact h.error e hw
  | ok p =>
    obtain ⟨s₁, a⟩ := p
    have h₂ := hf s₁ a hw (h.ok s₁ a hw)
    have heq := Logged.bind_of_ok (f := f) hw
    refine ⟨fun x hx => ?_, ?_, ?_⟩
    · rw [heq] at hx
      rcases List.mem_append.mp hx with hx | hx
      · exact h.logs x hx
      · exact h₂.logs x hx
    · rw [heq]
      exact h₂.ok
    · rw [heq]
      exact h₂.error

end Keeps

end Verif
