/-
# Protocols of logs

A protocol is a partial automaton `next : κ → ω → Option κ` on phases `κ`: which events are allowed
in a phase, and which phase they lead to.

* §1: a log that keeps to a protocol leads from one phase to one other (`Follows`).
* §2: computations with a log.  `Typed next p s w Q E`: from the state `s` in the phase `p`, all
  that `w` logs is allowed, also when it fails; where it ends is in `Q`, where it fails is in `E`.
  There is one rule for each operation of the monad.
-/
import Libu.Verif.Logged

namespace Verif

variable {ω κ : Type} {next : κ → ω → Option κ} {p q r : κ} {x : ω} {es es' : List ω}

/-! ## 1. Logs -/

/-- From `p`, the log is allowed, and leads to `q`. -/
def Follows (next : κ → ω → Option κ) (p : κ) (es : List ω) (q : κ) : Prop :=
  es.foldlM next p = some q

/-- An empty log stays in its phase. -/
theorem follows_nil (next : κ → ω → Option κ) (p : κ) : Follows next p [] p := rfl

@[simp] theorem follows_nil_iff : Follows next p [] q ↔ p = q := by
  simp [Follows]

@[simp] theorem follows_singleton : Follows next p [x] q ↔ next p x = some q := by
  simp [Follows]

/-- The first event is allowed, and the rest is from where it leads. -/
theorem follows_cons :
    Follows next p (x :: es) r ↔ ∃ q, next p x = some q ∧ Follows next q es r := by
  simp [Follows, Option.bind_eq_some_iff]

/-- Two logs in a row, with a phase between them. -/
theorem follows_append :
    Follows next p (es ++ es') r ↔ ∃ q, Follows next p es q ∧ Follows next q es' r := by
  simp [Follows, Option.bind_eq_some_iff]

theorem Follows.append (h : Follows next p es q) (h' : Follows next q es' r) :
    Follows next p (es ++ es') r := follows_append.mpr ⟨q, h, h'⟩

/-! ## 2. Computations -/

variable {ε σ α β : Type} {s s' : σ} {a : α}

/-- What `w` logs from `s` is allowed in the phase `p`; it ends within `Q`, or fails within `E`. -/
structure Typed (next : κ → ω → Option κ) (p : κ) (s : σ) (w : Logged ε σ ω α)
    (Q : α → σ → κ → Prop) (E : ε → κ → Prop) : Prop where
  ok : ∀ s' a, (w s).2 = .ok (s', a) → ∃ q, Follows next p (w s).1 q ∧ Q a s' q
  error : ∀ e, (w s).2 = .error e → ∃ q, Follows next p (w s).1 q ∧ E e q

variable {w : Logged ε σ ω α} {f : α → Logged ε σ ω β} {Q Q' : α → σ → κ → Prop}
  {R : β → σ → κ → Prop} {E E' : ε → κ → Prop}

/-- All that is logged is allowed. -/
theorem Typed.follows (h : Typed next p s w Q E) : ∃ q, Follows next p (w s).1 q := by
  cases hw : (w s).2 with
  | ok r =>
    obtain ⟨q, hq, -⟩ := h.ok r.1 r.2 hw
    exact ⟨q, hq⟩
  | error e =>
    obtain ⟨q, hq, -⟩ := h.error e hw
    exact ⟨q, hq⟩

/-- Less may be asked of where it ends. -/
theorem Typed.mono (h : Typed next p s w Q E) (hQ : ∀ a s q, Q a s q → Q' a s q)
    (hE : ∀ e q, E e q → E' e q) : Typed next p s w Q' E' := by
  refine ⟨fun s' a hw => ?_, fun e hw => ?_⟩
  · obtain ⟨q, hq, hQq⟩ := h.ok s' a hw
    exact ⟨q, hq, hQ a s' q hQq⟩
  · obtain ⟨q, hq, hEq⟩ := h.error e hw
    exact ⟨q, hq, hE e q hEq⟩

theorem Typed.weaken (h : Typed next p s w Q E) (hQ : ∀ a s q, Q a s q → Q' a s q) :
    Typed next p s w Q' E := h.mono hQ fun _ _ hE => hE

/-- Returning stays in its phase. -/
theorem typed_pure (hQ : Q a s p) : Typed next p s (pure a : Logged ε σ ω α) Q E := by
  refine ⟨fun s' b hb => ?_, fun e he => ?_⟩
  · obtain ⟨rfl, rfl⟩ : s = s' ∧ a = b := by simpa using hb
    exact ⟨p, follows_nil next p, hQ⟩
  · cases he

/-- Failing does as well. -/
theorem typed_fail {e : ε} (hE : E e p) : Typed next p s (Logged.fail e : Logged ε σ ω α) Q E := by
  refine ⟨fun s' b hb => ?_, fun e' he => ?_⟩
  · cases hb
  · obtain rfl : e = e' := by simpa using he
    exact ⟨p, follows_nil next p, hE⟩

/-- Changing the state is no event. -/
theorem typed_modify {g : σ → σ} {Q : Unit → σ → κ → Prop} (hQ : Q () (g s) p) :
    Typed next p s (Logged.modify g : Logged ε σ ω Unit) Q E := by
  refine ⟨fun s' b hb => ?_, fun e he => ?_⟩
  · obtain rfl : g s = s' := by simpa using hb
    exact ⟨p, follows_nil next p, hQ⟩
  · cases he

/-- **A sequence keeps to the protocol when its steps do**, each from where the one before ends. -/
theorem Typed.bind (h : Typed next p s w Q E)
    (hf : ∀ a s' q, Q a s' q → Typed next q s' (f a) R E) : Typed next p s (w >>= f) R E := by
  cases hw : (w s).2 with
  | error e =>
    refine ⟨fun s' b hb => ?_, fun e' he => ?_⟩
    · rw [Logged.bind_of_error hw] at hb
      cases hb
    · rw [Logged.bind_of_error hw] at he ⊢
      obtain rfl : e = e' := by simpa using he
      exact h.error e hw
  | ok r =>
    obtain ⟨q, hq, hQ⟩ := h.ok r.1 r.2 hw
    have hrest := hf r.2 r.1 q hQ
    refine ⟨fun s' b hb => ?_, fun e he => ?_⟩
    · rw [Logged.bind_of_ok hw] at hb ⊢
      obtain ⟨q', hq', hR⟩ := hrest.ok s' b hb
      exact ⟨q', hq.append hq', hR⟩
    · rw [Logged.bind_of_ok hw] at he ⊢
      obtain ⟨q', hq', hE⟩ := hrest.error e he
      exact ⟨q', hq.append hq', hE⟩

theorem Typed.get_bind {f : σ → Logged ε σ ω β} (h : Typed next p s (f s) R E) :
    Typed next p s (Logged.get >>= f) R E := by
  have heq : (Logged.get >>= f) s = f s s := Logged.get_bind
  refine ⟨?_, ?_⟩
  · rw [heq]
    exact h.ok
  · rw [heq]
    exact h.error

end Verif
