/-
# Failing computations and the condition under which they succeed

A matcher of a recursive descent parser is a computation in `Except`: it fails, or it returns what
it has read.  `Outcome m good P` says all there is to say about one run of it: it succeeds if and
only if `good` holds, and then its result satisfies `P`.  Outcomes are composed along `>>=`, and
the condition of a sequence is the conjunction of the conditions of its steps, so that the
condition of a whole parse is assembled from those of its terminals.
-/
import Mathlib.Data.List.TakeWhile

namespace Verif

universe u

variable {ε : Type*} {α β : Type u}

/-! ## 1. Outcomes -/

/-- `m` succeeds exactly when `good` holds, with a result in `P`. -/
structure Outcome (m : Except ε α) (good : Prop) (P : α → Prop) : Prop where
  ok : good → ∃ a, m = .ok a ∧ P a
  good : ∀ a, m = .ok a → good

section Outcome

variable {m : Except ε α} {f : α → Except ε β} {good good' : Prop} {P P' : α → Prop} {Q : β → Prop}

/-- Returning succeeds without a condition. -/
theorem Outcome.pure {a : α} (h : P a) : Outcome (.ok a : Except ε α) True P :=
  ⟨fun _ => ⟨a, rfl, h⟩, fun _ _ => trivial⟩

/-- Failing is right where the condition does not hold. -/
theorem Outcome.error {e : ε} (h : ¬ good) : Outcome (.error e : Except ε α) good P :=
  ⟨fun hg => absurd hg h, fun _ he => nomatch he⟩

/-- A result that is known, whatever the condition says of it. -/
theorem Outcome.of_eq {a : α} (h : m = .ok a) (hP : P a) : Outcome m True P :=
  ⟨fun _ => ⟨a, h, hP⟩, fun _ _ => trivial⟩

/-- The condition may be put in other words. -/
theorem Outcome.congr (h : Outcome m good P) (hg : good ↔ good') : Outcome m good' P :=
  ⟨fun hg' => h.ok (hg.mpr hg'), fun a ha => hg.mp (h.good a ha)⟩

/-- Less may be said of the result. -/
theorem Outcome.imp (h : Outcome m good P) (hP : ∀ a, P a → P' a) : Outcome m good P' := by
  refine ⟨fun hg => ?_, h.good⟩
  obtain ⟨a, ha, hPa⟩ := h.ok hg
  exact ⟨a, ha, hP a hPa⟩

/-- The result of a successful run is the one the outcome speaks of. -/
theorem Outcome.post (h : Outcome m good P) {a : α} (ha : m = .ok a) : P a := by
  obtain ⟨a', ha', hP⟩ := h.ok (h.good a ha)
  rw [ha, Except.ok.injEq] at ha'
  exact ha' ▸ hP

/-- Two successes in a row. -/
@[simp] theorem ok_bind (a : α) (f : α → Except ε β) : ((.ok a : Except ε α) >>= f) = f a := rfl

/-- A sequence succeeds if and only if both of its steps do. -/
theorem bind_eq_ok {b : β} : m >>= f = .ok b ↔ ∃ a, m = .ok a ∧ f a = .ok b := by
  cases m with
  | error e => exact ⟨fun h => (nomatch h), fun ⟨_, h, _⟩ => (nomatch h)⟩
  | ok a =>
    refine ⟨fun h => ⟨a, rfl, h⟩, ?_⟩
    rintro ⟨a', ha', hf⟩
    rw [Except.ok.injEq] at ha'
    exact ha' ▸ hf

/-- **A sequence succeeds when its steps do.**  The second step may rely on the first one. -/
theorem Outcome.bind (h : Outcome m good P)
    (hf : good → ∀ a, P a → Outcome (f a) good' Q) : Outcome (m >>= f) (good ∧ good') Q := by
  refine ⟨?_, ?_⟩
  · rintro ⟨hg, hg'⟩
    obtain ⟨a, ha, hP⟩ := h.ok hg
    obtain ⟨b, hb, hQ⟩ := (hf hg a hP).ok hg'
    exact ⟨b, bind_eq_ok.mpr ⟨a, ha, hb⟩, hQ⟩
  · intro b hb
    obtain ⟨a, ha, hfa⟩ := bind_eq_ok.mp hb
    have hg := h.good a ha
    exact ⟨hg, (hf hg a (h.post ha)).good b hfa⟩

/-- A first step that always succeeds adds no condition. -/
theorem Outcome.bind_of_eq {a : α} (h : m = .ok a) (hf : Outcome (f a) good' Q) :
    Outcome (m >>= f) good' Q := by
  rw [h]
  exact hf

end Outcome

/-! ## 2. Characters of a class at the front of a text -/

section Front

variable {p : α → Bool} {w x : List α}

/-- All characters of `w` are in the class. -/
def AllIn (p : α → Bool) (w : List α) : Prop := ∀ c ∈ w, p c = true

instance : Decidable (AllIn p w) := inferInstanceAs (Decidable (∀ c ∈ w, p c = true))

@[simp] theorem allIn_nil : AllIn p [] := fun _ h => nomatch h

@[simp] theorem allIn_cons {a : α} : AllIn p (a :: w) ↔ p a = true ∧ AllIn p w :=
  List.forall_mem_cons

@[simp] theorem allIn_append : AllIn p (w ++ x) ↔ AllIn p w ∧ AllIn p x :=
  List.forall_mem_append

/-- The class stops at the head of `x`, or `x` is empty. -/
def Stops (p : α → Bool) (x : List α) : Prop := ∀ a ∈ x.head?, p a = false

@[simp] theorem stops_nil : Stops p [] := fun _ h => nomatch h

@[simp] theorem stops_cons {a : α} : Stops p (a :: x) ↔ p a = false := by simp [Stops]

theorem Stops.dropWhile (h : Stops p x) : x.dropWhile p = x := by
  cases x with
  | nil => rfl
  | cons a x => simp [stops_cons.mp h]

/-- A front in the class is passed over. -/
theorem dropWhile_append (hw : AllIn p w) : (w ++ x).dropWhile p = x.dropWhile p :=
  List.dropWhile_append_of_pos hw

/-- A front in the class is what is taken, where the class stops behind it. -/
theorem takeWhile_append (hw : AllIn p w) (hx : Stops p x) : (w ++ x).takeWhile p = w := by
  have htake : x.takeWhile p = [] := by
    cases x with
    | nil => rfl
    | cons a x => simp [stops_cons.mp hx]
  rw [List.takeWhile_append_of_pos hw, htake, List.append_nil]

theorem allIn_takeWhile : AllIn p (x.takeWhile p) := fun _ h => List.mem_takeWhile_imp h

/-- The class stops behind what was passed over. -/
theorem stops_dropWhile : Stops p (x.dropWhile p) := by
  induction x with
  | nil => exact stops_nil
  | cons a x ih =>
    rw [List.dropWhile_cons]
    split
    · exact ih
    · exact stops_cons.mpr (Bool.eq_false_iff.mpr ‹_›)

/-- A text is its front in the class and what follows. -/
theorem exists_front (p : α → Bool) (x : List α) : ∃ w, AllIn p w ∧ x = w ++ x.dropWhile p :=
  ⟨x.takeWhile p, allIn_takeWhile, List.takeWhile_append_dropWhile.symm⟩

end Front

end Verif
