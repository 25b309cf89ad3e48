/-
# Counting with the letters of an alphabet

A word over an alphabet is a number written with the least significant letter first.

* §1: the word of a number; no two numbers have the same (`word_inj`).
* §2: the number of a word, and the next word, found letter by letter.
* §3: the next word is that of the next number (`next_spec`).
-/
import Mathlib.Data.List.Basic
import Mathlib.Data.List.GetD
import Mathlib.Data.List.Nodup
import Mathlib.Data.Nat.Digits.Defs

namespace Verif

namespace Odometer

variable {α : Type}

/-! ## 1. Words -/

/-- The word of `k` letters of a number. -/
def word (zero : α) (rest : List α) : Nat → Nat → List α
  | 0, _ => []
  | k + 1, n => (zero :: rest).getD (n % (rest.length + 1)) zero ::
      word zero rest k (n / (rest.length + 1))

theorem length_word (zero : α) (rest : List α) (k n : Nat) : (word zero rest k n).length = k := by
  induction k generalizing n with
  | zero => rfl
  | succ k ih => rw [word, List.length_cons, ih]

/-- **No two numbers have the same word.** -/
theorem word_inj {zero : α} {rest : List α} (hnodup : (zero :: rest).Nodup) {k m n : Nat}
    (hm : m < (rest.length + 1) ^ k) (hn : n < (rest.length + 1) ^ k)
    (h : word zero rest k m = word zero rest k n) : m = n := by
  induction k generalizing m n with
  | zero =>
    rw [pow_zero] at hm hn
    omega
  | succ k ih =>
    obtain ⟨hhead, htail⟩ := List.cons.inj h
    have hmod : m % (rest.length + 1) = n % (rest.length + 1) := by
      have hlt : ∀ i, i % (rest.length + 1) < (zero :: rest).length := fun i =>
        Nat.mod_lt _ (Nat.succ_pos _)
      rw [List.getD_eq_getElem _ _ (hlt m), List.getD_eq_getElem _ _ (hlt n)] at hhead
      exact (List.Nodup.getElem_inj_iff hnodup).mp hhead
    have hdiv := ih (m := m / (rest.length + 1)) (n := n / (rest.length + 1))
      (Nat.div_lt_of_lt_mul (by rwa [pow_succ, Nat.mul_comm] at hm))
      (Nat.div_lt_of_lt_mul (by rwa [pow_succ, Nat.mul_comm] at hn)) htail
    rw [← Nat.div_add_mod m (rest.length + 1), ← Nat.div_add_mod n (rest.length + 1), hmod, hdiv]

/-! ## 2. Numbers -/

variable [DecidableEq α]

/-- The letter behind `a` in the alphabet. -/
def after (abc : List α) (a : α) : Option α := (abc.dropWhile (· ≠ a)).tail.head?

/-- The next word: a letter that is the last one becomes the first one, and the next letter moves
on.  There is none behind the word of last letters. -/
def next (zero : α) (rest : List α) : List α → Option (List α)
  | [] => none
  | a :: w =>
    match after (zero :: rest) a with
    | some b => some (b :: w)
    | none => (next zero rest w).map (zero :: ·)

/-- The number of a word. -/
def value (abc w : List α) : Nat := Nat.ofDigits abc.length (w.map abc.idxOf)

variable {abc rest w w' : List α} {zero a b : α}

/-! ## 3. The next word -/

theorem dropWhile_ne (abc : List α) (a : α) : abc.dropWhile (· ≠ a) = abc.drop (abc.idxOf a) := by
  induction abc with
  | nil => rfl
  | cons c abc ih =>
    by_cases hc : c = a
    · simp [hc]
    · rw [List.dropWhile_cons_of_pos (by simp [hc]), ih, List.idxOf_cons_ne _ hc,
        List.drop_succ_cons]

/-- The letter behind `a` is the one at the next place. -/
theorem after_eq (abc : List α) (a : α) : after abc a = abc[abc.idxOf a + 1]? := by
  rw [after, dropWhile_ne, List.tail_drop, List.head?_drop]

/-- Where there is a letter behind `a`, its number is one more. -/
theorem after_some (hnodup : abc.Nodup) (h : after abc a = some b) :
    b ∈ abc ∧ abc.idxOf b = abc.idxOf a + 1 := by
  rw [after_eq] at h
  obtain ⟨hlt, rfl⟩ := List.getElem?_eq_some_iff.mp h
  exact ⟨List.getElem_mem hlt, hnodup.idxOf_getElem _ hlt⟩

/-- Where there is none, `a` is the last. -/
theorem after_none (ha : a ∈ abc) (h : after abc a = none) : abc.idxOf a + 1 = abc.length := by
  rw [after_eq, List.getElem?_eq_none_iff] at h
  have := List.idxOf_lt_length_iff.mpr ha
  omega

/-- The number of a word, letter by letter. -/
theorem value_cons (abc : List α) (a : α) (w : List α) :
    value abc (a :: w) = abc.idxOf a + abc.length * value abc w := by
  rw [value, List.map_cons, Nat.ofDigits_cons]
  rfl

/-- **The next word has the next number**, and there is none just when the number is the last. -/
theorem next_spec (hnodup : (zero :: rest).Nodup) (hw : ∀ a ∈ w, a ∈ zero :: rest) :
    (∀ w', next zero rest w = some w' → w'.length = w.length ∧ (∀ a ∈ w', a ∈ zero :: rest) ∧
      value (zero :: rest) w' = value (zero :: rest) w + 1) ∧
    (next zero rest w = none → value (zero :: rest) w + 1 = (rest.length + 1) ^ w.length) := by
  induction w with
  | nil => exact ⟨fun w' h => (nomatch h), fun _ => rfl⟩
  | cons a w ih =>
    obtain ⟨ihSome, ihNone⟩ := ih fun b hb => hw b (List.mem_cons_of_mem a hb)
    have ha := hw a List.mem_cons_self
    have hrest : ∀ b ∈ w, b ∈ zero :: rest := fun b hb => hw b (List.mem_cons_of_mem a hb)
    rw [next]
    cases hafter : after (zero :: rest) a with
    | some b =>
      obtain ⟨hb, hidx⟩ := after_some hnodup hafter
      refine ⟨fun w' h => ?_, fun h => (nomatch h)⟩
      obtain rfl := Option.some.inj h
      refine ⟨rfl, fun c hc => ?_, ?_⟩
      · rcases List.mem_cons.mp hc with rfl | hc
        · exact hb
        · exact hrest c hc
      · rw [value_cons, value_cons, hidx]
        omega
    | none =>
      have hlast := after_none ha hafter
      have hzero : (zero :: rest).idxOf zero = 0 := List.idxOf_cons_self
      refine ⟨fun w' h => ?_, fun h => ?_⟩
      · obtain ⟨w₁, hw₁, rfl⟩ := Option.map_eq_some_iff.mp h
        obtain ⟨hlen, hmem, hvalue⟩ := ihSome w₁ hw₁
        refine ⟨by rw [List.length_cons, List.length_cons, hlen], fun c hc => ?_, ?_⟩
        · rcases List.mem_cons.mp hc with rfl | hc
          · exact List.mem_cons_self
          · exact hmem c hc
        · rw [value_cons, value_cons, hzero, hvalue, ← hlast, Nat.mul_add]
          omega
      · have hvalue := ihNone (Option.map_eq_none_iff.mp h)
        calc value (zero :: rest) (a :: w) + 1
            = ((zero :: rest).idxOf a + 1) + (rest.length + 1) * value (zero :: rest) w := by
              rw [value_cons, List.length_cons]
              omega
          _ = (rest.length + 1) * (value (zero :: rest) w + 1) := by
              rw [hlast, List.length_cons, Nat.mul_add]
              omega
          _ = (rest.length + 1) ^ w.length * (rest.length + 1) := by rw [hvalue, Nat.mul_comm]
          _ = (rest.length + 1) ^ (w.length + 1) := (pow_succ _ _).symm

/-- A word of `k` letters has a number below the `k`-th power of their number. -/
theorem value_lt (hw : ∀ a ∈ w, a ∈ zero :: rest) :
    value (zero :: rest) w < (rest.length + 1) ^ w.length := by
  induction w with
  | nil => exact Nat.one_pos
  | cons a w ih =>
    have ih := ih fun b hb => hw b (List.mem_cons_of_mem a hb)
    have ha : (zero :: rest).idxOf a < rest.length + 1 :=
      List.idxOf_lt_length_iff.mpr (hw a List.mem_cons_self)
    calc value (zero :: rest) (a :: w)
        = (zero :: rest).idxOf a + (rest.length + 1) * value (zero :: rest) w := value_cons _ _ _
      _ < (rest.length + 1) * (value (zero :: rest) w + 1) := by rw [Nat.mul_add]; omega
      _ ≤ (rest.length + 1) * (rest.length + 1) ^ w.length := Nat.mul_le_mul_left _ ih
      _ = (rest.length + 1) ^ w.length * (rest.length + 1) := Nat.mul_comm _ _
      _ = (rest.length + 1) ^ (w.length + 1) := (pow_succ _ _).symm

/-- A word is that of its number. -/
theorem word_value (hw : ∀ a ∈ w, a ∈ zero :: rest) :
    word zero rest w.length (value (zero :: rest) w) = w := by
  induction w with
  | nil => rfl
  | cons a w ih =>
    have ih := ih fun b hb => hw b (List.mem_cons_of_mem a hb)
    have ha : (zero :: rest).idxOf a < rest.length + 1 :=
      List.idxOf_lt_length_iff.mpr (hw a List.mem_cons_self)
    have hbase : (zero :: rest).length = rest.length + 1 := rfl
    rw [List.length_cons, word, value_cons, hbase, Nat.add_mul_mod_self_left, Nat.mod_eq_of_lt ha,
      Nat.add_mul_div_left _ _ (Nat.succ_pos _), Nat.div_eq_of_lt ha, Nat.zero_add, ih,
      List.getD_eq_getElem _ _ ha, List.getElem_idxOf]

end Odometer

end Verif
