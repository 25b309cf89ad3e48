/-
# The decimal text of an integer

What `printf` gives for `%ld`: a minus sign for the negative ones, and digits of which the first
is zero only for zero itself.
-/
import Mathlib.Algebra.Group.Nat.Defs
import Libu.Verif.Outcome

namespace Verif

/-- The text of a number with its minus sign, if any. -/
def minusSign (v : Int) : List Char := if v < 0 then ['-'] else []

theorem toList_toString (v : Int) :
    (toString v).toList = minusSign v ++ Nat.toDigits 10 v.natAbs := by
  cases v with
  | ofNat n =>
    have hsign : minusSign (.ofNat n) = [] := if_neg (by simp)
    change (Nat.repr n).toList = _
    rw [Nat.toList_repr, hsign]
    rfl
  | negSucc n =>
    have hsign : minusSign (.negSucc n) = ['-'] := if_pos (Int.negSucc_lt_zero n)
    change ("-" ++ Nat.repr (n + 1)).toList = _
    rw [String.toList_append, Nat.toList_repr, hsign]
    rfl

theorem allIn_toDigits (n : Nat) : AllIn Char.isDigit (Nat.toDigits 10 n) :=
  fun _ hc => Nat.isDigit_of_mem_toDigits (by decide) (by decide) hc

/-- The digits of a number that is not zero do not start with zero. -/
theorem toDigits_eq_cons {n : Nat} (hn : 0 < n) : ∃ d ds,
    Nat.toDigits 10 n = d :: ds ∧ d ≠ '0' := by
  induction n using Nat.strongRecOn with
  | ind n ih =>
    by_cases hlt : n < 10
    · have hdigit : ∀ d < 10, 0 < d → d.digitChar ≠ '0' := by decide
      exact ⟨n.digitChar, [], Nat.toDigits_of_lt_base hlt, hdigit n hlt hn⟩
    · obtain ⟨d, ds, hd, hne⟩ := ih (n / 10) (by omega) (by omega)
      refine ⟨d, ds ++ [(n % 10).digitChar], ?_, hne⟩
      rw [Nat.toDigits_of_base_le (by decide) (by omega), hd]
      rfl

/-- A text of at most `k` digits. -/
theorem length_toString_le {v : Int} {k : Nat} (hk : 0 < k) (hv : v.natAbs < 10 ^ k) :
    (toString v).toList.length ≤ k + 1 := by
  have hdigits : (Nat.toDigits 10 v.natAbs).length ≤ k :=
    (Nat.length_toDigits_le_iff (by decide) hk).mpr hv
  have hsign : (minusSign v).length ≤ 1 := by
    rw [minusSign]
    split <;> simp
  rw [toList_toString, List.length_append]
  omega

end Verif
