/-
# Reading numbers (`u_atol`, `u_atoi`, `u_atoumax` of `toolbox/misc.c`)

The three functions ask `strtol` and `strtoumax` for the number, and `errno` for what went wrong.
`errno` has whatever an earlier failure left there, since they do not clear it first (as `u_atof`
does).  Types are those of LP64.

* §1: what ISO C says of `strtol` and `strtoumax` in base 10, and the code.
* §2: what a number at the start of a string is (`Numeral`); there is at most one, and `subject`
  finds it.
* §3: the three functions by the number that the string starts with.
* §4: they are right on just those strings and values of `errno` which do not meet by accident
  (`number_iff`).
-/
import Mathlib.Algebra.Group.Int.Defs
import Mathlib.Algebra.Group.Nat.Defs
import Libu.Lexer

namespace Libu.Number

open Verif

/-! ## 1. The code -/

def einval : Int := 22

def erange : Int := 34

def longMin : Int := -2 ^ 63

def longMax : Int := 2 ^ 63 - 1

def intMin : Int := -2 ^ 31

def intMax : Int := 2 ^ 31 - 1

def uintmaxMax : Nat := 2 ^ 64 - 1

/-- An optional sign. -/
def sign : List Char → Bool × List Char
  | '-' :: s => (true, s)
  | '+' :: s => (false, s)
  | s => (false, s)

/-- The value of a run of digits. -/
def digitsVal (ds : List Char) : Nat := ds.foldl (fun n d => 10 * n + (d.toNat - 48)) 0

/-- The subject sequence behind leading white space: whether it has a minus sign, its digits, and
what is behind them. -/
def subject (s : List Char) : Bool × List Char × List Char :=
  let t := sign (s.dropWhile isSpace)
  (t.1, t.2.takeWhile Char.isDigit, t.2.dropWhile Char.isDigit)

def signed (neg : Bool) (m : Nat) : Int := if neg then -m else m

/-- `strtol(nptr, &endptr, 10)`: the value, `endptr` and `errno`. -/
def strtol (nptr : List Char) (errno : Int) : Int × List Char × Int :=
  let (neg, ds, rest) := subject nptr
  if ds = [] then (0, nptr, errno)
  else if signed neg (digitsVal ds) < longMin then (longMin, rest, erange)
  else if longMax < signed neg (digitsVal ds) then (longMax, rest, erange)
  else (signed neg (digitsVal ds), rest, errno)

/-- `strtoumax(nptr, NULL, 10)`: the value and `errno`.  A minus sign negates as unsigned. -/
def strtoumax (nptr : List Char) (errno : Int) : Nat × Int :=
  let (neg, ds, _) := subject nptr
  if ds = [] then (0, errno)
  else if uintmaxMax < digitsVal ds then (uintmaxMax, erange)
  else (if neg then (2 ^ 64 - digitsVal ds) % 2 ^ 64 else digitsVal ds, errno)

/-- `u_atol`: what it stores when it succeeds, and `errno`. -/
def uAtol (nptr : List Char) (errno : Int) : Option Int × Int :=
  let savedErrno := errno
  let (tmp, endptr, errno) := strtol nptr errno
  if tmp = 0 ∧ errno = einval then (none, savedErrno)
  else if (tmp = longMin ∨ tmp = longMax) ∧ errno = erange then (none, savedErrno)
  else if nptr = endptr then (none, savedErrno)
  else (some tmp, savedErrno)

/-- `u_atoi` -/
def uAtoi (nptr : List Char) (errno : Int) : Option Int × Int :=
  match uAtol nptr errno with
  | (none, errno) => (none, errno)
  | (some tmp, errno) =>
    if tmp > intMax then (none, errno)
    else if tmp < intMin then (none, errno)
    else (some tmp, errno)

/-- `u_atoumax` -/
def uAtoumax (nptr : List Char) (errno : Int) : Option Int × Int :=
  let savedErrno := errno
  let (tmp, errno) := strtoumax nptr errno
  if tmp = 0 ∧ errno = einval then (none, savedErrno)
  else if tmp = uintmaxMax ∧ errno = erange then (none, savedErrno)
  else (some tmp, savedErrno)

/-! ## 2. Numbers -/

/-- The ways of writing the sign. -/
def IsSign (sgn : List Char) (neg : Bool) : Prop :=
  sgn = [] ∧ neg = false ∨ sgn = ['+'] ∧ neg = false ∨ sgn = ['-'] ∧ neg = true

/-- `s` starts with white space, a sign if any, and a longest run of digits, of value `v`. -/
inductive Numeral (s : List Char) (v : Int) : Prop
  | mk {ws sgn ds rest : List Char} {neg : Bool} : s = ws ++ (sgn ++ (ds ++ rest)) →
      AllIn isSpace ws → IsSign sgn neg → ds ≠ [] → AllIn Char.isDigit ds →
      Stops Char.isDigit rest → v = signed neg (digitsVal ds) → Numeral s v

/-- The value `v` of the number that `s` starts with, if it is in range. -/
def Reads (lo hi : Int) (s : List Char) (v : Int) : Prop := Numeral s v ∧ lo ≤ v ∧ v ≤ hi

/-- A function finds just the numbers in range, and leaves `errno` as it was. -/
structure Exact (lo hi : Int) (f : List Char → Int → Option Int × Int) (s : List Char)
    (errno : Int) : Prop where
  reads : ∀ v, (f s errno).1 = some v ↔ Reads lo hi s v
  restored : (f s errno).2 = errno

variable {s ws sgn ds rest : List Char} {neg : Bool} {v w e e' : Int}

theorem digit_not_space {c : Char} (h : c.isDigit = true) : isSpace c = false := by
  simp only [Char.isDigit, isSpace, Bool.and_eq_true, Bool.or_eq_false_iff, Bool.and_eq_false_iff,
    decide_eq_true_eq, decide_eq_false_iff_not, Char.le_def, UInt32.le_iff_toNat_le] at h ⊢
  refine ⟨?_, .inr ?_⟩
  · rintro rfl
    revert h
    decide
  · exact fun hle => absurd (h.1.trans hle) (by decide)

/-- A run of digits has no sign in front. -/
theorem sign_digits (hne : ds ≠ []) (hds : AllIn Char.isDigit ds) :
    sign (ds ++ rest) = (false, ds ++ rest) := by
  cases ds with
  | nil => exact absurd rfl hne
  | cons d ds =>
    have hd := (allIn_cons.mp hds).1
    rw [List.cons_append, sign]
    · rintro s' heq
      rw [(List.cons.inj heq).1] at hd
      revert hd
      decide
    · rintro s' heq
      rw [(List.cons.inj heq).1] at hd
      revert hd
      decide

theorem sign_append (hsgn : IsSign sgn neg) (hne : ds ≠ []) (hds : AllIn Char.isDigit ds) :
    sign (sgn ++ (ds ++ rest)) = (neg, ds ++ rest) := by
  rcases hsgn with ⟨rfl, rfl⟩ | ⟨rfl, rfl⟩ | ⟨rfl, rfl⟩
  · rw [List.nil_append]
    exact sign_digits hne hds
  · rfl
  · rfl

/-- The white space ends at the sign, or at the digits. -/
theorem stops_sign (hsgn : IsSign sgn neg) (hne : ds ≠ []) (hds : AllIn Char.isDigit ds) :
    Stops isSpace (sgn ++ (ds ++ rest)) := by
  rcases hsgn with ⟨rfl, rfl⟩ | ⟨rfl, rfl⟩ | ⟨rfl, rfl⟩
  · cases ds with
    | nil => exact absurd rfl hne
    | cons d ds => exact stops_cons.mpr (digit_not_space (allIn_cons.mp hds).1)
  · exact stops_cons.mpr rfl
  · exact stops_cons.mpr rfl

/-- `subject` reads what was written. -/
theorem subject_append (hws : AllIn isSpace ws) (hsgn : IsSign sgn neg) (hne : ds ≠ [])
    (hds : AllIn Char.isDigit ds) (hrest : Stops Char.isDigit rest) :
    subject (ws ++ (sgn ++ (ds ++ rest))) = (neg, ds, rest) := by
  rw [subject, dropWhile_append hws, (stops_sign hsgn hne hds).dropWhile,
    sign_append hsgn hne hds]
  dsimp only
  rw [takeWhile_append hds hrest, dropWhile_append hds, hrest.dropWhile]

theorem exists_sign (t : List Char) : ∃ sgn, t = sgn ++ (sign t).2 ∧ IsSign sgn (sign t).1 := by
  unfold sign
  split
  · exact ⟨['-'], rfl, .inr (.inr ⟨rfl, rfl⟩)⟩
  · exact ⟨['+'], rfl, .inr (.inl ⟨rfl, rfl⟩)⟩
  · exact ⟨[], rfl, .inl ⟨rfl, rfl⟩⟩

/-- What `subject` reads is written in the string. -/
theorem exists_subject (s : List Char) : ∃ ws sgn, AllIn isSpace ws ∧
    IsSign sgn (subject s).1 ∧ s = ws ++ (sgn ++ ((subject s).2.1 ++ (subject s).2.2)) := by
  obtain ⟨ws, hws, hs⟩ := exists_front isSpace s
  obtain ⟨sgn, ht, hsgn⟩ := exists_sign (s.dropWhile isSpace)
  refine ⟨ws, sgn, hws, hsgn, ?_⟩
  rw [subject]
  dsimp only
  rw [List.takeWhile_append_dropWhile, ← ht]
  exact hs

theorem numeral_iff : Numeral s v ↔ ∃ neg ds rest, subject s = (neg, ds, rest) ∧ ds ≠ [] ∧
    v = signed neg (digitsVal ds) := by
  constructor
  · rintro ⟨rfl, hws, hsgn, hne, hds, hrest, hv⟩
    exact ⟨_, _, _, subject_append hws hsgn hne hds hrest, hne, hv⟩
  · rintro ⟨neg, ds, rest, hsub, hne, hv⟩
    obtain ⟨ws, sgn, hws, hsgn, hs⟩ := exists_subject s
    have hds : (subject s).2.1 = ds := by rw [hsub]
    have hneg : (subject s).1 = neg := by rw [hsub]
    refine .mk hs hws hsgn (hds ▸ hne) allIn_takeWhile stops_dropWhile ?_
    rw [hds, hneg]
    exact hv

/-- **A string starts with one number at most.** -/
theorem Numeral.unique (h : Numeral s v) (h' : Numeral s w) : v = w := by
  obtain ⟨neg, ds, rest, hsub, -, rfl⟩ := numeral_iff.mp h
  obtain ⟨neg', ds', rest', hsub', -, rfl⟩ := numeral_iff.mp h'
  obtain ⟨rfl, rfl, -⟩ := Prod.mk.injEq _ _ _ _ ▸ hsub.symm.trans hsub'
  rfl

/-- Behind a number there is less than the string. -/
theorem subject_rest_ne (hsub : subject s = (neg, ds, rest)) (hne : ds ≠ []) : s ≠ rest := by
  obtain ⟨ws, sgn, -, -, hs⟩ := exists_subject s
  intro heq
  have hlen := congrArg List.length hs
  rw [hsub, List.length_append, List.length_append, List.length_append,
    congrArg List.length heq] at hlen
  exact hne (List.eq_nil_of_length_eq_zero (by dsimp only at hlen; omega))

/-! ## 3. What the functions find -/

/-- With no number there is no digit. -/
theorem subject_of_none (h : ∀ v, ¬ Numeral s v) : ∃ neg rest, subject s = (neg, [], rest) := by
  rcases hsub : subject s with ⟨neg, ds, rest⟩
  have hnil : ds = [] := not_not.mp fun hne => h _ (numeral_iff.mpr ⟨neg, ds, rest, hsub, hne, rfl⟩)
  exact ⟨neg, rest, by rw [hnil]⟩

theorem strtol_of_none (h : ∀ v, ¬ Numeral s v) : strtol s e = (0, s, e) := by
  obtain ⟨neg, rest, hsub⟩ := subject_of_none h
  rw [strtol, hsub]
  exact if_pos rfl

theorem strtol_of_numeral (h : Numeral s v) : ∃ rest, s ≠ rest ∧
    strtol s e = if v < longMin then (longMin, rest, erange)
      else if longMax < v then (longMax, rest, erange) else (v, rest, e) := by
  obtain ⟨neg, ds, rest, hsub, hne, rfl⟩ := numeral_iff.mp h
  refine ⟨rest, subject_rest_ne hsub hne, ?_⟩
  rw [strtol, hsub]
  exact if_neg hne

/-- `errno` is what strtol sets for another string. -/
def AtolBad (v e : Int) : Prop := v = 0 ∧ e = einval ∨ (v = longMin ∨ v = longMax) ∧ e = erange

instance : Decidable (AtolBad v e) := inferInstanceAs (Decidable (_ ∨ _))

theorem uAtol_of_none (h : ∀ v, ¬ Numeral s v) : uAtol s e = (none, e) := by
  rw [uAtol, strtol_of_none h]
  dsimp only
  split
  · rfl
  · rw [if_neg (by rintro ⟨h0 | h0, _⟩ <;> exact absurd h0 (by decide)), if_pos rfl]

theorem uAtol_of_numeral (h : Numeral s v) :
    uAtol s e = (if (longMin ≤ v ∧ v ≤ longMax) ∧ ¬ AtolBad v e then some v else none, e) := by
  obtain ⟨rest, hrest, hrun⟩ := strtol_of_numeral (e := e) h
  rw [uAtol, hrun]
  by_cases hlo : v < longMin
  · rw [if_pos hlo, if_neg (by omega)]
    dsimp only
    rw [if_neg (by decide), if_pos (by decide)]
  · by_cases hhi : longMax < v
    · rw [if_neg hlo, if_pos hhi, if_neg (by omega)]
      dsimp only
      rw [if_neg (by decide), if_pos (by decide)]
    · rw [if_neg hlo, if_neg hhi]
      dsimp only
      by_cases hinval : v = 0 ∧ e = einval
      · rw [if_pos hinval, if_neg fun hall => hall.2 (.inl hinval)]
      · by_cases hrange : (v = longMin ∨ v = longMax) ∧ e = erange
        · rw [if_neg hinval, if_pos hrange, if_neg fun hall => hall.2 (.inr hrange)]
        · rw [if_neg hinval, if_neg hrange, if_neg hrest,
            if_pos ⟨⟨by omega, by omega⟩, fun hbad => hbad.elim hinval hrange⟩]

theorem uAtoi_of_none (h : ∀ v, ¬ Numeral s v) : uAtoi s e = (none, e) := by
  rw [uAtoi, uAtol_of_none h]

theorem uAtoi_of_numeral (h : Numeral s v) : uAtoi s e =
    (if (intMin ≤ v ∧ v ≤ intMax) ∧ ¬ (v = 0 ∧ e = einval) then some v else none, e) := by
  have hsmall : intMin ≤ v ∧ v ≤ intMax → longMin < v ∧ v < longMax := by
    unfold intMin intMax longMin longMax
    omega
  rw [uAtoi, uAtol_of_numeral h]
  by_cases hall : (longMin ≤ v ∧ v ≤ longMax) ∧ ¬ AtolBad v e
  · have hinval : ¬ (v = 0 ∧ e = einval) := fun hinval => hall.2 (.inl hinval)
    rw [if_pos hall]
    dsimp only
    by_cases hhi : v > intMax
    · rw [if_pos hhi, if_neg (by omega)]
    · by_cases hlo : v < intMin
      · rw [if_neg hhi, if_pos hlo, if_neg (by omega)]
      · rw [if_neg hhi, if_neg hlo, if_pos ⟨by omega, hinval⟩]
  · rw [if_neg hall, if_neg]
    rintro ⟨hin, hinval⟩
    have hfar := hsmall hin
    refine hall ⟨by omega, ?_⟩
    rintro (hbad | ⟨hv, -⟩)
    · exact hinval hbad
    · omega

theorem strtoumax_of_none (h : ∀ v, ¬ Numeral s v) : strtoumax s e = (0, e) := by
  obtain ⟨neg, rest, hsub⟩ := subject_of_none h
  rw [strtoumax, hsub]
  exact if_pos rfl

/-- A number below zero comes out as one above, unless it is too far below. -/
theorem strtoumax_of_numeral (h : Numeral s v) :
    strtoumax s e = if uintmaxMax < v.natAbs then (uintmaxMax, erange)
      else ((v % 2 ^ 64).toNat, e) := by
  obtain ⟨neg, ds, rest, hsub, hne, rfl⟩ := numeral_iff.mp h
  have habs : (signed neg (digitsVal ds)).natAbs = digitsVal ds := by
    cases neg with
    | false => rfl
    | true => exact Int.natAbs_neg _
  rw [strtoumax, hsub, habs]
  refine (if_neg hne).trans ?_
  by_cases hbig : uintmaxMax < digitsVal ds
  · rw [if_pos hbig, if_pos hbig]
  · rw [if_neg hbig, if_neg hbig]
    unfold uintmaxMax at hbig
    cases neg with
    | false =>
      rw [signed, if_neg (by decide), if_neg (by decide), Int.emod_eq_of_lt (by omega) (by omega),
        Int.toNat_natCast]
    | true =>
      rw [signed, if_pos rfl, if_pos rfl]
      refine congrArg (·, e) ?_
      omega

/-- `errno` is what strtoumax sets for another string. -/
def AtoumaxBad (v e : Int) : Prop := v = 0 ∧ e = einval ∨ v = uintmaxMax ∧ e = erange

instance : Decidable (AtoumaxBad v e) := inferInstanceAs (Decidable (_ ∨ _))

theorem uAtoumax_of_none (h : ∀ v, ¬ Numeral s v) :
    uAtoumax s e = (if e = einval then none else some 0, e) := by
  rw [uAtoumax, strtoumax_of_none h]
  dsimp only
  by_cases hinval : e = einval
  · rw [if_pos ⟨rfl, hinval⟩, if_pos hinval]
  · rw [if_neg (hinval ·.2), if_neg (by rintro ⟨h0, -⟩; revert h0; decide), if_neg hinval]
    rfl

theorem uAtoumax_of_nonneg (h : Numeral s v) (h0 : 0 ≤ v) : uAtoumax s e =
    (if (0 ≤ v ∧ v ≤ uintmaxMax) ∧ ¬ AtoumaxBad v e then some v else none, e) := by
  rw [uAtoumax, strtoumax_of_numeral h]
  by_cases hbig : uintmaxMax < v.natAbs
  · rw [if_pos hbig, if_neg (by omega)]
    dsimp only
    rw [if_neg (by decide), if_pos ⟨rfl, rfl⟩]
  · have hmod : v % 2 ^ 64 = v := Int.emod_eq_of_lt h0 (by unfold uintmaxMax at hbig; omega)
    rw [if_neg hbig, hmod]
    dsimp only
    rw [Int.toNat_of_nonneg h0]
    by_cases hinval : v = 0 ∧ e = einval
    · rw [if_pos ⟨by omega, hinval.2⟩, if_neg fun hall => hall.2 (.inl hinval)]
    · by_cases hrange : v = uintmaxMax ∧ e = erange
      · rw [if_neg (by omega), if_pos ⟨by omega, hrange.2⟩,
          if_neg fun hall => hall.2 (.inr hrange)]
      · rw [if_neg (by omega), if_neg (by omega),
          if_pos ⟨⟨h0, by omega⟩, fun hbad => hbad.elim hinval hrange⟩]

/-- A number below zero is taken, unless it is too far below or `errno` is in the way. -/
theorem uAtoumax_of_neg (h : Numeral s v) (h0 : v < 0) : uAtoumax s e =
    (if v < -uintmaxMax ∨ v = -1 ∧ e = erange then none else some (v + 2 ^ 64), e) := by
  rw [uAtoumax, strtoumax_of_numeral h]
  by_cases hbig : uintmaxMax < v.natAbs
  · rw [if_pos hbig, if_pos (.inl (by omega))]
    dsimp only
    rw [if_neg (by decide), if_pos ⟨rfl, rfl⟩]
  · have hmod : v % 2 ^ 64 = v + 2 ^ 64 := by
      unfold uintmaxMax at hbig
      omega
    have hnat : ((v + 2 ^ 64).toNat : Int) = v + 2 ^ 64 := by
      unfold uintmaxMax at hbig
      omega
    rw [if_neg hbig, hmod]
    dsimp only
    rw [hnat, if_neg (by unfold uintmaxMax at hbig; omega)]
    by_cases hrange : v = -1 ∧ e = erange
    · rw [if_pos ⟨by unfold uintmaxMax; omega, hrange.2⟩, if_pos (.inr hrange)]
    · rw [if_neg (by unfold uintmaxMax; omega), if_neg (by omega)]

/-! ## 4. When the functions are right -/

/-- The conditions under which they are: no number of the string comes with an `errno` that is set
for it, and `u_atoumax` meets a number, and none below zero. -/
def AtolFine (s : List Char) (e : Int) : Prop := ∀ v, Numeral s v → ¬ AtolBad v e

def AtoiFine (s : List Char) (e : Int) : Prop := ∀ v, Numeral s v → ¬ (v = 0 ∧ e = einval)

def AtoumaxFine (s : List Char) (e : Int) : Prop :=
  ((∀ v, ¬ Numeral s v) → e = einval) ∧ ∀ v, Numeral s v → ¬ AtoumaxBad v e ∧
    (v < 0 → v < -uintmaxMax ∨ v = -1 ∧ e = erange)

variable {lo hi : Int} {f : List Char → Int → Option Int × Int} {B B' : Prop} [Decidable B]
  [Decidable B']

/-- What is said of every number of the string is said of the one it has. -/
theorem Numeral.forall_iff {P : Int → Prop} (h : Numeral s v) : (∀ w, Numeral s w → P w) ↔ P v :=
  ⟨fun hall => hall v h, fun hv _ hw => h.unique hw ▸ hv⟩

theorem exact_of_none (h : ∀ v, ¬ Numeral s v) (hrun : f s e = (none, e)) : Exact lo hi f s e where
  reads w := by
    rw [hrun]
    exact iff_of_false (fun hw => by cases hw) fun hw => h w hw.1
  restored := by rw [hrun]

theorem exact_iff (h : Numeral s v)
    (hrun : f s e = (if (lo ≤ v ∧ v ≤ hi) ∧ ¬ B then some v else none, e)) :
    Exact lo hi f s e ↔ (lo ≤ v ∧ v ≤ hi → ¬ B) := by
  constructor
  · rintro ⟨hreads, -⟩ hin hbad
    have hv := (hreads v).mpr ⟨h, hin⟩
    rw [hrun, if_neg fun hall => hall.2 hbad] at hv
    cases hv
  · intro hfine
    refine ⟨fun w => ?_, by rw [hrun]⟩
    rw [hrun]
    by_cases hin : lo ≤ v ∧ v ≤ hi
    · rw [if_pos ⟨hin, hfine hin⟩, Option.some_inj]
      constructor
      · rintro rfl
        exact ⟨h, hin⟩
      · exact fun hw => h.unique hw.1
    · rw [if_neg fun hall => hin hall.1]
      refine iff_of_false (fun hw => by cases hw) ?_
      rintro ⟨hw, hin'⟩
      exact hin (h.unique hw ▸ hin')

/-- Two runs come out alike when both of them, or none, take the branch. -/
theorem same_iff {x y : Option Int} (hne : x ≠ y) :
    ((if B then x else y) = if B' then x else y) ↔ (B ↔ B') := by
  by_cases hB : B <;> by_cases hB' : B' <;> simp [hB, hB', hne, hne.symm]

/-- A number in range is found in both runs, or in none, when it comes with a bad `errno` in both or
in none. -/
theorem same_of_numeral (hbad : B → lo ≤ v ∧ v ≤ hi) (hbad' : B' → lo ≤ v ∧ v ≤ hi)
    (hrun : f s e = (if (lo ≤ v ∧ v ≤ hi) ∧ ¬ B then some v else none, e))
    (hrun' : f s e' = (if (lo ≤ v ∧ v ≤ hi) ∧ ¬ B' then some v else none, e')) :
    (f s e).1 = (f s e').1 ↔ (¬ B ↔ ¬ B') := by
  rw [hrun, hrun']
  dsimp only
  rw [same_iff (Option.some_ne_none v)]
  by_cases hin : lo ≤ v ∧ v ≤ hi
  · rw [and_iff_right hin, and_iff_right hin]
  · exact iff_of_true (iff_of_false (hin ·.1) (hin ·.1))
      (iff_of_true (hin ∘ hbad) (hin ∘ hbad'))

/-- When nothing is found without a number, and a number in range is found unless it is bad. -/
theorem fine_iff {P : Int → Int → Prop} [∀ v e, Decidable (P v e)]
    (hin : ∀ {v e}, P v e → lo ≤ v ∧ v ≤ hi)
    (hnone : ∀ {e}, (∀ v, ¬ Numeral s v) → f s e = (none, e))
    (hnum : ∀ {v e}, Numeral s v →
      f s e = (if (lo ≤ v ∧ v ≤ hi) ∧ ¬ P v e then some v else none, e)) :
    (Exact lo hi f s e ↔ ∀ v, Numeral s v → ¬ P v e) ∧ ∀ e', (f s e).1 = (f s e').1 ↔
      ((∀ v, Numeral s v → ¬ P v e) ↔ ∀ v, Numeral s v → ¬ P v e') := by
  by_cases h : ∃ v, Numeral s v
  · obtain ⟨v, h⟩ := h
    refine ⟨?_, fun e' => ?_⟩
    · rw [exact_iff h (hnum h), h.forall_iff]
      exact ⟨fun hfine hbad => hfine (hin hbad) hbad, fun hfine _ => hfine⟩
    · rw [h.forall_iff, h.forall_iff]
      exact same_of_numeral hin hin (hnum h) (hnum h)
  · have hno := not_exists.mp h
    have hfine : ∀ e v, Numeral s v → ¬ P v e := fun e v hv => absurd hv (hno v)
    refine ⟨iff_of_true (exact_of_none hno (hnone hno)) (hfine e), fun e' => ?_⟩
    rw [hnone hno, hnone hno]
    exact iff_of_true rfl (iff_of_true (hfine e) (hfine e'))

theorem atol_iff (s : List Char) (e : Int) :
    (Exact longMin longMax uAtol s e ↔ AtolFine s e) ∧
      ∀ e', (uAtol s e).1 = (uAtol s e').1 ↔ (AtolFine s e ↔ AtolFine s e') := by
  refine fine_iff ?_ uAtol_of_none uAtol_of_numeral
  rintro v e (⟨rfl, -⟩ | ⟨rfl | rfl, -⟩) <;> decide

theorem atoi_iff (s : List Char) (e : Int) :
    (Exact intMin intMax uAtoi s e ↔ AtoiFine s e) ∧
      ∀ e', (uAtoi s e).1 = (uAtoi s e').1 ↔ (AtoiFine s e ↔ AtoiFine s e') := by
  refine fine_iff (P := fun v e => v = 0 ∧ e = einval) ?_ uAtoi_of_none uAtoi_of_numeral
  rintro v e ⟨rfl, -⟩
  decide

/-- Not a number, and yet found: this is so unless `errno` says otherwise. -/
theorem not_exact {u : Int} (hnone : ∀ v, ¬ Reads lo hi s v)
    (hrun : f s e = (if B then none else some u, e)) : Exact lo hi f s e ↔ B := by
  constructor
  · rintro ⟨hreads, -⟩
    by_contra hB
    exact hnone u ((hreads u).mp (by rw [hrun, if_neg hB]))
  · intro hB
    refine ⟨fun v => ?_, by rw [hrun]⟩
    rw [hrun, if_pos hB]
    exact iff_of_false (fun hv => by cases hv) (hnone v)

theorem atoumax_iff (s : List Char) (e : Int) :
    (Exact 0 uintmaxMax uAtoumax s e ↔ AtoumaxFine s e) ∧
      ∀ e', (uAtoumax s e).1 = (uAtoumax s e').1 ↔ (AtoumaxFine s e ↔ AtoumaxFine s e') := by
  by_cases hnum : ∃ v, Numeral s v
  · obtain ⟨v, h⟩ := hnum
    have hsome : ¬ ∀ v, ¬ Numeral s v := fun hnone => hnone v h
    have hfine : ∀ e, AtoumaxFine s e ↔
        ¬ AtoumaxBad v e ∧ (v < 0 → v < -uintmaxMax ∨ v = -1 ∧ e = erange) := fun e =>
      (and_iff_right fun hnone => absurd hnone hsome).trans h.forall_iff
    by_cases h0 : 0 ≤ v
    · have hpos : ∀ e, AtoumaxFine s e ↔ ¬ AtoumaxBad v e := fun e =>
        (hfine e).trans (and_iff_left fun hneg => absurd h0 (by omega))
      have hin : ∀ {e}, AtoumaxBad v e → 0 ≤ v ∧ v ≤ uintmaxMax := by
        rintro e (⟨rfl, -⟩ | ⟨rfl, -⟩) <;> decide
      refine ⟨?_, fun e' => ?_⟩
      · rw [exact_iff h (uAtoumax_of_nonneg h h0), hpos]
        exact ⟨fun hfine hbad => hfine (hin hbad) hbad, fun hfine _ => hfine⟩
      · rw [hpos, hpos]
        exact same_of_numeral hin hin (uAtoumax_of_nonneg h h0) (uAtoumax_of_nonneg h h0)
    · have hlt : v < 0 := by omega
      have hneg : ∀ e, AtoumaxFine s e ↔ v < -uintmaxMax ∨ v = -1 ∧ e = erange := by
        intro e
        rw [hfine, and_iff_right, forall_prop_of_true hlt]
        rintro (⟨hv, -⟩ | ⟨hv, -⟩) <;> omega
      refine ⟨?_, fun e' => ?_⟩
      · rw [not_exact _ (uAtoumax_of_neg h hlt), hneg]
        rintro w ⟨hw, hin⟩
        exact absurd (h.unique hw ▸ hin.1) h0
      · rw [hneg, hneg, uAtoumax_of_neg h hlt, uAtoumax_of_neg h hlt]
        exact same_iff (Option.some_ne_none _).symm
  · have hnone := not_exists.mp hnum
    have hfine : ∀ e, AtoumaxFine s e ↔ e = einval := fun e =>
      ⟨fun h => h.1 hnone, fun h => ⟨fun _ => h, fun v hv => absurd hv (hnone v)⟩⟩
    refine ⟨?_, fun e' => ?_⟩
    · rw [not_exact (fun v hv => hnone v hv.1) (uAtoumax_of_none hnone), hfine]
    · rw [hfine, hfine, uAtoumax_of_none hnone, uAtoumax_of_none hnone]
      exact same_iff (Option.some_ne_none _).symm

/-- **The three functions read just the numbers in range, whatever `errno` is, except on the strings
and values of `errno` that do not go together; and these are where two runs come apart.** -/
theorem number_iff (s : List Char) (e : Int) :
    ((Exact longMin longMax uAtol s e ↔ AtolFine s e) ∧
      ∀ e', (uAtol s e).1 = (uAtol s e').1 ↔ (AtolFine s e ↔ AtolFine s e')) ∧
    ((Exact intMin intMax uAtoi s e ↔ AtoiFine s e) ∧
      ∀ e', (uAtoi s e).1 = (uAtoi s e').1 ↔ (AtoiFine s e ↔ AtoiFine s e')) ∧
    (Exact 0 uintmaxMax uAtoumax s e ↔ AtoumaxFine s e) ∧
      ∀ e', (uAtoumax s e).1 = (uAtoumax s e').1 ↔ (AtoumaxFine s e ↔ AtoumaxFine s e') :=
  ⟨atol_iff s e, atoi_iff s e, atoumax_iff s e⟩

/-- `u_atol` takes "0" after a success, and not after an `EINVAL`. -/
theorem not_exact_zero : uAtol ['0'] 0 = (some 0, 0) ∧ Reads longMin longMax ['0'] 0 ∧
    ¬ Exact longMin longMax uAtol ['0'] einval := by
  have hreads : Reads longMin longMax ['0'] 0 :=
    ⟨@Numeral.mk _ _ [] [] ['0'] [] false rfl allIn_nil (.inl ⟨rfl, rfl⟩) (by decide)
      (by decide) stops_nil (by decide), by decide, by decide⟩
  refine ⟨by decide, hreads, fun hexact => ?_⟩
  exact absurd ((hexact.reads 0).mpr hreads) (by decide)

end Libu.Number
