/-
# Matching file names (`missing/fnmatch.c`)

`fnmatch` tells whether a string is one of those that a pattern stands for.  It goes through both at
once, and calls itself for what is behind a `*`.

* §1 is the code, in the C locale; strings are their bytes.  `char` is signed on some platforms, so
  that a byte from 128 on is negative as a `char`, and is itself as an `unsigned char`.
* §2 is the purpose: the pieces of a pattern (`pieces`), and what they stand for (`Matches`).
* §3: `rangematch` on the pieces of a bracket expression.
* §4: `fnmatch` matches exactly what the pieces of its pattern stand for (`fnmatch_iff`).
-/
import Mathlib.Data.List.Basic

namespace Libu.Fnmatch

/-! ## 1. The code -/

abbrev Byte := UInt8

def question : Byte := 63
def asterisk : Byte := 42
def bracket : Byte := 91
def closing : Byte := 93
def backslash : Byte := 92
def slash : Byte := 47
def period : Byte := 46
def minus : Byte := 45
def bang : Byte := 33
def circumflex : Byte := 94

/-- The flags, and whether `char` is signed. -/
structure Flags where
  noescape : Bool
  pathname : Bool
  period : Bool
  casefold : Bool
  leadingDir : Bool
  signed : Bool
  deriving DecidableEq

variable (fl : Flags)

/-- A `char` as an `int`. -/
def charValue (c : Byte) : Int := if fl.signed && 128 ≤ c then c.toNat - 256 else c.toNat

/-- An `unsigned char` as an `int`. -/
def value (c : Byte) : Int := c.toNat

/-- `FOLDCASE` -/
def foldcase (c : Byte) : Byte := if fl.casefold && (65 ≤ c && c ≤ 90) then c + 32 else c

/-- A character of a bracket expression, which may be escaped, and what is behind it; `none` at the
end of the pattern. -/
def rangeChar (c : Byte) (p : List Byte) : Option (Byte × List Byte) :=
  if foldcase fl c = backslash && !fl.noescape then
    match p with
    | [] => none
    | c :: p => some (foldcase fl c, p)
  else some (foldcase fl c, p)

variable {fl} in
theorem rangeChar_length {c c' : Byte} {p p' : List Byte} (h : rangeChar fl c p = some (c', p')) :
    p'.length ≤ p.length := by
  unfold rangeChar at h
  split at h
  · cases p with
    | nil => cases h
    | cons x p =>
      obtain ⟨-, rfl⟩ := Prod.mk.inj (Option.some.inj h)
      exact Nat.le_succ _
  · obtain ⟨-, rfl⟩ := Prod.mk.inj (Option.some.inj h)
    exact Nat.le_refl _

/-- A character or a range of a bracket expression: its bounds, and what is behind it. -/
def rangeItem (c : Byte) (p : List Byte) : Option ((Byte × Byte) × List Byte) :=
  match rangeChar fl c p with
  | none => none
  | some (c, p) =>
    match p with
    | hyphen :: c2 :: p' =>
      if hyphen = minus ∧ foldcase fl c2 ≠ closing then
        (rangeChar fl c2 p').map fun m => ((c, m.1), m.2)
      else some ((c, c), p)
    | _ => some ((c, c), p)

variable {fl} in
theorem rangeItem_length {c : Byte} {r : Byte × Byte} {p p' : List Byte}
    (h : rangeItem fl c p = some (r, p')) : p'.length ≤ p.length := by
  unfold rangeItem at h
  cases hc : rangeChar fl c p with
  | none => simp [hc] at h
  | some m =>
    obtain ⟨c', q⟩ := m
    have hlen := rangeChar_length hc
    simp only [hc] at h
    split at h
    · next hyphen c2 q' =>
      split at h
      · obtain ⟨m, hm, heq⟩ := Option.map_eq_some_iff.mp h
        have hlen' := rangeChar_length hm
        obtain ⟨-, rfl⟩ := Prod.mk.inj heq
        simp only [List.length_cons] at hlen
        omega
      · obtain ⟨-, rfl⟩ := Prod.mk.inj (Option.some.inj h)
        exact hlen
    · obtain ⟨-, rfl⟩ := Prod.mk.inj (Option.some.inj h)
      exact hlen

/-- Whether `test` is in a range. -/
def inRange (test : Int) (r : Byte × Byte) : Bool :=
  charValue fl r.1 ≤ test && test ≤ charValue fl r.2

/-- The loop of `rangematch`: `ok`, and the pattern behind the `]`. -/
def rangeLoop (test : Int) (ok : Bool) (p : List Byte) : Option (Bool × List Byte) :=
  match p with
  | [] => none
  | c :: p =>
    if foldcase fl c = closing then some (ok, p)
    else
      match h : rangeItem fl c p with
      | none => none
      | some (r, p') =>
        have : p'.length < p.length + 1 := Nat.lt_succ_of_le (rangeItem_length h)
        rangeLoop test (ok || inRange fl test r) p'
termination_by p.length

/-- Whether a bracket expression is negated, and what is behind that. -/
def negation (p : List Byte) : Bool × List Byte :=
  match p with
  | [] => (false, [])
  | c :: p' => if c = bang ∨ c = circumflex then (true, p') else (false, p)

/-- `rangematch`: the pattern behind the expression, or `none` for NULL. -/
def rangematch (p : List Byte) (test : Int) : Option (List Byte) :=
  match rangeLoop fl test false (negation p).2 with
  | none => none
  | some (ok, p') => if ok = (negation p).1 then none else some p'

/-- The pattern behind some `*`. -/
def collapse (p : List Byte) : List Byte := p.dropWhile fun c => foldcase fl c = asterisk

/-- A period that only a period matches; `prev` is the character before, if there is one. -/
def hidden (prev : Option Byte) (s : List Byte) : Bool :=
  s.head? = some period && fl.period && (prev = none || fl.pathname && prev = some slash)

/-- `strchr(string, '/')`, with what is before it. -/
def fromSlash (prev : Option Byte) : List Byte → Option (Option Byte × List Byte)
  | [] => none
  | x :: s => if x = slash then some (prev, x :: s) else fromSlash (some x) s

/-- The `while` behind a `*`, with `m` for the call of `fnmatch`. -/
def starLoop (m : List Byte → Bool) : List Byte → Bool
  | [] => false
  | x :: s => m (x :: s) || !(x = slash && fl.pathname) && starLoop m s

/-- The character that is behind a `\\`; at the end of the pattern, the `\\` itself. -/
def escaped (c : Byte) (p : List Byte) : Byte × List Byte :=
  if foldcase fl c = backslash && !fl.noescape then
    match p with
    | [] => (backslash, [])
    | c :: p => (foldcase fl c, p)
  else (foldcase fl c, p)

variable {fl} in
theorem escaped_length (c : Byte) (p : List Byte) : (escaped fl c p).2.length ≤ p.length := by
  unfold escaped
  split
  · cases p with
    | nil => exact Nat.le_refl _
    | cons x p => exact Nat.le_succ _
  · exact Nat.le_refl _

variable {fl} in
theorem rangeLoop_length {test : Int} {ok ok' : Bool} {p p' : List Byte}
    (h : rangeLoop fl test ok p = some (ok', p')) : p'.length ≤ p.length := by
  fun_induction rangeLoop fl test ok p with
  | case1 ok => cases h
  | case2 ok c p hc =>
    obtain ⟨-, rfl⟩ := Prod.mk.inj (Option.some.inj h)
    exact Nat.le_succ _
  | case3 ok c p hc hitem => cases h
  | case4 ok c p hc r q hitem hlen ih =>
    have hrest := ih h
    simp only [List.length_cons]
    omega

theorem negation_length (p : List Byte) : (negation p).2.length ≤ p.length := by
  unfold negation
  split
  · exact Nat.le_refl _
  · split
    · exact Nat.le_succ _
    · exact Nat.le_refl _

variable {fl} in
theorem rangematch_length {test : Int} {p p' : List Byte} (h : rangematch fl p test = some p') :
    p'.length ≤ p.length := by
  have hneg := negation_length p
  unfold rangematch at h
  split at h
  · cases h
  · next ok q hloop =>
    have hlen := rangeLoop_length hloop
    split at h
    · cases h
    · obtain rfl := Option.some.inj h
      omega

variable {fl} in
theorem collapse_length (p : List Byte) : (collapse fl p).length ≤ p.length :=
  (List.dropWhile_suffix _).length_le

/-- `fnmatch`: whether it returns 0.  `prev` is the character before the string, if this is not its
start. -/
def fnmatch (fl : Flags) (prev : Option Byte) (p s : List Byte) : Bool :=
  match p with
  | [] => (fl.leadingDir && s.head? = some slash) || s.isEmpty
  | c :: p =>
    if foldcase fl c = question then
      match s with
      | [] => false
      | x :: s' =>
        if x = slash && fl.pathname then false
        else if hidden fl prev s then false
        else fnmatch fl (some x) p s'
    else if foldcase fl c = asterisk then
      if hidden fl prev s then false
      else
        match hp : collapse fl p with
        | [] => if fl.pathname then fl.leadingDir || !s.contains slash else true
        | c :: p' =>
          have : p'.length < p.length := by
            have hlen : (collapse fl p).length ≤ p.length := collapse_length p
            rw [hp, List.length_cons] at hlen
            omega
          if foldcase fl c = slash && fl.pathname then
            match fromSlash prev s with
            | none => false
            | some (prev, s) => fnmatch fl prev (c :: p') s
          else starLoop fl (fun s => fnmatch { fl with period := false } none (c :: p') s) s
    else if foldcase fl c = bracket then
      match s with
      | [] => false
      | x :: s' =>
        if x = slash && fl.pathname then false
        else
          match hp : rangematch fl p (value (foldcase fl x)) with
          | none => false
          | some p' =>
            have : p'.length < p.length + 1 := Nat.lt_succ_of_le (rangematch_length hp)
            fnmatch fl (some x) p' s'
    else
      have : (escaped fl c p).2.length < p.length + 1 := Nat.lt_succ_of_le (escaped_length c p)
      match s with
      | [] => false
      | x :: s' =>
        if charValue fl (escaped fl c p).1 = value (foldcase fl x) then
          fnmatch fl (some x) (escaped fl c p).2 s'
        else false
termination_by p.length

/-! ## 2. What a pattern stands for -/

/-- A piece of a pattern.  A character is `bare` when it is not escaped. -/
inductive Piece
  | any
  | star
  | set (negated : Bool) (ranges : List (Byte × Byte))
  | char (c : Byte) (bare : Bool)
  deriving DecidableEq

/-- The ranges of a bracket expression, and what is behind it. -/
def ranges (p : List Byte) : Option (List (Byte × Byte) × List Byte) :=
  match p with
  | [] => none
  | c :: p =>
    if foldcase fl c = closing then some ([], p)
    else
      match h : rangeItem fl c p with
      | none => none
      | some (r, p') =>
        have : p'.length < p.length + 1 := Nat.lt_succ_of_le (rangeItem_length h)
        (ranges p').map fun m => (r :: m.1, m.2)
termination_by p.length

variable {fl} in
theorem ranges_length {rs : List (Byte × Byte)} {p p' : List Byte}
    (h : ranges fl p = some (rs, p')) : p'.length ≤ p.length := by
  fun_induction ranges fl p generalizing rs with
  | case1 => cases h
  | case2 c p hc =>
    obtain ⟨-, rfl⟩ := Prod.mk.inj (Option.some.inj h)
    exact Nat.le_succ _
  | case3 c p hc hitem => cases h
  | case4 c p hc r q hitem hlen ih =>
    obtain ⟨m, hm, heq⟩ := Option.map_eq_some_iff.mp h
    obtain ⟨-, rfl⟩ := Prod.mk.inj heq
    have hrest := ih hm
    simp only [List.length_cons]
    omega

/-- The pieces of a pattern; some `*` in a row are one.  There are none where a bracket expression
does not end. -/
def pieces (p : List Byte) : Option (List Piece) :=
  match p with
  | [] => some []
  | c :: p =>
    if foldcase fl c = question then (pieces p).map (.any :: ·)
    else if foldcase fl c = asterisk then
      have : (collapse fl p).length < p.length + 1 := Nat.lt_succ_of_le (collapse_length p)
      (pieces (collapse fl p)).map (.star :: ·)
    else if foldcase fl c = bracket then
      match h : ranges fl (negation p).2 with
      | none => none
      | some (rs, p') =>
        have : p'.length < p.length + 1 :=
          Nat.lt_succ_of_le (Nat.le_trans (ranges_length h) (negation_length p))
        (pieces p').map (.set (negation p).1 rs :: ·)
    else
      have : (escaped fl c p).2.length < p.length + 1 := Nat.lt_succ_of_le (escaped_length c p)
      (pieces (escaped fl c p).2).map
        (.char (escaped fl c p).1 (decide (foldcase fl c ≠ backslash || fl.noescape)) :: ·)
termination_by p.length

/-- Whether the next piece is a `/` as such. -/
def slashNext : List Piece → Bool
  | .char c true :: _ => c = slash
  | _ => false

/-- The flags for what is behind a `*`: `FNM_PERIOD` is kept only where a `/` follows that the `*`
cannot match. -/
def behindStar (ts : List Piece) : Flags :=
  if fl.pathname && slashNext ts then fl else { fl with period := false }

/-- What the pieces stand for, behind the character `prev`. -/
def Matches (fl : Flags) (prev : Option Byte) : List Piece → List Byte → Prop
  | [], s => s = [] ∨ fl.leadingDir = true ∧ s.head? = some slash
  | .any :: ts, s => hidden fl prev s = false ∧ ∃ x s', s = x :: s' ∧
      (fl.pathname = true → x ≠ slash) ∧ Matches fl (some x) ts s'
  | .set negated rs :: ts, s => ∃ x s', s = x :: s' ∧ (fl.pathname = true → x ≠ slash) ∧
      rs.any (inRange fl (value (foldcase fl x))) ≠ negated ∧ Matches fl (some x) ts s'
  | .char c _ :: ts, s => ∃ x s', s = x :: s' ∧ charValue fl c = value (foldcase fl x) ∧
      Matches fl (some x) ts s'
  | .star :: ts, s => hidden fl prev s = false ∧ ∃ u v, s = u ++ v ∧
      (fl.pathname = true → slash ∉ u) ∧
      Matches (behindStar fl ts) (u.getLast?.or prev) ts v

/-! ## 3. Bracket expressions -/

section

variable {fl : Flags} {prev prev' : Option Byte} {c : Byte} {p p' s : List Byte} {ts : List Piece}
  {test : Int}

theorem rangeLoop_eq (ok : Bool) : rangeLoop fl test ok p =
    (ranges fl p).map fun m => (ok || m.1.any (inRange fl test), m.2) := by
  fun_induction rangeLoop fl test ok p with
  | case1 ok => simp [ranges]
  | case2 ok c p hc => simp [ranges, hc]
  | case3 ok c p hc hitem =>
    rw [ranges, if_neg hc]
    split
    · rfl
    · next heq => rw [hitem] at heq; cases heq
  | case4 ok c p hc r q hitem hlen ih =>
    rw [ih, ranges, if_neg hc]
    split
    · next heq => rw [hitem] at heq; cases heq
    · next heq =>
      obtain ⟨rfl, rfl⟩ := Prod.mk.inj (Option.some.inj (hitem.symm.trans heq))
      cases ranges fl q <;> simp [Bool.or_assoc]

theorem rangematch_eq : rangematch fl p test = (ranges fl (negation p).2).bind fun m =>
    if m.1.any (inRange fl test) = (negation p).1 then none else some m.2 := by
  rw [rangematch, rangeLoop_eq]
  cases ranges fl (negation p).2 <;> simp

/-! ## 4. Matching -/

/-- Without `FNM_PERIOD` nothing is hidden. -/
theorem hidden_of_period (h : fl.period = false) : hidden fl prev s = false := by
  simp [hidden, h]

/-- Without `FNM_PERIOD` it does not matter what is before. -/
theorem matches_congr (h : fl.period = false) (ts : List Piece) (s : List Byte) :
    Matches fl prev ts s ↔ Matches fl prev' ts s := by
  induction ts generalizing fl prev prev' s with
  | nil => exact Iff.rfl
  | cons t ts ih =>
    cases t with
    | any => simp [Matches, hidden_of_period h]
    | set negated rs => exact Iff.rfl
    | char c bare => exact Iff.rfl
    | star =>
      have hbehind : (behindStar fl ts).period = false := by
        unfold behindStar
        split
        · exact h
        · rfl
      simp only [Matches, hidden_of_period h, true_and]
      exact exists_congr fun u => exists_congr fun v => and_congr_right fun _ =>
        and_congr_right fun _ => ih hbehind v

/-- A `/` as such is matched by a `/`, whatever is before. -/
theorem matches_slash (h : slashNext ts = true) :
    Matches fl prev ts s ↔ Matches fl prev' ts s := by
  cases ts with
  | nil => cases h
  | cons t ts =>
    cases t with
    | char c bare => exact Iff.rfl
    | any => cases h
    | star => cases h
    | set negated rs => cases h

/-- The loop behind a `*` tries every place up to the next `/`, but for the end. -/
theorem starLoop_iff {m : List Byte → Bool} : starLoop fl m s = true ↔
    ∃ u v, s = u ++ v ∧ (fl.pathname = true → slash ∉ u) ∧ v ≠ [] ∧ m v = true := by
  induction s with
  | nil =>
    simp only [starLoop, Bool.false_eq_true, false_iff]
    rintro ⟨u, v, heq, -, hne, -⟩
    exact hne (List.append_eq_nil_iff.mp heq.symm).2
  | cons x s ih =>
    simp only [starLoop, Bool.or_eq_true, Bool.and_eq_true, ih]
    constructor
    · rintro (hm | ⟨hx, u, v, rfl, hu, hne, hm⟩)
      · exact ⟨[], x :: s, rfl, by simp, by simp, hm⟩
      · refine ⟨x :: u, v, rfl, fun hpath => ?_, hne, hm⟩
        have hslash : x ≠ slash := by
          rintro rfl
          simp [hpath] at hx
        simp [hu hpath, Ne.symm hslash]
    · rintro ⟨u, v, heq, hu, hne, hm⟩
      cases u with
      | nil =>
        rw [List.nil_append] at heq
        exact .inl (heq ▸ hm)
      | cons y u =>
        obtain ⟨rfl, rfl⟩ := List.cons.inj heq
        refine .inr ⟨?_, u, v, rfl, fun hpath hmem => hu hpath (List.mem_cons_of_mem _ hmem), hne,
          hm⟩
        cases hpath : fl.pathname with
        | false => simp
        | true =>
          have hslash : x ≠ slash := fun hslash => hu hpath (hslash ▸ List.mem_cons_self)
          simp [hslash]

/-- The next `/`. -/
theorem fromSlash_eq_some {q : Option Byte × List Byte} (h : fromSlash prev s = some q) :
    ∃ u, s = u ++ q.2 ∧ slash ∉ u ∧ q.2.head? = some slash := by
  induction s generalizing prev with
  | nil => cases h
  | cons x s ih =>
    rw [fromSlash] at h
    split at h
    · next hx =>
      obtain rfl := Option.some.inj h
      exact ⟨[], rfl, by simp, by simp [hx]⟩
    · next hx =>
      obtain ⟨u, rfl, hu, hhead⟩ := ih h
      exact ⟨x :: u, rfl, by simp [hu, Ne.symm hx], hhead⟩

theorem fromSlash_eq_none (h : fromSlash prev s = none) : slash ∉ s := by
  induction s generalizing prev with
  | nil => simp
  | cons x s ih =>
    rw [fromSlash] at h
    split at h
    · cases h
    · next hx => simp [ih h, Ne.symm hx]

/-- What is before a `/` is determined by there being none in it. -/
theorem split_unique {u u' v v' : List Byte} (h : u ++ v = u' ++ v') (hu : slash ∉ u)
    (hu' : slash ∉ u') (hv : v.head? = some slash) (hv' : v'.head? = some slash) : v = v' := by
  induction u generalizing u' with
  | nil =>
    cases u' with
    | nil => simpa using h
    | cons y u' =>
      rw [List.nil_append] at h
      subst h
      obtain rfl : y = slash := by simpa using hv
      exact absurd List.mem_cons_self hu'
  | cons x u ih =>
    cases u' with
    | nil =>
      rw [List.nil_append] at h
      subst h
      obtain rfl : x = slash := by simpa using hv'
      exact absurd List.mem_cons_self hu
    | cons y u' =>
      obtain ⟨-, h⟩ := List.cons.inj h
      exact ih h (fun hm => hu (List.mem_cons_of_mem _ hm)) fun hm =>
        hu' (List.mem_cons_of_mem _ hm)

theorem ranges_cons : ranges fl (c :: p) =
    if foldcase fl c = closing then some ([], p)
    else (rangeItem fl c p).bind fun i => (ranges fl i.2).map fun m => (i.1 :: m.1, m.2) := by
  rw [ranges]
  split
  · rfl
  · split
    · next heq => simp [heq]
    · next heq => simp [heq]

theorem pieces_cons : pieces fl (c :: p) =
    if foldcase fl c = question then (pieces fl p).map (.any :: ·)
    else if foldcase fl c = asterisk then (pieces fl (collapse fl p)).map (.star :: ·)
    else if foldcase fl c = bracket then
      (ranges fl (negation p).2).bind fun m => (pieces fl m.2).map (.set (negation p).1 m.1 :: ·)
    else (pieces fl (escaped fl c p).2).map
      (.char (escaped fl c p).1 (decide (foldcase fl c ≠ backslash || fl.noescape)) :: ·) := by
  rw [pieces]
  split
  · rfl
  · split
    · rfl
    · split
      · split
        · next heq => simp [heq]
        · next heq => simp [heq]
      · rfl

/-- `FNM_PERIOD` is not about the pattern. -/
theorem ranges_period : ranges { fl with period := false } p = ranges fl p := by
  induction hn : p.length using Nat.strongRecOn generalizing p with
  | _ n ih =>
    cases p with
    | nil => simp [ranges]
    | cons c p =>
      rw [ranges_cons, ranges_cons]
      refine if_congr Iff.rfl rfl (Option.bind_congr fun i hi => ?_)
      have hlen := rangeItem_length hi
      rw [ih i.2.length (by simp at hn; omega) rfl]

theorem pieces_period : pieces { fl with period := false } p = pieces fl p := by
  induction hn : p.length using Nat.strongRecOn generalizing p with
  | _ n ih =>
    cases p with
    | nil => simp [pieces]
    | cons c p =>
      rw [List.length_cons] at hn
      have hneg := negation_length p
      have hstar : (collapse fl p).length ≤ p.length := collapse_length p
      have hesc : (escaped fl c p).2.length ≤ p.length := escaped_length c p
      rw [pieces_cons, pieces_cons, ih p.length (by omega) rfl, ranges_period]
      refine if_congr Iff.rfl rfl (if_congr Iff.rfl ?_ (if_congr Iff.rfl ?_ ?_))
      · exact congrArg _ (ih (collapse fl p).length (by omega) rfl)
      · refine Option.bind_congr fun m hm => ?_
        have hlen := ranges_length hm
        rw [ih m.2.length (by omega) rfl]
      · exact congrArg _ (ih (escaped fl c p).2.length (by omega) rfl)

theorem fnmatch_nil : fnmatch fl prev [] s = true ↔ Matches fl prev [] s := by
  simp [fnmatch, Matches, or_comm]

theorem slash_iff {x : Byte} : (x = slash && fl.pathname) = true ↔
    ¬ (fl.pathname = true → x ≠ slash) := by
  simp [and_comm]

theorem exists_cons {x : Byte} {P : Byte → List Byte → Prop} :
    (∃ x' s', x :: s = x' :: s' ∧ P x' s') ↔ P x s := by
  constructor
  · rintro ⟨x', s', heq, hp⟩
    obtain ⟨rfl, rfl⟩ := List.cons.inj heq
    exact hp
  · intro hp
    exact ⟨x, s, rfl, hp⟩

theorem fnmatch_question (h : foldcase fl c = question) : fnmatch fl prev (c :: p) s = true ↔
    hidden fl prev s = false ∧ ∃ x s', s = x :: s' ∧ (fl.pathname = true → x ≠ slash) ∧
      fnmatch fl (some x) p s' = true := by
  rw [fnmatch.eq_def]
  dsimp only
  rw [if_pos h]
  cases s with
  | nil => simp
  | cons x s =>
    simp only [slash_iff, exists_cons]
    by_cases hx : fl.pathname = true → x ≠ slash
    · rw [if_neg (not_not_intro hx), and_iff_right hx]
      cases hidden fl prev (x :: s) <;> simp
    · rw [if_pos hx]
      simp only [hx, false_and, and_false, Bool.false_eq_true]

theorem fnmatch_bracket (h : foldcase fl c = bracket) : fnmatch fl prev (c :: p) s = true ↔
    ∃ m, ranges fl (negation p).2 = some m ∧ ∃ x s', s = x :: s' ∧
      (fl.pathname = true → x ≠ slash) ∧
      m.1.any (inRange fl (value (foldcase fl x))) ≠ (negation p).1 ∧
      fnmatch fl (some x) m.2 s' = true := by
  have hquestion : foldcase fl c ≠ question := by simp [h, bracket, question]
  have hasterisk : foldcase fl c ≠ asterisk := by simp [h, bracket, asterisk]
  rw [fnmatch.eq_def]
  dsimp only
  rw [if_neg hquestion, if_neg hasterisk, if_pos h]
  cases s with
  | nil => simp
  | cons x s =>
    simp only [slash_iff, exists_cons]
    by_cases hx : fl.pathname = true → x ≠ slash
    · rw [if_neg (not_not_intro hx)]
      simp only [and_iff_right hx]
      split
      · next heq =>
        rw [rangematch_eq] at heq
        simp only [Bool.false_eq_true, false_iff]
        rintro ⟨m, hm, hany, -⟩
        rw [hm, Option.bind_some, if_neg hany] at heq
        cases heq
      · next q heq =>
        rw [rangematch_eq] at heq
        obtain ⟨m, hm, heq⟩ := Option.bind_eq_some_iff.mp heq
        split at heq
        · cases heq
        · next hany =>
          obtain rfl := Option.some.inj heq
          simp [hm, hany]
    · rw [if_pos hx]
      simp only [hx, false_and, and_false, Bool.false_eq_true, exists_false]

theorem fnmatch_char (hquestion : foldcase fl c ≠ question) (hasterisk : foldcase fl c ≠ asterisk)
    (hbracket : foldcase fl c ≠ bracket) : fnmatch fl prev (c :: p) s = true ↔
    ∃ x s', s = x :: s' ∧ charValue fl (escaped fl c p).1 = value (foldcase fl x) ∧
      fnmatch fl (some x) (escaped fl c p).2 s' = true := by
  rw [fnmatch.eq_def]
  dsimp only
  rw [if_neg hquestion, if_neg hasterisk, if_neg hbracket]
  cases s with
  | nil => simp
  | cons x s => simp

/-- A `*` at the end. -/
theorem fnmatch_asterisk_nil (h : foldcase fl c = asterisk) (hp : collapse fl p = []) :
    fnmatch fl prev (c :: p) s = true ↔
      hidden fl prev s = false ∧
        (fl.pathname = true → fl.leadingDir = true ∨ slash ∉ s) := by
  have hquestion : foldcase fl c ≠ question := by simp [h, asterisk, question]
  rw [fnmatch.eq_def]
  dsimp only
  rw [if_neg hquestion, if_pos h]
  cases hidden fl prev s with
  | true => simp
  | false =>
    rw [if_neg (by simp)]
    split
    · cases fl.pathname <;> simp
    · next heq => cases hp.symm.trans heq

/-- A `*` before a `/` that it does not match. -/
theorem fnmatch_asterisk_slash (h : foldcase fl c = asterisk) {d : Byte}
    (hp : collapse fl p = d :: p') (hd : (foldcase fl d = slash && fl.pathname) = true) :
    fnmatch fl prev (c :: p) s = true ↔ hidden fl prev s = false ∧
      ∃ m, fromSlash prev s = some m ∧ fnmatch fl m.1 (d :: p') m.2 = true := by
  have hquestion : foldcase fl c ≠ question := by simp [h, asterisk, question]
  rw [fnmatch.eq_def]
  dsimp only
  rw [if_neg hquestion, if_pos h]
  cases hidden fl prev s with
  | true => simp
  | false =>
    rw [if_neg (by simp)]
    split
    · next heq => cases hp.symm.trans heq
    · next heq =>
      obtain ⟨rfl, rfl⟩ := List.cons.inj (hp.symm.trans heq)
      rw [if_pos hd]
      split
      · next heq => simp [heq]
      · next heq => simp [heq]

/-- A `*` before anything else. -/
theorem fnmatch_asterisk (h : foldcase fl c = asterisk) {d : Byte}
    (hp : collapse fl p = d :: p') (hd : ¬ (foldcase fl d = slash && fl.pathname) = true) :
    fnmatch fl prev (c :: p) s = true ↔ hidden fl prev s = false ∧
      ∃ u v, s = u ++ v ∧ (fl.pathname = true → slash ∉ u) ∧ v ≠ [] ∧
        fnmatch { fl with period := false } none (d :: p') v = true := by
  have hquestion : foldcase fl c ≠ question := by simp [h, asterisk, question]
  rw [fnmatch.eq_def]
  dsimp only
  rw [if_neg hquestion, if_pos h]
  cases hidden fl prev s with
  | true => simp
  | false =>
    rw [if_neg (by simp)]
    split
    · next heq => cases hp.symm.trans heq
    · next heq =>
      obtain ⟨rfl, rfl⟩ := List.cons.inj (hp.symm.trans heq)
      rw [if_neg hd, starLoop_iff]
      simp

theorem slashNext_char {bare : Bool} :
    slashNext (.char c bare :: ts) = (bare && decide (c = slash)) := by
  cases bare <;> rfl

/-- The first piece, but for a `*`. -/
theorem pieces_head (h : foldcase fl c ≠ asterisk) (hts : pieces fl (c :: p) = some ts) :
    ∃ t ts', ts = t :: ts' ∧ t ≠ .star ∧ (slashNext ts = true ↔ foldcase fl c = slash) := by
  rw [pieces_cons, if_neg h] at hts
  split at hts
  · next hc =>
    obtain ⟨ts', -, rfl⟩ := Option.map_eq_some_iff.mp hts
    exact ⟨.any, ts', rfl, by simp, by simp [slashNext, hc, question, slash]⟩
  · split at hts
    · next hc =>
      obtain ⟨m, -, hm⟩ := Option.bind_eq_some_iff.mp hts
      obtain ⟨ts', -, rfl⟩ := Option.map_eq_some_iff.mp hm
      exact ⟨.set (negation p).1 m.1, ts', rfl, by simp, by simp [slashNext, hc, bracket, slash]⟩
    · obtain ⟨ts', -, rfl⟩ := Option.map_eq_some_iff.mp hts
      refine ⟨_, ts', rfl, by simp, ?_⟩
      rw [slashNext_char]
      by_cases hesc : (foldcase fl c = backslash && !fl.noescape) = true
      · obtain ⟨hc, hesc⟩ : foldcase fl c = backslash ∧ fl.noescape = false := by simpa using hesc
        simp [hc, hesc, backslash, slash]
      · have hbare : (decide (foldcase fl c ≠ backslash) || fl.noescape) = true := by
          cases hc : decide (foldcase fl c = backslash) <;> simp_all
        rw [escaped.eq_def, if_neg hesc, hbare]
        simp

theorem matches_ne_nil {t : Piece} (ht : t ≠ .star) (h : Matches fl prev (t :: ts) s) : s ≠ [] := by
  cases t with
  | any =>
    obtain ⟨-, x, s', rfl, -⟩ := h
    simp
  | star => exact absurd rfl ht
  | set negated rs =>
    obtain ⟨x, s', rfl, -⟩ := h
    simp
  | char c bare =>
    obtain ⟨x, s', rfl, -⟩ := h
    simp

theorem foldcase_eq_slash {x : Byte} (h : foldcase fl x = slash) : x = slash := by
  unfold foldcase at h
  split at h
  · next hx =>
    simp only [Bool.and_eq_true, decide_eq_true_eq, UInt8.le_iff_toNat_le] at hx
    have hnat : (x.toNat + 32) % 256 = 47 := congrArg UInt8.toNat h
    have hlower : 65 ≤ x.toNat := hx.2.1
    have hupper : x.toNat ≤ 90 := hx.2.2
    omega
  · exact h

theorem matches_slash_head (ht : slashNext ts = true) (h : Matches fl prev ts s) :
    s.head? = some slash := by
  cases ts with
  | nil => cases ht
  | cons t ts =>
    cases t with
    | any => cases ht
    | star => cases ht
    | set negated rs => cases ht
    | char c bare =>
      rw [slashNext_char, Bool.and_eq_true, decide_eq_true_eq] at ht
      obtain ⟨-, rfl⟩ := ht
      obtain ⟨x, s', rfl, hx, -⟩ := h
      have hslash : charValue fl slash = value slash := by simp [charValue, value, slash]
      have hfold : foldcase fl x = slash :=
        (UInt8.toNat_inj.mp (Int.ofNat.inj (hslash.symm.trans hx))).symm
      simp [foldcase_eq_slash hfold]

/-- What is behind a `*` in the pattern does not begin with another. -/
theorem collapse_head {d : Byte} (hp : collapse fl p = d :: p') : foldcase fl d ≠ asterisk := by
  have hd := List.head?_dropWhile_not (fun c => decide (foldcase fl c = asterisk)) p
  rw [← collapse, hp] at hd
  simpa using hd

/-- A `*` at the end stands for everything, but that it stops at a `/`. -/
theorem matches_trailing : Matches fl prev [.star] s ↔
    hidden fl prev s = false ∧ (fl.pathname = true → fl.leadingDir = true ∨ slash ∉ s) := by
  refine and_congr_right fun _ => ?_
  constructor
  · rintro ⟨u, v, rfl, hu, hv⟩ hpath
    rcases hv with rfl | ⟨hdir, -⟩
    · exact .inr (by simpa using hu hpath)
    · exact .inl (by simpa [behindStar, slashNext] using hdir)
  · intro h
    by_cases hpath : fl.pathname = true
    · cases hslash : fromSlash prev s with
      | none =>
        exact ⟨s, [], by simp, fun _ => fromSlash_eq_none hslash, .inl rfl⟩
      | some m =>
        obtain ⟨u, heq, hu, hhead⟩ := fromSlash_eq_some hslash
        have hmem : slash ∈ s := by
          rw [heq]
          exact List.mem_append_right _ (List.mem_of_head? hhead)
        have hdir : fl.leadingDir = true := (h hpath).resolve_right (not_not_intro hmem)
        exact ⟨u, m.2, heq, fun _ => hu, .inr ⟨by simpa [behindStar, slashNext] using hdir, hhead⟩⟩
    · exact ⟨s, [], by simp, fun h => absurd h hpath, .inl rfl⟩

/-- `fnmatch` matches what the pattern `p` stands for. -/
def Agrees (p : List Byte) : Prop := ∀ (fl : Flags) (prev : Option Byte) (s : List Byte),
  fnmatch fl prev p s = true ↔ ∃ ts, pieces fl p = some ts ∧ Matches fl prev ts s

theorem question_agrees (h : foldcase fl c = question) (hp : Agrees p) :
    fnmatch fl prev (c :: p) s = true ↔
      ∃ ts, pieces fl (c :: p) = some ts ∧ Matches fl prev ts s := by
  rw [fnmatch_question h, pieces_cons, if_pos h]
  constructor
  · rintro ⟨hhidden, x, s', rfl, hx, hm⟩
    obtain ⟨ts, hts, hm⟩ := (hp _ _ _).mp hm
    exact ⟨.any :: ts, by simp [hts], hhidden, x, s', rfl, hx, hm⟩
  · rintro ⟨_, heq, hm⟩
    obtain ⟨ts, hts, rfl⟩ := Option.map_eq_some_iff.mp heq
    obtain ⟨hhidden, x, s', rfl, hx, hm⟩ := hm
    exact ⟨hhidden, x, s', rfl, hx, (hp _ _ _).mpr ⟨ts, hts, hm⟩⟩

theorem bracket_agrees (h : foldcase fl c = bracket)
    (hp : ∀ m, ranges fl (negation p).2 = some m → Agrees m.2) :
    fnmatch fl prev (c :: p) s = true ↔
      ∃ ts, pieces fl (c :: p) = some ts ∧ Matches fl prev ts s := by
  rw [fnmatch_bracket h, pieces_cons, if_neg (by simp [h, bracket, question]),
    if_neg (by simp [h, bracket, asterisk]), if_pos h]
  constructor
  · rintro ⟨m, hranges, x, s', rfl, hx, hany, hm⟩
    obtain ⟨ts, hts, hm⟩ := (hp m hranges _ _ _).mp hm
    exact ⟨.set (negation p).1 m.1 :: ts, by simp [hranges, hts], x, s', rfl, hx, hany, hm⟩
  · rintro ⟨_, heq, hm⟩
    obtain ⟨m, hranges, heq⟩ := Option.bind_eq_some_iff.mp heq
    obtain ⟨ts, hts, rfl⟩ := Option.map_eq_some_iff.mp heq
    obtain ⟨x, s', rfl, hx, hany, hm⟩ := hm
    exact ⟨m, hranges, x, s', rfl, hx, hany, (hp m hranges _ _ _).mpr ⟨ts, hts, hm⟩⟩

theorem char_agrees (hquestion : foldcase fl c ≠ question) (hasterisk : foldcase fl c ≠ asterisk)
    (hbracket : foldcase fl c ≠ bracket) (hp : Agrees (escaped fl c p).2) :
    fnmatch fl prev (c :: p) s = true ↔
      ∃ ts, pieces fl (c :: p) = some ts ∧ Matches fl prev ts s := by
  rw [fnmatch_char hquestion hasterisk hbracket, pieces_cons, if_neg hquestion, if_neg hasterisk,
    if_neg hbracket]
  constructor
  · rintro ⟨x, s', rfl, hx, hm⟩
    obtain ⟨ts, hts, hm⟩ := (hp _ _ _).mp hm
    exact ⟨_, Option.map_eq_some_iff.mpr ⟨ts, hts, rfl⟩, x, s', rfl, hx, hm⟩
  · rintro ⟨_, heq, hm⟩
    obtain ⟨ts, hts, rfl⟩ := Option.map_eq_some_iff.mp heq
    obtain ⟨x, s', rfl, hx, hm⟩ := hm
    exact ⟨x, s', rfl, hx, (hp _ _ _).mpr ⟨ts, hts, hm⟩⟩

/-- The `/` that ends what a `*` matches is the next one. -/
theorem star_slash (hpath : fl.pathname = true) (hts : slashNext ts = true) :
    Matches fl prev (.star :: ts) s ↔ hidden fl prev s = false ∧
      ∃ m, fromSlash prev s = some m ∧ Matches fl m.1 ts m.2 := by
  have hbehind : behindStar fl ts = fl := by simp [behindStar, hpath, hts]
  refine and_congr_right fun _ => ?_
  rw [hbehind]
  constructor
  · rintro ⟨u, v, rfl, hu, hm⟩
    have hhead := matches_slash_head hts hm
    cases hslash : fromSlash prev (u ++ v) with
    | none =>
      exact absurd (List.mem_append_right _ (List.mem_of_head? hhead)) (fromSlash_eq_none hslash)
    | some m =>
      obtain ⟨u', heq, hu', hhead'⟩ := fromSlash_eq_some hslash
      obtain rfl := split_unique heq (hu hpath) hu' hhead hhead'
      exact ⟨m, rfl, (matches_slash hts).mp hm⟩
  · rintro ⟨m, hslash, hm⟩
    obtain ⟨u, heq, hu, -⟩ := fromSlash_eq_some hslash
    exact ⟨u, m.2, heq, fun _ => hu, (matches_slash hts).mp hm⟩

/-- What is behind a `*` takes a character at least, so that the end need not be tried. -/
theorem star_other {t : Piece} (ht : t ≠ .star)
    (hslash : (fl.pathname && slashNext (t :: ts)) = false) :
    Matches fl prev (.star :: t :: ts) s ↔ hidden fl prev s = false ∧
      ∃ u v, s = u ++ v ∧ (fl.pathname = true → slash ∉ u) ∧ v ≠ [] ∧
        Matches { fl with period := false } none (t :: ts) v := by
  have hbehind : behindStar fl (t :: ts) = { fl with period := false } := by
    rw [behindStar, hslash, if_neg (by simp)]
  refine and_congr_right fun _ => ?_
  rw [hbehind]
  constructor
  · rintro ⟨u, v, heq, hu, hm⟩
    exact ⟨u, v, heq, hu, matches_ne_nil ht hm, (matches_congr rfl _ _).mp hm⟩
  · rintro ⟨u, v, heq, hu, -, hm⟩
    exact ⟨u, v, heq, hu, (matches_congr rfl _ _).mp hm⟩

theorem asterisk_agrees (h : foldcase fl c = asterisk) (hp : Agrees (collapse fl p)) :
    fnmatch fl prev (c :: p) s = true ↔
      ∃ ts, pieces fl (c :: p) = some ts ∧ Matches fl prev ts s := by
  have hpieces : (∃ ts, pieces fl (c :: p) = some ts ∧ Matches fl prev ts s) ↔
      ∃ ts, pieces fl (collapse fl p) = some ts ∧ Matches fl prev (.star :: ts) s := by
    rw [pieces_cons, if_neg (by simp [h, asterisk, question]), if_pos h]
    simp
  rw [hpieces]
  cases hcollapse : collapse fl p with
  | nil =>
    rw [fnmatch_asterisk_nil h hcollapse]
    simp [pieces, matches_trailing]
  | cons d p' =>
    rw [hcollapse] at hp
    have hne := collapse_head hcollapse
    by_cases hd : (foldcase fl d = slash && fl.pathname) = true
    · rw [fnmatch_asterisk_slash h hcollapse hd]
      obtain ⟨hslash, hpath⟩ : foldcase fl d = slash ∧ fl.pathname = true := by simpa using hd
      constructor
      · rintro ⟨hhidden, m, hm, hmatch⟩
        obtain ⟨ts, hts, hmatch⟩ := (hp _ _ _).mp hmatch
        obtain ⟨t, ts', rfl, -, hnext⟩ := pieces_head hne hts
        exact ⟨_, hts, (star_slash hpath (hnext.mpr hslash)).mpr ⟨hhidden, m, hm, hmatch⟩⟩
      · rintro ⟨ts, hts, hmatch⟩
        obtain ⟨t, ts', rfl, -, hnext⟩ := pieces_head hne hts
        obtain ⟨hhidden, m, hm, hmatch⟩ := (star_slash hpath (hnext.mpr hslash)).mp hmatch
        exact ⟨hhidden, m, hm, (hp _ _ _).mpr ⟨_, hts, hmatch⟩⟩
    · rw [fnmatch_asterisk h hcollapse hd]
      have hother : ∀ ts, (slashNext ts = true ↔ foldcase fl d = slash) →
          (fl.pathname && slashNext ts) = false := by
        intro ts hnext
        by_contra hboth
        simp [hnext] at hboth
        simp [hboth] at hd
      constructor
      · rintro ⟨hhidden, u, v, heq, hu, hv, hmatch⟩
        obtain ⟨ts, hts, hmatch⟩ := (hp _ _ _).mp hmatch
        rw [pieces_period] at hts
        obtain ⟨t, ts', rfl, ht, hnext⟩ := pieces_head hne hts
        exact ⟨_, hts, (star_other ht (hother _ hnext)).mpr ⟨hhidden, u, v, heq, hu, hv, hmatch⟩⟩
      · rintro ⟨ts, hts, hmatch⟩
        obtain ⟨t, ts', rfl, ht, hnext⟩ := pieces_head hne hts
        obtain ⟨hhidden, u, v, heq, hu, hv, hmatch⟩ := (star_other ht (hother _ hnext)).mp hmatch
        exact ⟨hhidden, u, v, heq, hu, hv, (hp _ _ _).mpr ⟨_, pieces_period.trans hts, hmatch⟩⟩

theorem agrees (p : List Byte) : Agrees p := by
  induction hn : p.length using Nat.strongRecOn generalizing p with
  | _ n ih =>
    intro fl prev s
    have hshort : ∀ q : List Byte, q.length < p.length → Agrees q := fun q hq =>
      ih q.length (hn ▸ hq) q rfl
    cases p with
    | nil => simp [fnmatch_nil, pieces]
    | cons c p =>
      have hlt : ∀ q : List Byte, q.length ≤ p.length → Agrees q := fun q hq =>
        hshort q (Nat.lt_succ_of_le hq)
      by_cases hquestion : foldcase fl c = question
      · exact question_agrees hquestion (hlt p (Nat.le_refl _))
      by_cases hasterisk : foldcase fl c = asterisk
      · exact asterisk_agrees hasterisk (hlt _ (collapse_length p))
      by_cases hbracket : foldcase fl c = bracket
      · exact bracket_agrees hbracket fun m hm =>
          hlt _ (Nat.le_trans (ranges_length hm) (negation_length p))
      · exact char_agrees hquestion hasterisk hbracket (hlt _ (escaped_length c p))

/-- **`fnmatch` matches what its pattern stands for.**  For every pattern, string and flags it
returns 0 exactly when the pattern has pieces, and the string is one that they stand for. -/
theorem fnmatch_iff (fl : Flags) (prev : Option Byte) (p s : List Byte) :
    fnmatch fl prev p s = true ↔ ∃ ts, pieces fl p = some ts ∧ Matches fl prev ts s :=
  agrees p fl prev s

/-- Where `char` is signed, a character from 128 on is matched by nothing. -/
theorem not_matches_signed {bare : Bool} (hsigned : fl.signed = true) (hc : 128 ≤ c)
    (hmem : .char c bare ∈ ts) : ¬ Matches fl prev ts s := by
  induction ts generalizing fl prev s with
  | nil => simp at hmem
  | cons t ts ih =>
    rw [List.mem_cons] at hmem
    cases t with
    | any =>
      rintro ⟨-, x, s', -, -, hm⟩
      exact ih hsigned (hmem.resolve_left (by simp)) hm
    | set negated rs =>
      rintro ⟨x, s', -, -, -, hm⟩
      exact ih hsigned (hmem.resolve_left (by simp)) hm
    | char d bare' =>
      rintro ⟨x, s', -, hx, hm⟩
      rcases hmem with heq | hmem
      · obtain ⟨rfl, -⟩ := Piece.char.inj heq
        have hlt := c.toNat_lt
        have hneg : charValue fl c = c.toNat - 256 := by simp [charValue, hsigned, hc]
        simp only [hneg, value] at hx
        omega
      · exact ih hsigned hmem hm
    | star =>
      rintro ⟨-, u, v, -, -, hm⟩
      have hbehind : (behindStar fl ts).signed = true := by
        unfold behindStar
        split <;> exact hsigned
      exact ih hbehind (hmem.resolve_left (by simp)) hm

/-- **Not even itself.**  Where `char` is signed, a pattern that has a character from 128 on outside
of brackets matches no string: the character is negative, and that of the string is not.  The
pattern must have pieces: of one with a bracket that does not end, which matches nothing anyway
(`fnmatch_iff`), this does not speak. -/
theorem fnmatch_signed {bare : Bool} (hsigned : fl.signed = true) (hts : pieces fl p = some ts)
    (hmem : .char c bare ∈ ts) (hc : 128 ≤ c) : fnmatch fl prev p s = false := by
  rw [← Bool.not_eq_true, agrees]
  rintro ⟨ts', hts', hm⟩
  obtain rfl := Option.some.inj (hts.symm.trans hts')
  exact not_matches_signed hsigned hc hmem hm

theorem fnmatch_signed_itself :
    fnmatch ⟨false, false, false, false, false, true⟩ none [233] [233] = false :=
  have hpieces : pieces ⟨false, false, false, false, false, true⟩ [233] =
      some [.char 233 true] := by
    simp [pieces_cons, pieces, foldcase, escaped, question, asterisk, bracket, backslash]
  fnmatch_signed rfl hpieces List.mem_cons_self (by decide)

end

end Libu.Fnmatch
