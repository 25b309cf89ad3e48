/-
# Temporary files (`missing/mkstemps.c`)

`mkstemps` fills the `X`s of a template with random characters and opens the file, if there is none
of this name.  If there is one, it counts on from the random name, with the characters of `padchar`
as digits and the first `X` as the least significant one.

* §1 is the code.  The system says what `stat` and `open` come to, call by call, and `rand` is a
  parameter.  `_gettemp` has one caller, so that only its branch with `doopen` is here.
* §2: the digits, as words of `Verif.Odometer`.
* §3: which names are tried (`mkstemps_tries`).  The count ends at the last name: the names in front
  of the random one are not tried when all those behind it are taken.
-/
import Libu.Verif.Odometer

namespace Libu.Mkstemps

open Verif

/-! ## 1. The code -/

/-- `padchar` behind its first character, which is `0`. -/
def padRest : List Char :=
  ['1', '2', '3', '4', '5', '6', '7', '8', '9', 'A', 'B', 'C', 'D', 'E', 'F', 'G', 'H', 'I',
   'J', 'K', 'L', 'M', 'N', 'O', 'P', 'Q', 'R', 'S', 'T', 'U', 'V', 'W', 'X', 'Y', 'Z', 'a', 'b',
   'c', 'd', 'e', 'f', 'g', 'h', 'i', 'j', 'k', 'l', 'm', 'n', 'o', 'p', 'q', 'r', 's', 't', 'u',
   'v', 'w', 'x', 'y', 'z']

def padchar : List Char := '0' :: padRest

/-- What `open` with `O_CREAT|O_EXCL` comes to. -/
inductive Opened
  | fd (n : Nat)
  | eexist
  | failed

/-- What `mkstemps` sets `errno` to, or leaves there. -/
inductive Err
  | einval
  | enotdir
  | stat
  | eexist
  | open
deriving DecidableEq

/-- The system: the numbers that `rand` gives, whether a name is a directory if it can be asked,
and what the calls of `open` come to. -/
structure Os where
  rand : Nat → Nat
  stat : List Char → Option Bool
  openExcl : Nat → List Char → Opened

/-- What is returned, what is left in `path`, and the names that were tried. -/
structure Result where
  ret : Except Err Nat
  path : List Char
  tried : List (List Char)

/-- Filling the `X`s, from the last one on: what is in front of them, read backwards, and the
characters. -/
def fillLoop (rand : Nat → Nat) : Nat → List Char → List Char → List Char × List Char
  | _, [], ds => ([], ds)
  | i, c :: rev, ds =>
    if c = 'X' then fillLoop rand (i + 1) rev (padchar.getD (rand i % padchar.length) '0' :: ds)
    else (c :: rev, ds)

/-- The directory: what is in front of the last `/`, the first character of the path left out. -/
def dirOf : List Char → Option (List Char)
  | [] | [_] => none
  | c :: c' :: rev => if c = '/' then some (c' :: rev).reverse else dirOf (c' :: rev)

/-- The next name, from `start` on; none when `suffp` is reached. -/
def bump : List Char → Option (List Char)
  | [] => none
  | c :: ds =>
    match (padchar.dropWhile (· ≠ c)).tail.head? with
    | some pad => some (pad :: ds)
    | none => (bump ds).map ('0' :: ·)

/-- The loop over the names. -/
def tryLoop (os : Os) (head suff : List Char) : Nat → Nat → List Char → Option Result
  | 0, _, _ => none
  | fuel + 1, t, ds =>
    let path := head ++ (ds ++ suff)
    match os.openExcl t path with
    | .fd n => some ⟨.ok n, path, [path]⟩
    | .failed => some ⟨.error .open, path, [path]⟩
    | .eexist =>
      match bump ds with
      | none => some ⟨.error .eexist, head ++ (ds.map (fun _ => '0') ++ suff), [path]⟩
      | some ds => (tryLoop os head suff fuel (t + 1) ds).map fun r =>
        { r with tried := path :: r.tried }

/-- `mkstemps`, that is `_gettemp`. -/
def mkstemps (os : Os) (fuel : Nat) (path : List Char) (slen : Nat) : Option Result :=
  if path.length < slen + 1 then some ⟨.error .einval, path, []⟩
  else
    let suff := path.drop (path.length - slen)
    let (rev, ds) := fillLoop os.rand 0 (path.take (path.length - slen)).reverse []
    let head := rev.reverse
    match (dirOf rev).map os.stat with
    | some none => some ⟨.error .stat, head ++ (ds ++ suff), []⟩
    | some (some false) => some ⟨.error .enotdir, head ++ (ds ++ suff), []⟩
    | _ => tryLoop os head suff fuel 0 ds

/-! ## 2. Digits -/

theorem nodup_padchar : padchar.Nodup := by decide

theorem bump_eq (ds : List Char) : bump ds = Odometer.next '0' padRest ds := by
  induction ds with
  | nil => rfl
  | cons c ds ih =>
    simp only [bump, Odometer.next, Odometer.after, ih, padchar]
    cases (List.dropWhile (fun x => decide (x ≠ c)) ('0' :: padRest)).tail.head? <;> rfl

/-- The random characters, in the order of the path. -/
def randDigits (rand : Nat → Nat) (k : Nat) : List Char :=
  ((List.range k).map fun i => padchar.getD (rand i % padchar.length) '0').reverse

theorem randDigits_succ (rand : Nat → Nat) (k : Nat) : randDigits rand (k + 1) =
    padchar.getD (rand k % padchar.length) '0' :: randDigits rand k := by
  simp [randDigits, List.range_succ]

theorem length_randDigits (rand : Nat → Nat) (k : Nat) : (randDigits rand k).length = k := by
  simp [randDigits]

theorem mem_padchar (rand : Nat → Nat) (k : Nat) : ∀ c ∈ randDigits rand k, c ∈ padchar := by
  intro c hc
  simp only [randDigits, List.mem_reverse, List.mem_map] at hc
  obtain ⟨i, -, rfl⟩ := hc
  have hlt : rand i % padchar.length < padchar.length := Nat.mod_lt _ (by decide)
  rw [List.getD_eq_getElem _ _ hlt]
  exact List.getElem_mem hlt

/-- The number of the random characters. -/
def first (rand : Nat → Nat) (k : Nat) : Nat := Odometer.value padchar (randDigits rand k)

/-- The `X`s are filled. -/
theorem fillLoop_eq (rand : Nat → Nat) {rev : List Char} (hrev : rev.head? ≠ some 'X')
    (i k : Nat) : fillLoop rand i (List.replicate k 'X' ++ rev) (randDigits rand i) =
      (rev, randDigits rand (i + k)) := by
  induction k generalizing i with
  | zero =>
    cases rev with
    | nil => rfl
    | cons c rev =>
      have hc : c ≠ 'X' := fun h => hrev (congrArg some h)
      simp [fillLoop, hc]
  | succ k ih =>
    rw [List.replicate_succ, List.cons_append, fillLoop, if_pos rfl, ← randDigits_succ, ih,
      Nat.add_right_comm]
    rfl

/-! ## 3. Names -/

section

variable {os : Os} {head suff : List Char} {k : Nat}

/-- The name of a number. -/
def name (head suff : List Char) (k n : Nat) : List Char :=
  head ++ (Odometer.word '0' padRest k n ++ suff)

/-- No two numbers have the same name. -/
theorem name_inj {m n : Nat} (hm : m < 62 ^ k) (hn : n < 62 ^ k)
    (h : name head suff k m = name head suff k n) : m = n := by
  have hword := List.append_inj_left (List.append_cancel_left h)
    (by rw [Odometer.length_word, Odometer.length_word])
  exact Odometer.word_inj nodup_padchar hm hn hword

/-- From the number `v` on, the names are tried in turn: all but the last one are taken, and the
last one decides, or it is the last of all. -/
def Tries (os : Os) (head suff : List Char) (k t v : Nat) (r : Result) : Prop :=
  ∃ m, v + m < 62 ^ k ∧ r.tried = (List.range (m + 1)).map (fun i => name head suff k (v + i)) ∧
    (∀ i < m, os.openExcl (t + i) (name head suff k (v + i)) = .eexist) ∧
    ((∃ fd, os.openExcl (t + m) (name head suff k (v + m)) = .fd fd ∧ r.ret = .ok fd ∧
        r.path = name head suff k (v + m)) ∨
      (os.openExcl (t + m) (name head suff k (v + m)) = .failed ∧ r.ret = .error .open) ∨
      (os.openExcl (t + m) (name head suff k (v + m)) = .eexist ∧ v + m + 1 = 62 ^ k ∧
        r.ret = .error .eexist))

/-- A name that is taken, and those behind it. -/
theorem Tries.cons {t v : Nat} {r : Result} (h : Tries os head suff k (t + 1) (v + 1) r)
    (hexist : os.openExcl t (name head suff k v) = .eexist) :
    Tries os head suff k t v { r with tried := name head suff k v :: r.tried } := by
  obtain ⟨m, hm, htried, hbefore, hlast⟩ := h
  have hshift : ∀ i, v + (i + 1) = v + 1 + i := fun i => by omega
  have hshift' : ∀ i, t + (i + 1) = t + 1 + i := fun i => by omega
  refine ⟨m + 1, by omega, ?_, fun i hi => ?_, ?_⟩
  · rw [List.range_succ_eq_map, List.map_cons, List.map_map, htried]
    exact congrArg _ (List.map_congr_left fun i _ => congrArg _ (hshift i).symm)
  · cases i with
    | zero => exact hexist
    | succ i =>
      rw [hshift, hshift']
      exact hbefore i (by omega)
  · rw [hshift, hshift']
    exact hlast

/-- **The loop over the names**, by induction on the fuel, which bounds how many are left. -/
theorem tryLoop_tries (fuel t : Nat) {ds : List Char} (hds : ∀ c ∈ ds, c ∈ padchar)
    (hlen : ds.length = k) (hfuel : 62 ^ k ≤ Odometer.value padchar ds + fuel) :
    ∃ r, tryLoop os head suff fuel t ds = some r ∧
      Tries os head suff k t (Odometer.value padchar ds) r := by
  induction fuel generalizing t ds with
  | zero =>
    have hlt : Odometer.value padchar ds < 62 ^ ds.length := Odometer.value_lt hds
    rw [hlen] at hlt
    omega
  | succ fuel ih =>
    have hlt : Odometer.value padchar ds < 62 ^ k := hlen ▸ Odometer.value_lt hds
    have hname : head ++ (ds ++ suff) = name head suff k (Odometer.value padchar ds) := by
      have hword : Odometer.word '0' padRest k (Odometer.value padchar ds) = ds :=
        hlen ▸ Odometer.word_value hds
      rw [name, hword]
    have hnext := Odometer.next_spec nodup_padchar hds
    rw [← bump_eq] at hnext
    simp only [tryLoop, hname]
    cases hopen : os.openExcl t (name head suff k (Odometer.value padchar ds)) with
    | fd n => exact ⟨_, rfl, 0, hlt, rfl, fun i hi => absurd hi (Nat.not_lt_zero i),
        .inl ⟨n, hopen, rfl, rfl⟩⟩
    | failed => exact ⟨_, rfl, 0, hlt, rfl, fun i hi => absurd hi (Nat.not_lt_zero i),
        .inr (.inl ⟨hopen, rfl⟩)⟩
    | eexist =>
      cases hbump : bump ds with
      | none =>
        have hend := hnext.2 hbump
        rw [hlen] at hend
        exact ⟨_, rfl, 0, hlt, rfl, fun i hi => absurd hi (Nat.not_lt_zero i),
          .inr (.inr ⟨hopen, hend, rfl⟩)⟩
      | some ds' =>
        obtain ⟨hlen', hds', hvalue⟩ := hnext.1 ds' hbump
        have hvalue : Odometer.value padchar ds' = Odometer.value padchar ds + 1 := hvalue
        obtain ⟨r, hrun, htries⟩ := ih (t + 1) hds' (hlen'.trans hlen) (by omega)
        rw [hvalue] at htries
        exact ⟨_, congrArg (Option.map _) hrun, htries.cons hopen⟩

/-- The directory of the file is one, or it is not looked for. -/
def DirFine (os : Os) (head : List Char) : Prop :=
  ∀ dir, dirOf head.reverse = some dir → os.stat dir = some true

/-- **The names that `mkstemps` tries**, for every template with `k` `X`s in front of the suffix.
It tries nothing when the directory is not there.  Otherwise it tries the names in the order of
their numbers, from the random one on and none twice, until one can be created, which is what it
returns and leaves in `path`, or `open` fails for another reason.  It gives up at the last number:
the names with smaller numbers than the random one are never tried. -/
theorem mkstemps_tries (os : Os) (head suff : List Char) (k fuel : Nat)
    (hhead : head.getLast? ≠ some 'X') (hne : head ≠ [] ∨ 0 < k) (hfuel : 62 ^ k ≤ fuel) :
    ∃ r, mkstemps os fuel (head ++ (List.replicate k 'X' ++ suff)) suff.length = some r ∧
      (¬ DirFine os head → r.tried = [] ∧ ∃ e, r.ret = .error e ∧ (e = .stat ∨ e = .enotdir)) ∧
      (DirFine os head → Tries os head suff k 0 (first os.rand k) r ∧ r.tried.Nodup) := by
  have hlen : (head ++ (List.replicate k 'X' ++ suff)).length - suff.length =
      (head ++ List.replicate k 'X').length := by
    simp only [List.length_append]
    omega
  have hlong : ¬ (head ++ (List.replicate k 'X' ++ suff)).length < suff.length + 1 := by
    simp only [List.length_append, List.length_replicate]
    rcases hne with hne | hk
    · have := List.length_pos_iff.mpr hne
      omega
    · omega
  have hrev : (head ++ List.replicate k 'X').reverse = List.replicate k 'X' ++ head.reverse := by
    simp
  have hX : head.reverse.head? ≠ some 'X' := by rwa [List.head?_reverse]
  have hfill : fillLoop os.rand 0 (List.replicate k 'X' ++ head.reverse) [] =
      (head.reverse, randDigits os.rand k) := by
    simpa [randDigits] using fillLoop_eq os.rand hX 0 k
  obtain ⟨r, hrun, htries⟩ : ∃ r, tryLoop os head suff fuel 0 (randDigits os.rand k) = some r ∧
      Tries os head suff k 0 (first os.rand k) r :=
    tryLoop_tries fuel 0 (mem_padchar os.rand k) (length_randDigits os.rand k) (by omega)
  have hnodup : r.tried.Nodup := by
    obtain ⟨m, hm, htried, -⟩ := htries
    rw [htried]
    refine List.Nodup.map_on (fun i hi j hj h => ?_) List.nodup_range
    have hi := List.mem_range.mp hi
    have hj := List.mem_range.mp hj
    have := name_inj (by omega) (by omega) h
    omega
  rw [mkstemps, if_neg hlong, hlen, ← List.append_assoc, List.take_left, List.drop_left, hrev,
    hfill]
  simp only [List.reverse_reverse]
  cases hdir : dirOf head.reverse with
  | none =>
    have hfine : DirFine os head := fun dir h => absurd (hdir ▸ h) (by simp)
    exact ⟨r, hrun, fun h => absurd hfine h, fun _ => ⟨htries, hnodup⟩⟩
  | some dir =>
    cases hstat : os.stat dir with
    | none =>
      have hnot : ¬ DirFine os head := fun h => by simp [h dir hdir] at hstat
      exact ⟨⟨.error .stat, head ++ (randDigits os.rand k ++ suff), []⟩,
        by simp only [Option.map_some, hstat], fun _ => ⟨rfl, .stat, rfl, .inl rfl⟩,
        fun h => absurd h hnot⟩
    | some isDir =>
      cases isDir with
      | false =>
        have hnot : ¬ DirFine os head := fun h => by simp [h dir hdir] at hstat
        exact ⟨⟨.error .enotdir, head ++ (randDigits os.rand k ++ suff), []⟩,
          by simp only [Option.map_some, hstat], fun _ => ⟨rfl, .enotdir, rfl, .inr rfl⟩,
          fun h => absurd h hnot⟩
      | true =>
        have hfine : DirFine os head := fun dir' h => by
          rw [← Option.some.inj (hdir.symm.trans h), hstat]
        exact ⟨r, by simp only [Option.map_some, hstat, hrun], fun h => absurd hfine h,
          fun _ => ⟨htries, hnodup⟩⟩

end

/-- `/tmp/aXX.c`: the first two names are taken. -/
def busy : Os where
  rand := fun i => i + 60
  stat := fun dir => some (dir = ['/', 't', 'm', 'p'])
  openExcl := fun t _ => if t < 2 then .eexist else .fd 3

theorem mkstemps_tries_busy :
    ∃ r, mkstemps busy (62 ^ 2) ['/', 't', 'm', 'p', '/', 'a', 'X', 'X', '.', 'c'] 2 = some r ∧
      r.tried.Nodup := by
  obtain ⟨r, hrun, -, hfine⟩ := mkstemps_tries busy ['/', 't', 'm', 'p', '/', 'a'] ['.', 'c'] 2
    (62 ^ 2) (by decide) (.inl (by decide)) Nat.le.refl
  have hdir : DirFine busy ['/', 't', 'm', 'p', '/', 'a'] := fun dir h => by
    obtain rfl : ['/', 't', 'm', 'p'] = dir := Option.some.inj h
    rfl
  exact ⟨r, hrun, (hfine hdir).2⟩

end Libu.Mkstemps
