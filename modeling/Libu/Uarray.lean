/-
# Dynamic arrays (`toolbox/array.c`)

An array has a type and a block of slots, which is zeroed when the array is created and grows by
`realloc` when a slot behind the last one is set.

* §1 is the code.  A slot holds a value of the type; a slot outside of the block is undefined
  (`none`). What `realloc` does is up to the heap: `avail` says whether there is memory for so many
  slots, and `junk` is what a slot holds that has just come into existence.
* §2 is the purpose: slots that have been set, or not.
* §3: what every slot of the block holds (`Holds`); it is kept by every call.
* §4: an array does its purpose, whatever new memory holds, exactly when the old value is only asked
  for at slots that have been set or that the array has had from the start (`slots_iff`).
-/
import Libu.Verif.Mem
import Libu.Verif.Run
import Mathlib.Algebra.GroupWithZero.Nat
import Mathlib.Logic.Function.Basic

namespace Libu

open Verif

/-! ## 1. The code -/

/-- `u_array_type_t`, less `U_ARRAY_TYPE_UNSET`. -/
inductive ArrayType
  | bool | char | uChar | short | uShort | int | uInt | long | uLong | longLong | uLongLong
  | intmax | uIntmax | float | double | longDouble | floatComplex |
    doubleComplex | longDoubleComplex
  | ptr
  deriving DecidableEq

/-- `sizeof_type`, where a `long` and a pointer have 8 bytes. -/
def ArrayType.size : ArrayType → Nat
  | .bool | .char | .uChar => 1
  | .short | .uShort => 2
  | .int | .uInt | .float => 4
  | .long | .uLong | .longLong | .uLongLong | .intmax | .uIntmax | .double | .floatComplex | .ptr =>
    8
  | .longDouble | .doubleComplex => 16
  | .longDoubleComplex => 32

/-- `u_array_t`, with values of the type from `α`. -/
structure Uarray (α : Type) where
  nslots : Nat
  type : ArrayType
  base : List α

namespace Uarray

variable {α : Type}

/-- `U_ARRAY_NSLOTS_DFL` -/
def nslotsDfl : Nat := 512

/-- `U_ARRAY_RESIZE_PAD` -/
def resizePad : Nat := 100

/-- `SIZE_MAX` -/
def sizeMax : Nat := 2 ^ 64 - 1

/-- `MAX_NSLOTS` -/
def maxNslots (type : ArrayType) : Nat := sizeMax / type.size

/-- `u_array_create`; NULL and 0 are zero. -/
def create [Zero α] (type : ArrayType) (nslots : Nat) : Uarray α :=
  let nslots :=
    if nslots = 0 then nslotsDfl else if nslots > maxNslots type then maxNslots type else nslots
  ⟨nslots, type, List.replicate nslots 0⟩

/-- `realloc` to more slots. -/
def grow (junk : Nat → α) (base : List α) (nslots : Nat) : List α :=
  base ++ (List.range' base.length (nslots - base.length)).map junk

/-- `new_nslots` of `u_array_resize`. -/
def newNslots (type : ArrayType) (idx : Nat) : Nat :=
  if maxNslots type - resizePad - 1 ≥ idx then idx + resizePad + 1 else maxNslots type

section Heap

variable (avail : Nat → Bool) (junk : Nat → α)

/-- `u_array_resize`: whether it returns 0, and the array. -/
def resize (da : Uarray α) (idx : Nat) : Bool × Uarray α :=
  if idx < da.nslots then (true, da)
  else if idx ≥ maxNslots da.type - 1 then (false, da)
  else
    let nslots := newNslots da.type idx
    if avail nslots then (true, { da with base := grow junk da.base nslots, nslots })
      else (false, da)

/-- The array in which `idx` is to be set. -/
def reach (da : Uarray α) (idx : Nat) : Bool × Uarray α :=
  if idx > SizeT.sub da.nslots 1 then resize avail junk da idx else (true, da)

/-- A slot gets a value; the old one is handed out. -/
def assign (da : Uarray α) (idx : Nat) (v : α) : Option (α × Uarray α) := do
  let old ← da.base[idx]?
  some (old, { da with base := da.base.set idx v })

/-- What a call returns: 0, -1, or 0 and a value. -/
inductive Res (α : Type)
  | done
  | fail
  | val (v : α)
  deriving DecidableEq

/-- `u_array_set##pfx` of `U_ARRAY_GETSET_F` for the type `dtype`; `pold` is whether it is not
NULL. -/
def set (dtype : ArrayType) (da : Uarray α) (idx : Nat) (v : α) (pold : Bool) :
    Option (Res α × Uarray α) :=
  if da.type ≠ dtype then some (.fail, da)
  else
    match reach avail junk da idx with
    | (false, da) => some (.fail, da)
    | (true, da) => do
      let (old, da) ← assign da idx v
      some (if pold then .val old else .done, da)

/-- `u_array_get##pfx` of `U_ARRAY_GETSET_F`. -/
def get (dtype : ArrayType) (da : Uarray α) (idx : Nat) : Option (Res α) :=
  if da.type ≠ dtype then some .fail
  else if idx > SizeT.sub da.nslots 1 then some .fail
  else da.base[idx]?.map .val

/-- `u_array_set_ptr`, with `*prc`; it returns NULL when it fails. -/
def setPtr (da : Uarray α) (idx : Nat) (v : α) : Option (Res α × Uarray α) :=
  if da.type ≠ .ptr then some (.fail, da)
  else
    match reach avail junk da idx with
    | (false, da) => some (.fail, da)
    | (true, da) => do
      let (oldEp, da) ← assign da idx v
      some (.val oldEp, da)

/-- `u_array_get_ptr` -/
def getPtr (da : Uarray α) (idx : Nat) : Option (Res α) :=
  if da.type ≠ .ptr then some .fail
  else if idx > SizeT.sub da.nslots 1 then some .fail
  else da.base[idx]?.map .val

/-- The calls on an array: a setter or getter of a type, and those of pointers. -/
inductive Call (α : Type)
  | set (dtype : ArrayType) (idx : Nat) (v : α) (pold : Bool)
  | get (dtype : ArrayType) (idx : Nat)
  | setPtr (idx : Nat) (v : α)
  | getPtr (idx : Nat)

def step (da : Uarray α) : Call α → Option (Res α × Uarray α)
  | .set dtype idx v pold => set avail junk dtype da idx v pold
  | .get dtype idx => (get dtype da idx).map fun r => (r, da)
  | .setPtr idx v => setPtr avail junk da idx v
  | .getPtr idx => (getPtr da idx).map fun r => (r, da)

end Heap

/-- The setter of pointers is that of the other types. -/
theorem setPtr_eq (avail : Nat → Bool) (junk : Nat → α) (da : Uarray α) (idx : Nat) (v : α) :
    setPtr avail junk da idx v = set avail junk .ptr da idx v true := by
  unfold setPtr set
  by_cases htype : da.type ≠ .ptr
  · rw [if_pos htype, if_pos htype]
  · rw [if_neg htype, if_neg htype]
    generalize reach avail junk da idx = r
    obtain ⟨ok, da'⟩ := r
    cases ok <;> rfl

/-- The getter of pointers is that of the other types. -/
theorem getPtr_eq (da : Uarray α) (idx : Nat) : getPtr da idx = get .ptr da idx := by
  simp only [getPtr, get]

/-! ## 2. Slots -/

/-- The index that a call sets on an array of this type, and the value. -/
def Call.sets (type : ArrayType) : Call α → Option (Nat × α)
  | .set dtype idx v _ => if type = dtype then some (idx, v) else none
  | .setPtr idx v => if type = .ptr then some (idx, v) else none
  | _ => none

/-- The index whose old value a call hands back. -/
def Call.wants (type : ArrayType) : Call α → Option Nat
  | .set dtype idx _ pold => if type = dtype ∧ pold then some idx else none
  | .setPtr idx _ => if type = .ptr then some idx else none
  | _ => none

/-- The index that a call reads. -/
def Call.gets (type : ArrayType) : Call α → Option Nat
  | .get dtype idx => if type = dtype then some idx else none
  | .getPtr idx => if type = .ptr then some idx else none
  | _ => none

/-- What the slots have been set to. -/
abbrev Slots (α : Type) := Nat → Option α

/-- The slots after a call. -/
def Slots.after (type : ArrayType) (a : Slots α) (c : Call α) : Slots α :=
  match c.sets type with
  | none => a
  | some (idx, v) => Function.update a idx (some v)

/-- What a call is for: a slot that is set has the value and the others keep theirs, the old value
is the one that was set or zero, and a value that has been set is got. -/
structure Slots.Step [Zero α] (type : ArrayType) (a : Slots α) (c : Call α)
    (r : Res α) (a' : Slots α) : Prop where
  after : a' = a.after type c
  ok : c.sets type ≠ none → r ≠ .fail
  old : ∀ idx, c.wants type = some idx → r = .val ((a idx).getD 0)
  got : ∀ idx v, c.gets type = some idx → a idx = some v → r = .val v

/-- The array holds what has been set. -/
def Shows (da : Uarray α) (a : Slots α) : Prop := ∀ idx v, a idx = some v → da.base[idx]? = some v

/-! ## 3. The block -/

/-- An array of this type with `n` slots from the start: a slot that has not been set is zero if it
is one of these, and else what it was when it came into existence. -/
structure Holds [Zero α] (type : ArrayType) (n : Nat) (junk : Nat → α)
    (da : Uarray α) (a : Slots α) : Prop where
  type : da.type = type
  length : da.base.length = da.nslots
  start : n ≤ da.nslots
  pos : 0 < da.nslots
  lt : da.nslots < 2 ^ 64
  slot : ∀ idx < da.nslots, da.base[idx]? = some ((a idx).getD (if idx < n then 0 else junk idx))
  bound : ∀ idx, a idx ≠ none → idx < da.nslots

theorem maxNslots_lt (type : ArrayType) : maxNslots type < 2 ^ 64 :=
  Nat.lt_of_le_of_lt (Nat.div_le_self ..) (by decide)

theorem maxNslots_pos (type : ArrayType) : 0 < maxNslots type := by
  cases type <;> decide

theorem newNslots_spec {type : ArrayType} {idx : Nat} (h : idx < maxNslots type - 1) :
    idx < newNslots type idx ∧ newNslots type idx < 2 ^ 64 := by
  have hmax := maxNslots_lt type
  unfold newNslots resizePad
  split <;> omega

section Holds

variable [Zero α] {type : ArrayType} {n : Nat} {avail : Nat → Bool} {junk : Nat → α} {da : Uarray α}
  {a : Slots α} {idx : Nat} {v : α}

theorem holds_create (type : ArrayType) (nslots : Nat) (junk : Nat → α) :
    Holds type (create type nslots : Uarray α).nslots junk (create type nslots) fun _ => none := by
  have hpos := maxNslots_pos type
  have hlt := maxNslots_lt type
  refine ⟨rfl, List.length_replicate, Nat.le_refl _, ?_, ?_, ?_, fun _ h => absurd rfl h⟩
  · unfold create
    dsimp only
    split
    · decide
    · split <;> omega
  · unfold create
    dsimp only
    split
    · decide
    · split <;> omega
  · intro idx hidx
    rw [if_pos hidx]
    exact List.getElem?_replicate_of_lt hidx

/-- An index is checked against the last slot. -/
theorem holds_last (h : Holds type n junk da a) : idx > SizeT.sub da.nslots 1 ↔
    da.nslots ≤ idx := by
  rw [SizeT.sub_of_le h.lt h.pos]
  have := h.pos
  omega

/-- Slots that are there keep what they hold. -/
theorem holds_grow (h : Holds type n junk da a) {nslots : Nat} (hle : da.nslots ≤ nslots)
    (hlt : nslots < 2 ^ 64) :
    Holds type n junk { da with base := grow junk da.base nslots, nslots } a := by
  refine ⟨h.type, ?_, Nat.le_trans h.start hle, Nat.lt_of_lt_of_le h.pos hle, hlt, ?_, ?_⟩
  · simp only [grow, List.length_append, List.length_map, List.length_range', h.length]
    omega
  · intro idx hidx
    by_cases hold : idx < da.nslots
    · rw [← h.slot idx hold]
      exact List.getElem?_append_left (h.length ▸ hold)
    · have hnone : a idx = none := by
        by_contra hset
        exact hold (h.bound idx hset)
      have hstart : ¬ idx < n := fun hn => hold (Nat.lt_of_lt_of_le hn h.start)
      rw [hnone, Option.getD_none, if_neg hstart, grow,
        List.getElem?_append_right (by rw [h.length]; omega), h.length, List.getElem?_map,
        List.getElem?_range' (by dsimp only at hidx; omega)]
      simp only [Option.map_some, Nat.one_mul]
      rw [Nat.add_sub_cancel' (by omega)]
  · exact fun idx hset => Nat.lt_of_lt_of_le (h.bound idx hset) hle

/-- The slot is there, if a resize for it succeeds. -/
theorem holds_reach (h : Holds type n junk da a) (hreach : (reach avail junk da idx).1 = true) :
    ∃ da', reach avail junk da idx = (true, da') ∧ Holds type n junk da' a ∧ idx < da'.nslots := by
  unfold reach at hreach ⊢
  by_cases hidx : da.nslots ≤ idx
  · rw [if_pos ((holds_last h).mpr hidx)] at hreach ⊢
    unfold resize at hreach ⊢
    rw [if_neg (Nat.not_lt.mpr hidx)] at hreach ⊢
    split at hreach
    · cases hreach
    · next hlimit =>
      obtain ⟨hgt, hlt⟩ := newNslots_spec (Nat.lt_of_not_le hlimit)
      rw [if_neg hlimit]
      dsimp only at hreach ⊢
      split at hreach
      · next havail =>
        rw [if_pos havail]
        exact ⟨_, rfl, holds_grow h (Nat.le_trans hidx (Nat.le_of_lt hgt)) hlt, hgt⟩
      · cases hreach
  · rw [if_neg fun hgt => hidx ((holds_last h).mp hgt)]
    exact ⟨da, rfl, h, Nat.lt_of_not_le hidx⟩

omit [Zero α] in
/-- With enough memory, an index below the limit is reached. -/
theorem reach_ok (havail : ∀ nslots, avail nslots = true) (hidx : idx < maxNslots da.type - 1) :
    (reach avail junk da idx).1 = true := by
  unfold reach resize
  split
  · split
    · rfl
    · rw [if_neg (Nat.not_le.mpr hidx)]
      dsimp only
      rw [if_pos (havail _)]
  · rfl

theorem holds_assign (h : Holds type n junk da a) (hidx : idx < da.nslots) (v : α) :
    ∃ da', assign da idx v = some ((a idx).getD (if idx < n then 0 else junk idx), da') ∧
      Holds type n junk da' (Function.update a idx (some v)) := by
  refine ⟨{ da with base := da.base.set idx v }, ?_, h.type, ?_, h.start, h.pos, h.lt, ?_, ?_⟩
  · simp [assign, h.slot idx hidx]
  · exact List.length_set.trans h.length
  · intro i hi
    by_cases heq : i = idx
    · subst heq
      rw [Function.update_self, Option.getD_some]
      exact List.getElem?_set_self (h.length ▸ hidx)
    · rw [Function.update_of_ne heq, ← h.slot i hi]
      exact List.getElem?_set_ne (Ne.symm heq)
  · intro i hset
    by_cases heq : i = idx
    · exact heq ▸ hidx
    · rw [Function.update_of_ne heq] at hset
      exact h.bound i hset

end Holds

/-! ## 4. Runs -/

/-- The resize of a call succeeds, if it needs one. -/
def Resizes (avail : Nat → Bool) (junk : Nat → α) (da : Uarray α) (c : Call α) : Prop :=
  ∀ x ∈ c.sets da.type, (reach avail junk da x.1).1 = true

/-- The old value is asked for at a slot that has been set, or is one of the first `n`. -/
def Known (type : ArrayType) (n : Nat) (a : Slots α) (c : Call α) : Prop :=
  ∀ idx ∈ c.wants type, a idx ≠ none ∨ idx < n

section Runs

variable [Zero α] {type : ArrayType} {n : Nat} {avail : Nat → Bool} {junk : Nat → α} {da : Uarray α}
  {a : Slots α} {c : Call α}

/-- A slot that can be reached is set, and its old value is what it holds. -/
theorem set_eq (h : Holds type n junk da a) {idx : Nat}
    (hreach : (reach avail junk da idx).1 = true) (v : α) (pold : Bool) :
    ∃ da', set avail junk type da idx v pold =
        some (if pold then .val ((a idx).getD (if idx < n then 0 else junk idx)) else .done, da') ∧
      Holds type n junk da' (Function.update a idx (some v)) := by
  obtain ⟨da₁, hda₁, h₁, hidx⟩ := holds_reach h hreach
  obtain ⟨da₂, hda₂, h₂⟩ := holds_assign h₁ hidx v
  refine ⟨da₂, ?_, h₂⟩
  rw [set, if_neg fun hne => hne h.type, hda₁]
  simp only [hda₂, Option.bind_eq_bind, Option.bind_some]

/-- A value that has been set is got. -/
theorem get_eq (h : Holds type n junk da a) {idx : Nat} {v : α} (hset : a idx = some v) :
    get type da idx = some (.val v) := by
  have hidx : idx < da.nslots := h.bound idx (by simp [hset])
  have hlast : ¬ idx > SizeT.sub da.nslots 1 := fun hgt => absurd ((holds_last h).mp hgt)
    (Nat.not_le.mpr hidx)
  rw [get, if_neg fun hne => hne h.type, if_neg hlast, h.slot idx hidx, hset]
  rfl

/-- A getter returns, and the array stays as it is. -/
theorem get_total (h : Holds type n junk da a) (dtype : ArrayType) (idx : Nat) :
    ∃ r, get dtype da idx = some r := by
  unfold get
  split
  · exact ⟨_, rfl⟩
  · split
    · exact ⟨_, rfl⟩
    · next hlast =>
      rw [holds_last h, Nat.not_le] at hlast
      rw [h.slot idx hlast]
      exact ⟨_, rfl⟩

/-- A setter, of the array's type or of another. -/
theorem holds_set (h : Holds type n junk da a) {dtype : ArrayType} {idx : Nat} {v : α} {pold : Bool}
    (hres : Resizes avail junk da (.set dtype idx v pold)) :
    ∃ r da', set avail junk dtype da idx v pold = some (r, da') ∧
      Holds type n junk da' (a.after type (.set dtype idx v pold)) ∧
      ((Call.set dtype idx v pold).sets type ≠ none → r ≠ .fail) ∧
      ∀ i ∈ (Call.set dtype idx v pold).wants type,
      r = .val ((a i).getD (if i < n then 0 else junk i)) := by
  by_cases htype : type = dtype
  · subst htype
    have hreach := hres (idx, v) (by simp [Call.sets, h.type])
    obtain ⟨da', hda', h'⟩ := @set_eq _ _ type n avail junk da a h idx hreach v pold
    refine ⟨_, da', hda', ?_, ?_, ?_⟩
    · simpa [Slots.after, Call.sets] using h'
    · intro _
      cases pold <;> simp
    · intro i hi
      cases pold with
      | false => simp [Call.wants] at hi
      | true =>
        obtain rfl : idx = i := by simpa [Call.wants] using hi
        simp
  · refine ⟨.fail, da, ?_, ?_, ?_, ?_⟩
    · rw [set, if_pos fun heq => htype (h.type.symm.trans heq)]
    · simpa [Slots.after, Call.sets, htype] using h
    · simp [Call.sets, htype]
    · simp [Call.wants, htype]

/-- A getter, of the array's type or of another. -/
theorem holds_get (h : Holds type n junk da a) (dtype : ArrayType) (idx : Nat) :
    ∃ r, get dtype da idx = some r ∧
      ∀ i v, (Call.get dtype idx : Call α).gets type = some i → a i = some v → r = .val v := by
  by_cases htype : type = dtype
  · subst htype
    obtain ⟨r, hr⟩ := get_total h type idx
    refine ⟨r, hr, ?_⟩
    intro i v hi hv
    obtain rfl : idx = i := by simpa [Call.gets] using hi
    rw [get_eq h hv] at hr
    exact (Option.some.inj hr).symm
  · exact ⟨.fail, by rw [get, if_pos fun heq => htype
      (h.type.symm.trans heq)], by simp [Call.gets, htype]⟩

/-- **One call.**  The old value is what the slot holds. -/
theorem holds_step (h : Holds type n junk da a) (hres : Resizes avail junk da c) :
    ∃ r da', step avail junk da c = some (r, da') ∧ Holds type n junk da' (a.after type c) ∧
      (c.sets type ≠ none → r ≠ .fail) ∧
      (∀ idx ∈ c.wants type, r = .val ((a idx).getD (if idx < n then 0 else junk idx))) ∧
      ∀ idx v, c.gets type = some idx → a idx = some v → r = .val v := by
  cases c with
  | set dtype idx v pold =>
    obtain ⟨r, da', hset, h', hok, hold⟩ := holds_set h hres
    exact ⟨r, da', hset, h', hok, hold, by simp [Call.gets]⟩
  | get dtype idx =>
    obtain ⟨r, hget, hgot⟩ := holds_get h dtype idx
    exact ⟨r, da, by simp [step, hget], h, by simp [Call.sets], by simp [Call.wants], hgot⟩
  | setPtr idx v =>
    -- the setter of pointers is a setter that hands the old value back
    obtain ⟨r, da', hset, h', hok, hold⟩ := @holds_set _ _ type n avail junk da a h
      .ptr idx v true hres
    rw [← setPtr_eq] at hset
    exact ⟨r, da', hset, h', hok, by simpa [Call.wants] using hold, by simp [Call.gets]⟩
  | getPtr idx =>
    obtain ⟨r, hget, hgot⟩ := holds_get h .ptr idx
    rw [← getPtr_eq] at hget
    exact ⟨r, da, by simp [step, hget], h, by simp [Call.sets], by simp [Call.wants], hgot⟩

theorem Holds.shows (h : Holds type n junk da a) : Shows da a := by
  intro idx v hv
  rw [h.slot idx (h.bound idx (by simp [hv])), hv, Option.getD_some]

/-- A run of the slots. -/
abbrev Slots.run (type : ArrayType) (a : Slots α) (c : Call α) : Option (Unit × Slots α) :=
  some ((), a.after type c)

theorem tracks_of_known {calls : List (Call α)} (h : Holds type n junk da a)
    (hres : Guarded (step avail junk) (Resizes avail junk) da calls)
    (hknown : Guarded (Slots.run type) (Known type n) a calls) :
    Tracks (step avail junk) (Slots.Step type) Shows da a calls := by
  induction calls generalizing da a with
  | nil => trivial
  | cons c calls ih =>
    obtain ⟨r, da', hstep, h', hok, hold, hgot⟩ := holds_step h hres.1
    refine ⟨r, da', a.after type c, hstep, ⟨rfl, hok, ?_, hgot⟩, h'.shows,
      ih h' (hres.2 r da' hstep) (hknown.2 () _ rfl)⟩
    intro idx hidx
    rw [hold idx hidx]
    rcases hknown.1 idx hidx with hset | hn
    · obtain ⟨v, hv⟩ := Option.ne_none_iff_exists'.mp hset
      rw [hv, Option.getD_some, Option.getD_some]
    · rw [if_pos hn]

/-- New memory that holds `x` everywhere shows where an old value is not known. -/
theorem known_of_tracks {calls : List (Call α)} {x : α} (hx : x ≠ 0)
    (h : Holds type n (fun _ => x) da a)
    (hres : Guarded (step avail fun _ => x) (Resizes avail fun _ => x) da calls)
    (htracks : Tracks (step avail fun _ => x) (Slots.Step type) Shows da a calls) :
    Guarded (Slots.run type) (Known type n) a calls := by
  induction calls generalizing da a with
  | nil => trivial
  | cons c calls ih =>
    obtain ⟨r, da', a', hstep, hc, -, hrest⟩ := htracks
    obtain ⟨r₁, da₁, hstep₁, h', -, hold, -⟩ := holds_step h hres.1
    obtain ⟨rfl, rfl⟩ : r = r₁ ∧ da' = da₁ := by simpa [hstep] using hstep₁
    obtain rfl := hc.after
    refine ⟨?_, ?_⟩
    · intro idx hidx
      by_contra hun
      obtain ⟨hnone, hn⟩ : a idx = none ∧ ¬ idx < n := by simpa using hun
      have heq := (hold idx hidx).symm.trans (hc.old idx hidx)
      rw [hnone, Option.getD_none, Option.getD_none, if_neg hn] at heq
      exact hx (Res.val.inj heq)
    · rintro _ _ hrun
      obtain ⟨-, rfl⟩ := Prod.mk.inj (Option.some.inj hrun)
      exact ih h' (hres.2 r da' hstep) hrest

/-- **An array keeps what has been set, and hands it back, whatever new memory holds**, exactly when
the old value is only asked for at slots that have been set or that the array has been created
with. -/
theorem slots_iff (hnz : ∃ x : α, x ≠ 0) (type : ArrayType) (nslots : Nat) (avail : Nat → Bool)
    (calls : List (Call α))
    (hres : ∀ junk, Guarded (step avail junk) (Resizes avail junk) (create type nslots) calls) :
    (∀ junk, Tracks (step avail junk) (Slots.Step type) Shows (create type nslots)
      (fun _ => none) calls) ↔
      Guarded (Slots.run type) (Known type (create type nslots : Uarray α).nslots)
      (fun _ => none) calls := by
  constructor
  · intro htracks
    obtain ⟨x, hx⟩ := hnz
    exact known_of_tracks hx (holds_create type nslots _) (hres _) (htracks _)
  · exact fun hknown junk => tracks_of_known (holds_create type nslots junk) (hres junk) hknown

/-- Slot 5 of an array that is created with two slots is set twice and got; new memory holds
anything. -/
theorem slots_int :
    Tracks (step (fun _ => true) id) (Slots.Step .int) Shows (create .int 2) (fun _ => none)
      [.set .int 5 7 false, .set .int 5 8 true, .get .int 5] := by
  have hlimit : ∀ type : ArrayType, 5 < maxNslots type - 1 := by
    intro type
    cases type <;> decide
  have hres : ∀ junk (da : Uarray Nat) v pold, Resizes (fun _ => true) junk da
    (.set .int 5 v pold) := by
    intro junk da v pold x hx
    have hidx : x.1 = 5 := by
      unfold Call.sets at hx
      grind
    rw [hidx]
    exact reach_ok (fun _ => rfl) (hlimit da.type)
  have hget : ∀ junk (da : Uarray Nat), Resizes (fun _ => true) junk da (.get .int 5) :=
    fun junk da x hx => (by cases hx)
  refine (slots_iff ⟨1, by decide⟩ .int 2 (fun _ => true) _ fun junk => ?_).mpr ?_ id
  · exact ⟨hres _ _ _ _, fun _ _ _ => ⟨hres _ _ _ _, fun _ _ _ => ⟨hget _ _, fun _ _ _ => trivial⟩⟩⟩
  · refine ⟨fun idx hidx => (by cases hidx), fun _ a₁ h₁ => ⟨?_,
      fun _ a₂ h₂ => ⟨?_, fun _ _ _ => trivial⟩⟩⟩
    · intro idx hidx
      obtain rfl : 5 = idx := Option.some.inj hidx
      obtain ⟨-, rfl⟩ := Prod.mk.inj (Option.some.inj h₁)
      exact .inl (by decide)
    · exact fun idx hidx => (by cases hidx)

/-- The first pointer that is set at index 3 of an array with one slot: what `realloc` left there is
handed back. -/
theorem setPtr_grown :
    Guarded (step (fun _ => true) fun _ => 9) (Resizes (fun _ => true) fun _ => 9)
        (create .ptr 1 : Uarray Nat) [.setPtr 3 7] ∧
      ¬ Tracks (step (fun _ => true) fun _ => 9) (Slots.Step .ptr) Shows
      (create .ptr 1 : Uarray Nat)
        (fun _ => none) [.setPtr 3 7] := by
  have hold : (step (fun _ => true) (fun _ => 9) (create .ptr 1 : Uarray Nat)
    (.setPtr 3 7)).map Prod.fst =
      some (.val 9) := by decide
  refine ⟨⟨?_, fun _ _ _ => trivial⟩, ?_⟩
  · rintro x hx
    obtain rfl : (3, 7) = x := Option.some.inj hx
    decide
  · rintro ⟨r, da, a, hstep, hc, -⟩
    rw [hstep, Option.map_some, hc.old 3 rfl] at hold
    have hzero : (0 : Nat) = 9 := Res.val.inj (Option.some.inj hold)
    cases hzero

end Runs

end Uarray

end Libu
