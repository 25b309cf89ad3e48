/-
# The arithmetic of arrays

The array of `Libu/Uarray.lean`, with the sizes and addresses that the code computes.

The array of slots is what a caller sees; here is why the code computes it.  The largest number of
slots of a type is a bound for everything that is multiplied with the size of a slot, and a block
that the allocator gives out lies within the address space.  Whether there is memory at all is up to
the allocator, which is a parameter and may refuse any request.

* §1 is the code once more, in arithmetic that has no result where it would wrap around.  Memory is
  asked for by the byte, and what a block holds is what its bytes have room for.
* §2: what an array is like (`Sound`), and that every call has a result, which is that of the
  array without addresses (`array_exact`).
-/
import Libu.Uarray

namespace Libu.Uarray

open Verif

/-! ## 1. The code -/

variable {α : Type}

/-- What `malloc` and `realloc` return for a number of bytes; a block ends within memory. -/
structure Allocator where
  get : Nat → Option Nat
  fits : ∀ bytes addr, get bytes = some addr → addr + bytes ≤ 2 ^ 64

/-- An array whose slots are at `addr`. -/
structure Placed (α : Type) extends Uarray α where
  addr : Nat

section Heap

variable (heap : Allocator) (junk : Nat → α)

/-- `u_array_create`: no array if there is no memory for one. -/
def createAt [Zero α] (type : ArrayType) (nslots : Nat) : Option (Option (Placed α)) := do
  let maxNslots := sizeMax / type.size
  let nslots :=
    if nslots = 0 then nslotsDfl else if nslots > maxNslots then maxNslots else nslots
  let bytes ← SizeT.exactMul nslots type.size
  match heap.get bytes with
  | none => some none
  | some addr => some (some ⟨⟨nslots, type, List.replicate (bytes / type.size) 0⟩, addr⟩)

/-- `new_nslots` -/
def newNslotsAt (maxNslots idx : Nat) : Option Nat := do
  let unpadded ← SizeT.exactSub maxNslots resizePad
  let last ← SizeT.exactSub unpadded 1
  if last ≥ idx then do
    let padded ← SizeT.exactAdd idx resizePad
    SizeT.exactAdd padded 1
  else some maxNslots

/-- `u_array_resize` -/
def resizeAt (da : Placed α) (idx : Nat) : Option (Bool × Placed α) :=
  if idx < da.nslots then some (true, da)
  else do
    let maxNslots := sizeMax / da.type.size
    let last ← SizeT.exactSub maxNslots 1
    if idx ≥ last then some (false, da)
    else do
      let nslots ← newNslotsAt maxNslots idx
      let bytes ← SizeT.exactMul nslots da.type.size
      match heap.get bytes with
      | none => some (false, da)
      | some addr =>
        some (true, ⟨⟨nslots, da.type, grow junk da.base (bytes / da.type.size)⟩, addr⟩)

/-- `ep`, the address of a slot. -/
def slotAt (da : Placed α) (idx : Nat) : Option Nat := do
  let off ← SizeT.exactMul idx da.type.size
  SizeT.exactAdd da.addr off

/-- The slot at an address. -/
def slotOf (da : Placed α) (ep : Nat) : Nat := (ep - da.addr) / da.type.size

/-- The array in which `idx` is to be set. -/
def reachAt (da : Placed α) (idx : Nat) : Option (Bool × Placed α) := do
  let last ← SizeT.exactSub da.nslots 1
  if idx > last then resizeAt heap junk da idx else some (true, da)

/-- `u_array_set##pfx` -/
def setAt (dtype : ArrayType) (da : Placed α) (idx : Nat) (v : α) (pold : Bool) :
    Option (Res α × Placed α) :=
  if da.type ≠ dtype then some (.fail, da)
  else do
    let (ok, da) ← reachAt heap junk da idx
    if ok then do
      let ep ← slotAt da idx
      let (old, arr) ← assign da.toUarray (slotOf da ep) v
      some (if pold then .val old else .done, ⟨arr, da.addr⟩)
    else some (.fail, da)

/-- `u_array_get##pfx` -/
def getAt (dtype : ArrayType) (da : Placed α) (idx : Nat) : Option (Res α) :=
  if da.type ≠ dtype then some .fail
  else do
    let last ← SizeT.exactSub da.nslots 1
    if idx > last then some .fail
    else do
      let ep ← slotAt da idx
      da.base[slotOf da ep]?.map .val

/-- `u_array_set_ptr` -/
def setPtrAt (da : Placed α) (idx : Nat) (v : α) : Option (Res α × Placed α) :=
  if da.type ≠ .ptr then some (.fail, da)
  else do
    let (ok, da) ← reachAt heap junk da idx
    if ok then do
      let ep ← slotAt da idx
      let (oldEp, arr) ← assign da.toUarray (slotOf da ep) v
      some (.val oldEp, ⟨arr, da.addr⟩)
    else some (.fail, da)

/-- `u_array_get_ptr` -/
def getPtrAt (da : Placed α) (idx : Nat) : Option (Res α) :=
  if da.type ≠ .ptr then some .fail
  else do
    let last ← SizeT.exactSub da.nslots 1
    if idx > last then some .fail
    else do
      let ep ← slotAt da idx
      da.base[slotOf da ep]?.map .val

end Heap

/-- The setter of pointers is that of the other types. -/
theorem setPtrAt_eq (heap : Allocator) (junk : Nat → α) (da : Placed α) (idx : Nat) (v : α) :
    setPtrAt heap junk da idx v = setAt heap junk .ptr da idx v true := by
  simp only [setPtrAt, setAt, if_true]

/-- The getter of pointers is that of the other types. -/
theorem getPtrAt_eq (da : Placed α) (idx : Nat) : getPtrAt da idx = getAt .ptr da idx := by
  simp only [getPtrAt, getAt]

/-! ## 2. No wrapping around -/

/-- An array as it can be: its slots are as many as it says, they are in memory, and there are no
more than have a size. -/
structure Placed.Sound (da : Placed α) : Prop where
  pos : 0 < da.nslots
  le : da.nslots ≤ maxNslots da.type
  length : da.base.length = da.nslots
  inside : da.addr + da.nslots * da.type.size ≤ 2 ^ 64

section

variable {type : ArrayType} {heap : Allocator} {junk : Nat → α} {da : Placed α} {idx n : Nat}

theorem size_pos (type : ArrayType) : 0 < type.size := by
  cases type <;> decide

theorem maxNslots_ge (type : ArrayType) : nslotsDfl ≤ maxNslots type := by
  cases type <;> decide

/-- As many slots as there can be have a size, and fewer have one. -/
theorem bytes_le (h : n ≤ maxNslots type) : n * type.size ≤ sizeMax :=
  Nat.le_trans (Nat.mul_le_mul_right _ h) (Nat.div_mul_le_self sizeMax type.size)

theorem exactMul_size (h : n ≤ maxNslots type) :
    SizeT.exactMul n type.size = some (n * type.size) := by
  have hbytes := bytes_le h
  unfold sizeMax at hbytes
  exact SizeT.exactMul_of_lt (by omega)

/-- Whether there is memory for so many slots. -/
def Allocator.avail (heap : Allocator) (type : ArrayType) (nslots : Nat) : Bool :=
  (heap.get (nslots * type.size)).isSome

/-- **A new array has as many slots as `create` says.** -/
theorem createAt_spec [Zero α] (heap : Allocator) (type : ArrayType) (nslots : Nat) :
    ∃ r, createAt heap type nslots = some r ∧
      ∀ da : Placed α, r = some da → da.Sound ∧ da.toUarray = create type nslots := by
  have hpos := maxNslots_pos type
  have hge := maxNslots_ge type
  rw [createAt, create]
  rw [maxNslots] at hpos hge ⊢
  generalize hn : (if nslots = 0 then nslotsDfl
    else if nslots > sizeMax / type.size then sizeMax / type.size else nslots) = n
  obtain ⟨hn0, hmax⟩ : 0 < n ∧ n ≤ maxNslots type := by
    subst hn
    split
    · exact ⟨by decide, hge⟩
    · split
      · exact ⟨hpos, Nat.le_refl _⟩
      · exact ⟨by omega, by unfold maxNslots; omega⟩
  rw [exactMul_size hmax]
  dsimp only [Option.bind_eq_bind, Option.bind_some]
  rw [Nat.mul_div_cancel _ (size_pos type)]
  cases hget : heap.get (n * type.size) with
  | none => exact ⟨none, rfl, fun da hda => by cases hda⟩
  | some addr =>
    refine ⟨_, rfl, fun da hda => ?_⟩
    obtain rfl := Option.some.inj hda
    exact ⟨⟨hn0, hmax, List.length_replicate, heap.fits _ _ hget⟩, rfl⟩

/-- `new_nslots` is what it is without wrapping around. -/
theorem newNslotsAt_eq (type : ArrayType) (idx : Nat) :
    newNslotsAt (maxNslots type) idx = some (newNslots type idx) := by
  have hge := maxNslots_ge type
  have hlt := maxNslots_lt type
  unfold nslotsDfl at hge
  have hpad : SizeT.exactSub (maxNslots type) resizePad = some (maxNslots type - resizePad) :=
    SizeT.exactSub_of_le (by unfold resizePad; omega)
  have hone : SizeT.exactSub (maxNslots type - resizePad) 1 =
      some (maxNslots type - resizePad - 1) := SizeT.exactSub_of_le (by unfold resizePad; omega)
  rw [newNslotsAt, hpad]
  dsimp only [Option.bind_eq_bind, Option.bind_some]
  rw [hone]
  dsimp only [Option.bind_eq_bind, Option.bind_some]
  rw [newNslots]
  by_cases hle : maxNslots type - resizePad - 1 ≥ idx
  · rw [if_pos hle, if_pos hle]
    unfold resizePad at hle ⊢
    rw [SizeT.exactAdd_of_lt (by omega)]
    dsimp only [Option.bind_eq_bind, Option.bind_some]
    rw [SizeT.exactAdd_of_lt (by omega)]
  · rw [if_neg hle, if_neg hle]

theorem newNslots_le (hidx : idx < maxNslots type - 1) :
    idx < newNslots type idx ∧ newNslots type idx ≤ maxNslots type := by
  have hge := maxNslots_ge type
  unfold nslotsDfl at hge
  unfold newNslots resizePad
  split <;> omega

theorem length_grow {base : List α} (h : base.length ≤ n) : (grow junk base n).length = n := by
  rw [grow, List.length_append, List.length_map, List.length_range', Nat.add_sub_cancel' h]

/-- What a resize does to an array: it reaches the index and keeps what there was, or it fails and
does nothing. -/
structure Resized (heap : Allocator) (da : Placed α) (idx : Nat) (ok : Bool) (da' : Placed α) :
    Prop where
  sound : da'.Sound
  type_eq : da'.type = da.type
  reached : ok = true → idx < da'.nslots ∧ da.nslots ≤ da'.nslots ∧
    da'.nslots * da'.type.size ≤ sizeMax
  asked : da' = da ∨ heap.get (da'.nslots * da'.type.size) = some da'.addr
  kept : ∀ i < da.nslots, da'.base[i]? = da.base[i]?
  failed : ok = false → da' = da

theorem Resized.refl (h : da.Sound) {ok : Bool} (hok : ok = true → idx < da.nslots) :
    Resized heap da idx ok da where
  sound := h
  type_eq := rfl
  reached htrue := ⟨hok htrue, Nat.le_refl _, bytes_le h.le⟩
  asked := .inl rfl
  kept _ _ := rfl
  failed _ := rfl

/-- **A resize computes what it does without wrapping around.** -/
theorem resizeAt_spec (h : da.Sound) (heap : Allocator) (junk : Nat → α) (idx : Nat) :
    ∃ ok da', resizeAt heap junk da idx = some (ok, da') ∧ Resized heap da idx ok da' ∧
      resize (heap.avail da.type) junk da.toUarray idx = (ok, da'.toUarray) := by
  have hge := maxNslots_ge da.type
  unfold nslotsDfl at hge
  rw [resizeAt, resize]
  by_cases hthere : idx < da.nslots
  · rw [if_pos hthere, if_pos hthere]
    exact ⟨true, da, rfl, .refl h fun _ => hthere, rfl⟩
  · rw [if_neg hthere, if_neg hthere]
    have hlast : SizeT.exactSub (sizeMax / da.type.size) 1 = some (maxNslots da.type - 1) :=
      SizeT.exactSub_of_le (Nat.le_trans (by decide) hge)
    dsimp only
    rw [hlast]
    dsimp only [Option.bind_eq_bind, Option.bind_some]
    by_cases hlimit : idx ≥ maxNslots da.type - 1
    · rw [if_pos hlimit, if_pos hlimit]
      exact ⟨false, da, rfl, .refl h (fun hok => by cases hok), rfl⟩
    · obtain ⟨hreach, hmax⟩ := newNslots_le (Nat.lt_of_not_le hlimit)
      have hnew : newNslotsAt (sizeMax / da.type.size) idx = some (newNslots da.type idx) :=
        newNslotsAt_eq da.type idx
      rw [if_neg hlimit, if_neg hlimit, hnew]
      dsimp only [Option.bind_some]
      rw [exactMul_size hmax, Option.bind_some, Nat.mul_div_cancel _ (size_pos da.type),
        Allocator.avail]
      cases hget : heap.get (newNslots da.type idx * da.type.size) with
      | none => exact ⟨false, da, rfl, .refl h (fun hok => by cases hok), rfl⟩
      | some addr =>
        have hgrown : da.base.length ≤ newNslots da.type idx := by
          rw [h.length]
          omega
        refine ⟨true, _, rfl, ⟨⟨?_, hmax, length_grow hgrown, heap.fits _ _ hget⟩, rfl, ?_,
          .inr hget, ?_, fun hfail => by cases hfail⟩, rfl⟩
        · exact Nat.zero_lt_of_lt hreach
        · exact fun _ => ⟨hreach, by dsimp only; omega, bytes_le hmax⟩
        · intro i hi
          exact List.getElem?_append_left (h.length ▸ hi)

theorem Placed.Sound.sub_one (h : da.Sound) : SizeT.exactSub da.nslots 1 = some (da.nslots - 1) ∧
    SizeT.sub da.nslots 1 = da.nslots - 1 :=
  ⟨SizeT.exactSub_of_le h.pos,
    SizeT.sub_of_le (Nat.lt_of_le_of_lt h.le (maxNslots_lt da.type)) h.pos⟩

theorem reachAt_spec (h : da.Sound) (heap : Allocator) (junk : Nat → α) (idx : Nat) :
    ∃ ok da', reachAt heap junk da idx = some (ok, da') ∧ Resized heap da idx ok da' ∧
      reach (heap.avail da.type) junk da.toUarray idx = (ok, da'.toUarray) := by
  obtain ⟨hexact, hsub⟩ := h.sub_one
  have hpos := h.pos
  rw [reachAt, reach, hexact, hsub]
  dsimp only [Option.bind_eq_bind, Option.bind_some]
  by_cases hbehind : idx > da.nslots - 1
  · rw [if_pos hbehind, if_pos hbehind]
    exact resizeAt_spec h heap junk idx
  · rw [if_neg hbehind, if_neg hbehind]
    exact ⟨true, da, rfl, .refl h (fun _ => by omega), rfl⟩

/-- The address of a slot is in memory, and is that of no other slot. -/
theorem slotAt_spec (h : da.Sound) (hidx : idx < da.nslots) :
    ∃ ep, slotAt da idx = some ep ∧ slotOf da ep = idx := by
  have hle : (idx + 1) * da.type.size ≤ da.nslots * da.type.size := Nat.mul_le_mul_right _ hidx
  have hinside := h.inside
  have hpos := size_pos da.type
  rw [Nat.succ_mul] at hle
  refine ⟨da.addr + idx * da.type.size, ?_, ?_⟩
  · rw [slotAt, exactMul_size (Nat.le_trans (Nat.le_of_lt hidx) h.le)]
    exact SizeT.exactAdd_of_lt (by omega)
  · rw [slotOf, Nat.add_sub_cancel_left, Nat.mul_div_cancel _ hpos]

theorem setAt_spec (h : da.Sound) (heap : Allocator) (junk : Nat → α) (dtype : ArrayType)
    (idx : Nat) (v : α) (pold : Bool) :
    ∃ r da', setAt heap junk dtype da idx v pold = some (r, da') ∧ da'.Sound ∧
      (r = .fail → da' = da) ∧
      set (heap.avail da.type) junk dtype da.toUarray idx v pold = some (r, da'.toUarray) := by
  rw [setAt, set]
  by_cases htype : da.type ≠ dtype
  · rw [if_pos htype, if_pos htype]
    exact ⟨.fail, da, rfl, h, fun _ => rfl, rfl⟩
  · rw [if_neg htype, if_neg htype]
    obtain ⟨ok, da₁, hreach, hres, heq⟩ := reachAt_spec h heap junk idx
    rw [hreach, heq]
    dsimp only [Option.bind_eq_bind, Option.bind_some]
    cases ok with
    | false =>
      obtain rfl := hres.failed rfl
      exact ⟨.fail, da₁, rfl, h, fun _ => rfl, rfl⟩
    | true =>
      obtain ⟨hidx, -, -⟩ := hres.reached rfl
      obtain ⟨ep, hep, hslot⟩ := slotAt_spec hres.sound hidx
      have hlen : idx < da₁.base.length := hres.sound.length ▸ hidx
      have hassign : assign da₁.toUarray idx v =
          some (da₁.base[idx], { da₁.toUarray with base := da₁.base.set idx v }) := by
        rw [assign, List.getElem?_eq_getElem hlen]
        rfl
      rw [if_pos rfl, hep]
      dsimp only [Option.bind_some]
      rw [hslot, hassign]
      dsimp only [Option.bind_some]
      refine ⟨_, _, rfl, ⟨hres.sound.pos, hres.sound.le, ?_, hres.sound.inside⟩, ?_, rfl⟩
      · exact List.length_set.trans hres.sound.length
      · cases pold <;> exact fun hfail => by cases hfail

theorem getAt_spec (h : da.Sound) (dtype : ArrayType) (idx : Nat) :
    ∃ r, getAt dtype da idx = some r ∧ get dtype da.toUarray idx = some r := by
  obtain ⟨hexact, hsub⟩ := h.sub_one
  have hpos := h.pos
  rw [getAt, get, hexact, hsub]
  by_cases htype : da.type ≠ dtype
  · rw [if_pos htype, if_pos htype]
    exact ⟨.fail, rfl, rfl⟩
  · rw [if_neg htype, if_neg htype]
    dsimp only [Option.bind_eq_bind, Option.bind_some]
    by_cases hbehind : idx > da.nslots - 1
    · rw [if_pos hbehind, if_pos hbehind]
      exact ⟨.fail, rfl, rfl⟩
    · have hidx : idx < da.nslots := by omega
      obtain ⟨ep, hep, hslot⟩ := slotAt_spec h hidx
      have hlen : idx < da.base.length := h.length ▸ hidx
      rw [if_neg hbehind, if_neg hbehind, hep]
      dsimp only [Option.bind_some]
      rw [hslot, List.getElem?_eq_getElem hlen]
      exact ⟨.val da.base[idx], rfl, rfl⟩

/-- **Nothing wraps around: every call has a result, which is the one of the array of slots, and
leaves an array that is sound.**  The sizes are computed in `size_t` step by step, with a failure
where a step would wrap around; no such failure is come to, since the index is checked against the
largest number of slots before anything is multiplied. -/
theorem array_exact [Zero α] (h : da.Sound) (heap : Allocator) (junk : Nat → α) (idx : Nat) :
    (∀ type nslots, ∃ r, createAt heap type nslots = some r ∧
      ∀ new : Placed α, r = some new → new.Sound ∧ new.toUarray = create type nslots) ∧
    (∃ ok da', resizeAt heap junk da idx = some (ok, da') ∧ Resized heap da idx ok da' ∧
      resize (heap.avail da.type) junk da.toUarray idx = (ok, da'.toUarray)) ∧
    (∀ dtype v pold, ∃ r da', setAt heap junk dtype da idx v pold = some (r, da') ∧ da'.Sound ∧
      (r = .fail → da' = da) ∧
      set (heap.avail da.type) junk dtype da.toUarray idx v pold = some (r, da'.toUarray)) ∧
    (∀ v, ∃ r da', setPtrAt heap junk da idx v = some (r, da') ∧ da'.Sound ∧
      (r = .fail → da' = da) ∧
      setPtr (heap.avail da.type) junk da.toUarray idx v = some (r, da'.toUarray)) ∧
    (∀ dtype, ∃ r, getAt dtype da idx = some r ∧ get dtype da.toUarray idx = some r) ∧
    ∃ r, getPtrAt da idx = some r ∧ getPtr da.toUarray idx = some r := by
  refine ⟨createAt_spec heap, resizeAt_spec h heap junk idx,
    fun dtype => setAt_spec h heap junk dtype idx, fun v => ?_, fun dtype => getAt_spec h dtype idx,
    ?_⟩
  · rw [setPtrAt_eq, setPtr_eq]
    exact setAt_spec h heap junk .ptr idx v true
  · rw [getPtrAt_eq, getPtr_eq]
    exact getAt_spec h .ptr idx

/-- A heap that gives the second page on, and four integers there. -/
def secondPage : Allocator where
  get bytes := if 4096 + bytes ≤ 2 ^ 64 then some 4096 else none
  fits bytes addr h := by
    split at h
    · next hfits => exact Option.some.inj h ▸ hfits
    · cases h

def fourInts : Placed Nat := ⟨⟨4, .int, [0, 0, 0, 0]⟩, 4096⟩

/-- The array of four integers, and the last index there is. -/
theorem array_exact_last : ∃ ok da',
    resizeAt secondPage (fun _ => 7) fourInts (2 ^ 64 - 1) = some (ok, da') ∧
      Resized secondPage fourInts (2 ^ 64 - 1) ok da' := by
  have hsound : fourInts.Sound := ⟨by decide, by decide, rfl, by decide⟩
  obtain ⟨-, ⟨ok, da', hrun, hres, -⟩, -⟩ :=
    array_exact hsound secondPage (fun _ => 7) (2 ^ 64 - 1)
  exact ⟨ok, da', hrun, hres⟩

end

end Libu.Uarray
