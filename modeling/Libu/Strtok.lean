/-
# Breaking up a string (`u_strtok` of `toolbox/misc.c`)

The string is duplicated, `strsep` puts a NUL in the place of each delimiter, and the vector of the
pieces grows from inside of the scan, which then goes on where it was.

* §1 is the code, on the duplicate and on the vector as blocks of memory: a store or a read out of a
  block has no result.  A piece is a pointer into the duplicate, and where the vector is moved to by
  `u_realloc` is up to the heap.
* §2: where pieces start in a string, and how far `strsep` goes.
* §3: the scan, turn by turn.  After a turn that ends behind `off`, the vector has the starts before
  `off`, and one slot more.
* §4: the pieces are the longest runs without delimiters (`uStrtok_spec`), and those that
  `Libu.Pwd` reads a line as (`texts_eq_strtok`).
-/
import Libu.Lexer
import Libu.Pwd
import Libu.Verif.CStr

namespace Libu.Strtok

open Verif

/-! ## 1. The code -/

/-- `TV_NSLOTS_DFLT` -/
def nslotsDflt : Nat := 10

/-- `TV_NSLOTS_INCR` -/
def nslotsIncr : Nat := 10

/-- What the heap answers: whether there is a duplicate, where a vector of so many slots is (at 0 if
there is none), and what is in its new slots. -/
structure Heap where
  strdup : Bool
  realloc : Nat → Nat
  junk : Nat → Option Nat

/-- The variables of `u_strtok`; the vector `slots` is at the address `tv`, counted in pointers. -/
structure State where
  sdup : Block Char
  p : Option Nat
  tv : Nat
  slots : Block (Option Nat)
  tvSlots : Nat
  ap : Nat
  nelems : Nat

/-- The loop of `strsep` from `s` on: the string after it, and where the next call goes on. -/
def strsepScan (delim : List Char) (b : Block Char) : Nat → Nat → Option (Block Char × Option Nat)
  | 0, _ => none
  | n + 1, s => do
    let c ← b.read s
    if c = '\x00' then some (b, none)
    else if c ∈ delim then do
      let b ← b.store s ['\x00']
      some (b, some (s + 1))
    else strsepScan delim b n (s + 1)

/-- `strsep`, with the piece at last. -/
def strsep (delim : List Char) (b : Block Char) (p : Option Nat) :
    Option (Block Char × Option Nat × Option Nat) :=
  match p with
  | none => some (b, none, none)
  | some s => do
    let (b, p) ← strsepScan delim b (b.size - s) s
    some (b, p, some s)

/-- `*ap = x` -/
def State.setSlot (st : State) (x : Option Nat) : Option State :=
  if st.tv ≤ st.ap then (st.slots.store (st.ap - st.tv) [x]).map fun slots => { st with slots }
  else none

/-- From `expand:` to the loop, if there is memory. -/
def expand (heap : Heap) (st : State) : Option State :=
  let ntv := heap.realloc st.tvSlots
  if ntv = 0 then none
  else
    some { st with
      -- recalc 'ap' in case realloc has changed the base pointer
      ap := if ntv ≠ st.tv then ntv + (st.ap - st.tv) else st.ap
      tv := ntv
      slots := st.slots.resize st.tvSlots heap.junk }

/-- The loop; it fails if the vector cannot be expanded. -/
def scan (heap : Heap) (delim : List Char) : Nat → State → Option (Option State)
  | 0, _ => none
  | n + 1, st => do
    let (sdup, p, tok) ← strsep delim st.sdup st.p
    let st ← { st with sdup, p }.setSlot tok
    match tok with
    | none => some (some st)
    | some tok => do
      let c ← st.sdup.read tok
      -- skip empty field
      if c = '\x00' then scan heap delim n st
      else
        let st := { st with nelems := st.nelems + 1, ap := st.ap + 1 }
        -- when we reach the last slot, request new slots
        if st.ap = st.tv + (st.tvSlots - 1) then
          match expand heap { st with tvSlots := st.tvSlots + nslotsIncr } with
          | none => some none
          | some st => scan heap delim n st
        else scan heap delim n st

/-- `u_strdup` -/
def dup (s : List Char) : Block Char :=
  ⟨(cString s).length + 1, fun i => (cString s)[i]?.getD '\x00'⟩

/-- `u_strtok`: the state in which it returns, if it does not fail. -/
def uStrtok (heap : Heap) (s delim : List Char) : Option (Option State) :=
  if heap.strdup then
    match expand heap ⟨dup s, some 0, 0, ⟨0, heap.junk⟩, nslotsDflt, 0, 0⟩ with
    | none => some none
    | some st => do
      match ← scan heap (cString delim) ((dup s).size + 1) st with
      | none => some none
      | some st => do
        -- save the dup'd string on the last slot
        let st ← st.setSlot (some 0)
        some (some st)
  else some none

/-- The string that `u_strtok_cleanup` frees, besides the vector. -/
def uStrtokCleanup (slots : Block (Option Nat)) (nelems : Nat) :
    Option (Option Nat) := slots.read nelems

/-! ## 2. Pieces -/

section

variable {delim s : List Char} {b : Block Char} {off stop n : Nat}

/-- A piece starts at `i`: the character is no delimiter, and the one before it, if there is one,
is. -/
def startsAt (delim s : List Char) (i : Nat) : Bool :=
  s[i]?.any (· ∉ delim) && (i = 0 || s[i - 1]?.any (· ∈ delim))

/-- Where pieces start before `off`. -/
def starts (delim s : List Char) (off : Nat) : List Nat :=
  (List.range off).filter (startsAt delim s)

/-- From `off` on there is no delimiter before `stop`, and there is one at `stop`, or the end. -/
structure Field (delim s : List Char) (off stop : Nat) : Prop where
  le : off ≤ stop
  plain : ∀ i, off ≤ i → i < stop → ∃ c, s[i]? = some c ∧ c ∉ delim
  last : stop = s.length ∨ ∃ c, s[stop]? = some c ∧ c ∈ delim

theorem Field.le_length (h : Field delim s off stop) : stop ≤ s.length := by
  rcases h.last with h | ⟨c, hc, -⟩
  · exact Nat.le_of_eq h
  · exact Nat.le_of_lt (List.getElem?_eq_some_iff.mp hc).1

theorem exists_field (delim : List Char) (h : off ≤ s.length) : ∃ stop, Field delim s off stop := by
  induction hn : s.length - off generalizing off with
  | zero =>
    exact ⟨off, Nat.le_refl _, fun i hi hi' => absurd hi (Nat.not_le.mpr hi'), .inl (by omega)⟩
  | succ n ih =>
    have hlt : off < s.length := by omega
    have hget : s[off]? = some s[off] := List.getElem?_eq_getElem hlt
    by_cases hd : s[off] ∈ delim
    · exact ⟨off, Nat.le_refl _, fun i hi hi' => absurd hi (Nat.not_le.mpr hi'), .inr ⟨_, hget, hd⟩⟩
    · obtain ⟨stop, hstop⟩ := ih (Nat.succ_le_of_lt hlt) (by omega)
      refine ⟨stop, Nat.le_of_succ_le hstop.le, fun i hi hi' => ?_, hstop.last⟩
      rcases Nat.eq_or_lt_of_le hi with rfl | hi
      · exact ⟨_, hget, hd⟩
      · exact hstop.plain i hi hi'

theorem starts_succ (delim s : List Char) (off : Nat) :
    starts delim s (off + 1) = starts delim s off ++ if startsAt delim s off then [off]
    else [] := by
  rw [starts, List.range_succ, List.filter_append, List.filter_singleton, Bool.cond_eq_ite]
  rfl

theorem starts_eq_of_le (h : off ≤ stop) (hnone : ∀ i, off ≤ i → i < stop →
    startsAt delim s i = false) : starts delim s stop = starts delim s off := by
  induction stop, h using Nat.le_induction with
  | base => rfl
  | succ stop hle ih =>
    rw [starts_succ, hnone stop hle (Nat.lt_succ_self stop),
      if_neg Bool.false_ne_true, List.append_nil]
    exact ih fun i hi hi' => hnone i hi (Nat.lt_succ_of_lt hi')

/-- **The starts in a field**: the one at its beginning, if it is not empty. -/
theorem starts_field (h : Field delim s off stop)
    (hstart : off = 0 ∨ ∃ c, s[off - 1]? = some c ∧ c ∈ delim) :
    starts delim s (stop + 1) = starts delim s off ++ if off < stop then [off] else [] := by
  have hrest : ∀ i, off + 1 ≤ i → i < stop + 1 → startsAt delim s i = false := by
    intro i hi hi'
    obtain ⟨c, hc, hplain⟩ := h.plain (i - 1) (by omega) (by omega)
    have hpos : i ≠ 0 := by omega
    simp [startsAt, hc, hplain, hpos]
  rw [starts_eq_of_le (Nat.succ_le_succ h.le) hrest, starts_succ]
  congr 1
  split
  · next hs =>
    rw [if_pos]
    by_contra hnot
    obtain rfl : off = stop := Nat.le_antisymm h.le (Nat.not_lt.mp hnot)
    rcases h.last with hlast | ⟨c, hc, hd⟩
    · simp [startsAt, hlast] at hs
    · simp [startsAt, hc, hd] at hs
  · next hs =>
    rw [if_neg]
    intro hlt
    obtain ⟨c, hc, hplain⟩ := h.plain off (Nat.le_refl _) hlt
    refine hs ?_
    rcases hstart with rfl | ⟨d, hd, hdelim⟩
    · simp [startsAt, hc, hplain]
    · simp [startsAt, hc, hplain, hd, hdelim]

/-- The duplicate when `strsep` has gone up to `off`. -/
structure Cut (delim s : List Char) (off : Nat) (b : Block Char) : Prop where
  size : b.size = s.length + 1
  byte : ∀ i, b.byte i = if i < off ∧ s[i]?.any (· ∈ delim) then '\x00' else s[i]?.getD '\x00'

theorem Cut.byte_of_le (hb : Cut delim s off b) {i : Nat} (h : off ≤ i) :
    b.byte i = s[i]?.getD '\x00' := by
  rw [hb.byte, if_neg fun hi => Nat.not_lt.mpr h hi.1]

theorem ne_nul (hs : '\x00' ∉ s) {i : Nat} {c : Char} (hc : s[i]? = some c) : c ≠ '\x00' := by
  rintro rfl
  exact hs (List.mem_of_getElem? hc)

/-- In a field, `strsep` goes on to its end. -/
theorem strsepScan_plain (hs : '\x00' ∉ s) (hb : Cut delim s off b) (h : Field delim s off stop) :
    ∀ {n pos : Nat}, off ≤ pos → pos ≤ stop → stop - pos < n →
      strsepScan delim b n pos = strsepScan delim b (n - (stop - pos)) stop
  | n, pos, hoff, hpos, hn => by
    induction hd : stop - pos generalizing n pos with
    | zero =>
      obtain rfl : pos = stop := by omega
      rfl
    | succ d ih =>
      obtain ⟨m, rfl⟩ : ∃ m, n = m + 1 := ⟨n - 1, by omega⟩
      obtain ⟨c, hc, hplain⟩ := h.plain pos hoff (by omega)
      have hlt : pos < b.size := by
        have hle := h.le_length
        rw [hb.size]
        omega
      have hbyte : b.byte pos = c := by rw [hb.byte_of_le hoff, hc, Option.getD_some]
      rw [strsepScan, Block.read_of_lt hlt, hbyte]
      dsimp only [Option.bind_eq_bind, Option.bind_some]
      rw [if_neg (ne_nul hs hc), if_neg hplain, Nat.succ_sub_succ]
      exact ih m (pos + 1) (by omega) (by omega) (by omega) (by omega)

/-- Nothing is cut off within a field. -/
theorem Field.cut_iff (h : Field delim s off stop) {i : Nat} (hi : i = stop → stop = s.length) :
    (i < stop + 1 ∧ s[i]?.any (· ∈ delim) = true) ↔ (i < off ∧ s[i]?.any (· ∈ delim) = true) := by
  have hle := h.le
  constructor
  · rintro ⟨hlt, hany⟩
    refine ⟨?_, hany⟩
    by_contra hoff
    by_cases hstop : i = stop
    · rw [hstop, hi hstop, List.getElem?_eq_none (Nat.le_refl _)] at hany
      cases hany
    · obtain ⟨c, hc, hplain⟩ := h.plain i (Nat.not_lt.mp hoff) (by omega)
      simp [hc, hplain] at hany
  · exact fun ⟨hlt, hany⟩ => ⟨by omega, hany⟩

/-- **`strsep` cuts off a field.** -/
theorem strsep_field (hs : '\x00' ∉ s) (hb : Cut delim s off b) (h : Field delim s off stop) :
    ∃ b', strsep delim b (some off) =
        some (b', (if stop < s.length then some (stop + 1) else none), some off) ∧
      Cut delim s (stop + 1) b' := by
  have hle := h.le
  have hlen := h.le_length
  have hlt : stop < b.size := by
    rw [hb.size]
    omega
  have hplain := strsepScan_plain hs hb h (n := b.size - off) (Nat.le_refl off) hle (by omega)
  obtain ⟨m, hm⟩ : ∃ m, b.size - off - (stop - off) = m + 1 :=
    ⟨b.size - off - (stop - off) - 1, by omega⟩
  rw [strsep, hplain, hm, strsepScan, Block.read_of_lt hlt]
  dsimp only [Option.bind_eq_bind, Option.bind_some]
  rcases h.last with rfl | ⟨c, hc, hd⟩
  · have hnul : b.byte s.length = '\x00' := by
      rw [hb.byte_of_le hle, List.getElem?_eq_none (Nat.le_refl _), Option.getD_none]
    rw [if_pos hnul, if_neg (Nat.lt_irrefl _)]
    refine ⟨b, rfl, hb.size, fun i => ?_⟩
    rw [hb.byte, if_congr (h.cut_iff fun _ => rfl) rfl rfl]
  · have hstop : stop < s.length := (List.getElem?_eq_some_iff.mp hc).1
    have hbyte : b.byte stop = c := by rw [hb.byte_of_le hle, hc, Option.getD_some]
    rw [hbyte, if_neg (ne_nul hs hc), if_pos hd, Block.store_of_le (Nat.succ_le_of_lt hlt),
      if_pos hstop]
    refine ⟨_, rfl, hb.size, fun i => ?_⟩
    by_cases hi : i = stop
    · subst hi
      have hself := overlay_of_mem b.byte i (i := 0) (by decide : 0 < ['\x00'].length)
      rw [if_pos ⟨Nat.lt_succ_self i, by simp [hc, hd]⟩]
      exact hself
    · have hother : overlay b.byte stop ['\x00'] i = b.byte i :=
        overlay_of_not_mem b.byte stop (by rw [List.length_singleton]; omega)
      rw [if_congr (h.cut_iff fun h => absurd h hi) rfl rfl, ← hb.byte]
      exact hother

end

/-! ## 3. The scan -/

section

variable {heap : Heap} {delim s : List Char} {off stop n : Nat} {st : State}

/-- The vector has the starts before `off`, and `ap` is behind them. -/
structure Filled (delim s : List Char) (off : Nat) (st : State) : Prop where
  sdup : Cut delim s off st.sdup
  p : st.p = if off ≤ s.length then some off else none
  start : off ≤ s.length → off = 0 ∨ ∃ c, s[off - 1]? = some c ∧ c ∈ delim
  slots : slice st.slots.byte 0 st.nelems = (starts delim s off).map some
  ap : st.ap = st.tv + st.nelems
  le : st.nelems ≤ st.slots.size

/-- There is a slot for `ap`, and one more. -/
structure Inv (delim s : List Char) (off : Nat) (st : State) :
    Prop extends Filled delim s off st where
  size : st.slots.size = st.tvSlots
  room : st.nelems + 1 < st.tvSlots

/-- After a call of `strsep`, `x` is stored where `ap` is. -/
def State.stored (st : State) (b : Block Char) (p x : Option Nat) : State :=
  { st with sdup := b, p, slots := ⟨st.slots.size, overlay st.slots.byte st.nelems [x]⟩ }

/-- What is stored is kept. -/
def State.pushed (st : State) : State := { st with nelems := st.nelems + 1, ap := st.ap + 1 }

theorem Inv.setSlot (h : Inv delim s off st) (b : Block Char) (p x : Option Nat) :
    ({ st with sdup := b, p } : State).setSlot x = some (st.stored b p x) := by
  have hroom := h.room
  have hsize := h.size
  have hle : st.tv ≤ st.ap := by
    rw [h.ap]
    omega
  have hsub : st.ap - st.tv = st.nelems := by
    rw [h.ap]
    omega
  have hstore : st.slots.store st.nelems [x] = some ⟨st.slots.size,
    overlay st.slots.byte st.nelems [x]⟩ :=
    Block.store_of_le (by simp; omega)
  rw [State.setSlot, if_pos hle]
  dsimp only
  rw [hsub, hstore]
  rfl

/-- What is in the vector before `ap` is not written. -/
theorem slice_setSlot (m : Nat → Option Nat) (n : Nat) (x : Option Nat) :
    slice (overlay m n [x]) 0 n = slice m 0 n := slice_overlay_of_disjoint m (.inl (by omega))

theorem slice_setSlot_succ (m : Nat → Option Nat) (n : Nat) (x : Option Nat) :
    slice (overlay m n [x]) 0 (n + 1) = slice m 0 n ++ [x] := by
  have hlast := slice_overlay_self m n [x]
  rw [slice_add, slice_setSlot, Nat.zero_add]
  exact congrArg _ hlast

/-- `expand` moves the vector, and `ap` with it. -/
theorem Filled.expand (h : Filled delim s off st) (hheap : ∀ n, heap.realloc n ≠ 0)
    (hroom : st.nelems + 1 < st.tvSlots) :
    ∃ st', Strtok.expand heap st = some st' ∧ Inv delim s off st' := by
  have hle := h.le
  refine ⟨_, if_neg (hheap st.tvSlots), ⟨h.sdup, h.p, h.start, ?_, ?_, ?_⟩, rfl, hroom⟩
  · exact Eq.trans (slice_congr fun i hi => if_pos (by rw [Nat.zero_add]; exact hi.trans_le hle))
      h.slots
  · have hap := h.ap
    dsimp only
    split
    · rw [hap, Nat.add_sub_cancel_left]
    · next heq => rw [hap, not_not.mp heq]
  · exact Nat.le_of_lt (Nat.lt_of_succ_lt hroom)

/-- **A turn of the loop** goes on by a field. -/
theorem Inv.turn (hs : '\x00' ∉ s) (hheap : ∀ n, heap.realloc n ≠ 0) (h : Inv delim s off st)
    (hoff : off ≤ s.length) : ∃ off' st', off < off' ∧ off' ≤ s.length + 1 ∧ Inv delim s off' st' ∧
      ∀ n, scan heap delim (n + 1) st = scan heap delim n st' := by
  obtain ⟨stop, hfield⟩ := exists_field delim hoff
  obtain ⟨b, hsep, hcut⟩ := strsep_field hs h.sdup hfield
  have hle := hfield.le
  have hlen := hfield.le_length
  have hroom := h.room
  have hsize := h.size
  have hp : (if stop < s.length then some (stop + 1) else none) =
      if stop + 1 ≤ s.length then some (stop + 1) else none := rfl
  have hstart : stop + 1 ≤ s.length → stop + 1 = 0 ∨ ∃ c, s[stop + 1 - 1]? = some c ∧ c ∈ delim :=
    fun hlt => .inr (hfield.last.resolve_left (Nat.ne_of_lt hlt))
  have hstarts := starts_field hfield (h.start hoff)
  have hread : b.read off = some (b.byte off) := Block.read_of_lt (by rw [hcut.size]; omega)
  have hp₀ : st.p = some off := by rw [h.p, if_pos hoff]
  generalize hp' : (if stop < s.length then some (stop + 1) else none) = p at hsep hp
  have hset := h.setSlot b p (some off)
  have hscan : ∀ n, scan heap delim (n + 1) st =
      if b.byte off = '\x00' then scan heap delim n (st.stored b p (some off))
      else if st.ap + 1 = st.tv + (st.tvSlots - 1) then
        match Strtok.expand heap { (st.stored b p (some off)).pushed with
          tvSlots := st.tvSlots + nslotsIncr } with
        | none => some none
        | some st => scan heap delim n st
      else scan heap delim n (st.stored b p (some off)).pushed := by
    intro n
    rw [scan, hp₀, hsep]
    dsimp only [Option.bind_eq_bind, Option.bind_some]
    rw [hset]
    dsimp only [Option.bind_eq_bind, Option.bind_some]
    rw [State.stored, hread]
    rfl
  refine ⟨stop + 1, ?_⟩
  rcases Nat.eq_or_lt_of_le hle with rfl | hlt
  · -- an empty field
    have hbyte : b.byte off = '\x00' := by
      rw [hcut.byte]
      rcases hfield.last with hlast | ⟨c, hc, hd⟩
      · simp [hlast]
      · simp [hc, hd]
    rw [if_neg (Nat.lt_irrefl off), List.append_nil] at hstarts
    refine ⟨st.stored b p (some off), Nat.lt_succ_self off, Nat.succ_le_succ hoff,
      ⟨⟨hcut, hp, hstart, ?_, h.ap, h.le⟩, hsize, hroom⟩, fun n => ?_⟩
    · rw [hstarts, ← h.slots]
      exact slice_setSlot _ _ _
    · rw [hscan, if_pos hbyte]
  · have hbyte : b.byte off ≠ '\x00' := by
      obtain ⟨c, hc, hplain⟩ := hfield.plain off (Nat.le_refl _) hlt
      rw [hcut.byte, if_neg (by simp [hc, hplain]), hc, Option.getD_some]
      exact ne_nul hs hc
    rw [if_pos hlt] at hstarts
    have hfilled : Filled delim s (stop + 1) (st.stored b p (some off)).pushed := by
      refine ⟨hcut, hp, hstart, ?_, ?_, ?_⟩
      · rw [hstarts, List.map_append, ← h.slots]
        exact slice_setSlot_succ _ _ _
      · exact (congrArg (· + 1) h.ap).trans (Nat.add_assoc st.tv st.nelems 1)
      · exact Nat.le_of_lt (hroom.trans_le (Nat.le_of_eq hsize.symm))
    have hap := h.ap
    by_cases hfull : st.ap + 1 = st.tv + (st.tvSlots - 1)
    · have hmore : Filled delim s (stop + 1) { (st.stored b p (some off)).pushed with
          tvSlots := st.tvSlots + nslotsIncr } :=
        ⟨hfilled.sdup, hfilled.p, hfilled.start, hfilled.slots, hfilled.ap, hfilled.le⟩
      obtain ⟨st', hexpand, hinv⟩ := hmore.expand hheap
        (Nat.add_lt_add_of_lt_of_le hroom (by decide : 1 ≤ nslotsIncr))
      refine ⟨st', by omega, Nat.succ_le_succ hlen, hinv, fun n => ?_⟩
      rw [hscan, if_neg hbyte, if_pos hfull, hexpand]
    · refine ⟨_, by omega, Nat.succ_le_succ hlen, ⟨hfilled, hsize, ?_⟩, fun n => ?_⟩
      · exact (by omega : st.nelems + 1 + 1 < st.tvSlots)
      · rw [hscan, if_neg hbyte, if_neg hfull]

/-- **The scan** goes to the end of the string. -/
theorem Inv.scan (hs : '\x00' ∉ s) (hheap : ∀ n, heap.realloc n ≠ 0) (h : Inv delim s off st)
    (hoff : off ≤ s.length + 1) (hn : s.length + 1 - off < n) :
    ∃ st', Strtok.scan heap delim n st = some (some st') ∧ Inv delim s (s.length + 1) st' := by
  induction n generalizing off st with
  | zero => exact absurd hn (Nat.not_lt_zero _)
  | succ n ih =>
    by_cases hend : off ≤ s.length
    · obtain ⟨off', st', hlt, hle, hinv, hscan⟩ := h.turn hs hheap hend
      rw [hscan]
      exact ih hinv hle (by omega)
    · obtain rfl : off = s.length + 1 := by omega
      have hp : st.p = none := by rw [h.p, if_neg hend]
      have hset := h.setSlot st.sdup none none
      refine ⟨st.stored st.sdup none none, ?_, ⟨⟨h.sdup, ?_, h.start, ?_, h.ap, h.le⟩, h.size,
        h.room⟩⟩
      · rw [Strtok.scan, hp, strsep]
        dsimp only [Option.bind_eq_bind, Option.bind_some]
        rw [hset]
        rfl
      · rw [if_neg hend]
        rfl
      · rw [← h.slots]
        exact slice_setSlot _ _ _

end

/-! ## 4. The pieces -/

/-- The characters from `start` to `stop` are no delimiters, and there are delimiters, or the ends
of the string, on both sides of them. -/
structure IsRun (delim s : List Char) (start stop : Nat) : Prop where
  lt : start < stop
  le : stop ≤ s.length
  plain : ∀ i, start ≤ i → i < stop → ∀ c, s[i]? = some c → c ∉ delim
  left : start = 0 ∨ ∃ c, s[start - 1]? = some c ∧ c ∈ delim
  right : stop = s.length ∨ ∃ c, s[stop]? = some c ∧ c ∈ delim

/-- The C string at `off`. -/
def textAt (b : Block Char) (off : Nat) : List Char :=
  (slice b.byte off (b.size - off)).takeWhile (· ≠ '\x00')

/-- The vector has the runs of the string in their order, and behind them the duplicate. -/
structure Pieces (delim s : List Char) (st : State) : Prop where
  room : st.nelems < st.slots.size
  /-- a piece for each run -/
  complete : ∀ start stop, IsRun delim s start stop → ∃ i < st.nelems, st.slots.byte i = some start
  /-- a run for each piece -/
  sound : ∀ i < st.nelems, ∃ start stop, IsRun delim s start stop ∧ st.slots.byte i = some start ∧
    textAt st.sdup start = (s.drop start).take (stop - start)
  ordered : ∀ i j, i < j → j < st.nelems → ∀ start start', st.slots.byte i = some start →
    st.slots.byte j = some start' → start < start'
  last : uStrtokCleanup st.slots st.nelems = some (some 0)

section

variable {heap : Heap} {delim s : List Char} {start stop : Nat} {st : State} {b : Block Char}

theorem startsAt_of_run (h : IsRun delim s start stop) : startsAt delim s start = true := by
  have hstart : start < s.length := Nat.lt_of_lt_of_le h.lt h.le
  have hget : s[start]? = some s[start] := List.getElem?_eq_getElem hstart
  have hplain := h.plain start (Nat.le_refl _) h.lt _ hget
  rcases h.left with rfl | ⟨c, hc, hd⟩
  · simp [startsAt, hget, hplain]
  · simp [startsAt, hget, hplain, hc, hd]

theorem any_iff {i : Nat} {p : Char → Bool} : s[i]?.any p = true ↔ ∃ c, s[i]? =
    some c ∧ p c = true := by
  cases s[i]? <;> simp

theorem exists_run (h : startsAt delim s start = true) : ∃ stop, IsRun delim s start stop := by
  rw [startsAt, Bool.and_eq_true] at h
  obtain ⟨hplain, hleft⟩ := h
  obtain ⟨c, hc, hnot⟩ := any_iff.mp hplain
  obtain ⟨stop, hfield⟩ := exists_field delim (Nat.le_of_lt (List.getElem?_eq_some_iff.mp hc).1)
  have hlt : start < stop := by
    refine Nat.lt_of_le_of_ne hfield.le ?_
    rintro rfl
    rcases hfield.last with hlast | ⟨d, hd, hmem⟩
    · rw [List.getElem?_eq_none (Nat.le_of_eq hlast.symm)] at hc
      cases hc
    · obtain rfl := Option.some.inj (hd.symm.trans hc)
      simp [hmem] at hnot
  refine ⟨stop, hlt, hfield.le_length, fun i hi hi' d hd => ?_, ?_, hfield.last⟩
  · obtain ⟨d', hd', hmem⟩ := hfield.plain i hi hi'
    obtain rfl := Option.some.inj (hd'.symm.trans hd)
    exact hmem
  · rcases Bool.or_eq_true_iff.mp hleft with hzero | hprev
    · exact .inl (by simpa using hzero)
    · obtain ⟨d, hd, hmem⟩ := any_iff.mp hprev
      exact .inr ⟨d, hd, by simpa using hmem⟩

theorem mem_starts {i : Nat} : i ∈ starts delim s (s.length + 1) ↔ ∃ stop,
    IsRun delim s i stop := by
  rw [starts, List.mem_filter, List.mem_range]
  constructor
  · exact fun h => exists_run h.2
  · rintro ⟨stop, h⟩
    exact ⟨Nat.lt_succ_of_lt (h.lt.trans_le h.le), startsAt_of_run h⟩

/-- **The C string at the beginning of a run is the run**, when `strsep` has gone behind it. -/
theorem textAt_run {off : Nat} (hs : '\x00' ∉ s) (hb : Cut delim s off b)
    (h : IsRun delim s start stop) (hoff : stop < off) :
    textAt b start = (s.drop start).take (stop - start) := by
  have hlt := h.lt
  have hle := h.le
  have hrun : slice b.byte start (stop - start) = (s.drop start).take (stop - start) := by
    refine List.ext_getElem? fun i => ?_
    rw [getElem?_slice, List.getElem?_take, List.getElem?_drop]
    split
    · have hi : start + i < s.length := by omega
      have hget := List.getElem?_eq_getElem hi
      have hplain := h.plain (start + i) (by omega) (by omega) _ hget
      rw [hb.byte, hget, if_neg (by simp [hplain]), Option.getD_some]
    · rfl
  have hnul : b.byte stop = '\x00' := by
    rw [hb.byte]
    rcases h.right with rfl | ⟨c, hc, hd⟩
    · simp
    · rw [if_pos ⟨hoff, by simp [hc, hd]⟩]
  have hsplit : b.size - start = (stop - start) + ((b.size - stop - 1) + 1) := by
    rw [hb.size]
    omega
  have hend : start + (stop - start) = stop := by omega
  have htail : slice b.byte stop ((b.size - stop - 1) + 1) = '\x00' :: slice b.byte (stop + 1)
    (b.size - stop - 1) := by
    rw [Nat.add_comm, slice_add]
    exact congrArg (· :: _) hnul
  rw [textAt, hsplit, slice_add, hend, hrun, htail, List.takeWhile_append_of_pos,
    List.takeWhile_cons_of_neg, List.append_nil]
  · decide
  · intro c hc
    exact decide_eq_true fun h => hs (h ▸ List.mem_of_mem_drop (List.mem_of_mem_take hc))

theorem strsepAll_plain {f : List Char} (hf : ∀ c ∈ f, c ∉ delim) : strsepAll delim f = [f] := by
  induction f with
  | nil => rfl
  | cons c f ih =>
    rw [strsepAll, if_neg (hf c List.mem_cons_self), ih fun d hd => hf d
      (List.mem_cons_of_mem c hd)]

theorem strsepAll_field {f : List Char} {d : Char} (rest : List Char) (hf : ∀ c ∈ f, c ∉ delim)
    (hd : d ∈ delim) : strsepAll delim (f ++ d :: rest) = f :: strsepAll delim rest := by
  induction f with
  | nil => rw [List.nil_append, strsepAll, if_pos hd]
  | cons c f ih =>
    rw [List.cons_append, strsepAll, if_neg (hf c List.mem_cons_self),
      ih fun d hd => hf d (List.mem_cons_of_mem c hd)]

theorem Field.plain_take {off : Nat} (h : Field delim s off stop) :
    ∀ c ∈ (s.drop off).take (stop - off), c ∉ delim := by
  intro c hc
  obtain ⟨i, hi⟩ := List.mem_iff_getElem?.mp hc
  rw [List.getElem?_take, List.getElem?_drop] at hi
  split at hi
  · obtain ⟨d, hd, hplain⟩ := h.plain (off + i) (by omega) (by omega)
    obtain rfl := Option.some.inj (hd.symm.trans hi)
    exact hplain
  · cases hi

theorem Field.split {off : Nat} (h : Field delim s off stop) :
    s.drop off = (s.drop off).take (stop - off) ++ s.drop stop := by
  have hle := h.le
  have happ := (List.take_append_drop (stop - off) (s.drop off)).symm
  rwa [List.drop_drop, Nat.add_sub_cancel' hle] at happ

/-- A field is as long as there are no delimiters. -/
theorem Field.takeWhile {off : Nat} (h : Field delim s off stop) :
    (s.drop off).takeWhile (· ∉ delim) = (s.drop off).take (stop - off) := by
  have hend : (s.drop stop).takeWhile (· ∉ delim) = [] := by
    rcases h.last with rfl | ⟨d, hd, hmem⟩
    · rw [List.drop_length, List.takeWhile_nil]
    · rw [List.drop_eq_getElem_cons (List.getElem?_eq_some_iff.mp hd).1,
        (List.getElem?_eq_some_iff.mp hd).2, List.takeWhile_cons_of_neg (by simpa using hmem)]
  calc (s.drop off).takeWhile (· ∉ delim)
      = ((s.drop off).take (stop - off) ++ s.drop stop).takeWhile (· ∉ delim) := congrArg _ h.split
    _ = (s.drop off).take (stop - off) ++ (s.drop stop).takeWhile (· ∉ delim) :=
      List.takeWhile_append_of_pos fun c hc => decide_eq_true (h.plain_take c hc)
    _ = (s.drop off).take (stop - off) := by rw [hend, List.append_nil]

/-- From the beginning of a field on, the runs are what the calls of `strsep` return. -/
theorem starts_map_strtok (delim : List Char) {off : Nat} (hoff : off ≤ s.length)
    (hstart : off = 0 ∨ ∃ c, s[off - 1]? = some c ∧ c ∈ delim) :
    ∃ l, starts delim s (s.length + 1) = starts delim s off ++ l ∧
      l.map (fun i => (s.drop i).takeWhile (· ∉ delim)) = strtok (s.drop off) delim := by
  induction hn : s.length - off using Nat.strong_induction_on generalizing off with
  | h n ih =>
    obtain ⟨stop, hfield⟩ := exists_field delim hoff
    have hstarts := starts_field hfield hstart
    have hlen : ((s.drop off).take (stop - off)).length = stop - off := by
      have hle := hfield.le_length
      rw [List.length_take, List.length_drop]
      omega
    have hfilter : ((if off < stop then [off] else []).map fun i =>
      (s.drop i).takeWhile (· ∉ delim)) =
        [(s.drop off).take (stop - off)].filter (· ≠ []) := by
      split
      · next hlt =>
        have hne : (s.drop off).take (stop - off) ≠ [] := fun h => by
          rw [h] at hlen
          exact absurd hlen.symm (Nat.sub_ne_zero_of_lt hlt)
        rw [List.filter_singleton, decide_eq_true hne]
        exact congrArg (· :: []) hfield.takeWhile
      · next hnot =>
        have hnil : (s.drop off).take (stop - off) = [] := by
          rw [Nat.sub_eq_zero_of_le (Nat.not_lt.mp hnot), List.take_zero]
        rw [hnil]
        rfl
    rcases hfield.last with rfl | ⟨d, hd, hmem⟩
    · refine ⟨_, hstarts, hfilter.trans ?_⟩
      have hdrop := hfield.split
      rw [List.drop_length, List.append_nil] at hdrop
      rw [strtok, strsepAll_plain (hdrop ▸ hfield.plain_take), ← hdrop]
    · have hstop := (List.getElem?_eq_some_iff.mp hd).1
      have hle := hfield.le
      obtain ⟨l, hl, htexts⟩ := ih (s.length - (stop + 1)) (by omega) (Nat.succ_le_of_lt hstop)
        (.inr ⟨d, hd, hmem⟩) rfl
      have hdrop : s.drop stop = d :: s.drop (stop + 1) := by
        rw [List.drop_eq_getElem_cons hstop, (List.getElem?_eq_some_iff.mp hd).2]
      refine ⟨_, hl.trans (by rw [hstarts, List.append_assoc]), ?_⟩
      have hsep : strsepAll delim (s.drop off) =
          (s.drop off).take (stop - off) :: strsepAll delim (s.drop (stop + 1)) := by
        have hfields := strsepAll_field (s.drop (stop + 1)) hfield.plain_take hmem
        rwa [← hdrop, ← hfield.split] at hfields
      rw [List.map_append, hfilter, htexts, strtok, strtok, hsep]
      exact (List.filter_append [(s.drop off).take (stop - off)] _).symm

/-- The texts of the pieces. -/
def State.texts (st : State) : List (Option (List Char)) :=
  (slice st.slots.byte 0 st.nelems).map fun p => p.map (textAt st.sdup)

theorem takeWhile_run (h : IsRun delim s start stop) :
    (s.drop start).takeWhile (· ∉ delim) = (s.drop start).take (stop - start) := by
  refine Field.takeWhile ⟨Nat.le_of_lt h.lt, fun i hi hi' => ?_, h.right⟩
  have hget := List.getElem?_eq_getElem (hi'.trans_le h.le)
  exact ⟨_, hget, h.plain i hi hi' _ hget⟩

/-- At the end of the scan, the vector has the runs. -/
theorem Inv.pieces (hs : '\x00' ∉ s) (h : Inv delim s (s.length + 1) st) :
    Pieces delim s (st.stored st.sdup st.p (some 0)) ∧
      (st.stored st.sdup st.p (some 0)).texts = (strtok s delim).map some := by
  have hroom := h.room
  have hsize := h.size
  have hslots := h.slots
  have hlen : st.nelems = (starts delim s (s.length + 1)).length := by
    rw [← List.length_map (f := some), ← hslots, length_slice]
  have hbyte : ∀ i (hi : i < st.nelems), (overlay st.slots.byte st.nelems [some 0]) i =
      some ((starts delim s (s.length + 1)).get ⟨i, hlen ▸ hi⟩) := by
    intro i hi
    have hget := congrArg (fun l : List (Option Nat) => l[i]?) hslots
    simp only [getElem?_slice, if_pos hi, List.getElem?_map, Nat.zero_add] at hget
    rw [List.getElem?_eq_getElem (hlen ▸ hi)] at hget
    rw [overlay_of_not_mem _ _ (.inl hi)]
    exact Option.some.inj hget
  have hsorted : (starts delim s (s.length + 1)).Pairwise (· < ·) := List.pairwise_lt_range.filter _
  refine ⟨⟨?_, fun start stop hrun => ?_, fun i hi => ?_,
    fun i j hij hj start start' hstart hstart' => ?_, ?_⟩, ?_⟩
  · exact (Nat.lt_of_succ_lt hroom).trans_le (Nat.le_of_eq hsize.symm)
  · obtain ⟨i, hi⟩ := List.get_of_mem (mem_starts.mpr ⟨stop, hrun⟩)
    have hlt : i.1 < st.nelems := i.2.trans_le (Nat.le_of_eq hlen.symm)
    refine ⟨i.1, hlt, (hbyte i.1 hlt).trans ?_⟩
    exact congrArg some hi
  · obtain ⟨stop, hrun⟩ := mem_starts.mp (List.get_mem _ ⟨i, hlen ▸ hi⟩)
    exact ⟨_, stop, hrun, hbyte i hi, textAt_run hs h.sdup hrun (Nat.lt_succ_of_le hrun.le)⟩
  · have hlt := List.pairwise_iff_getElem.mp hsorted i j (hlen ▸ hij.trans hj) (hlen ▸ hj) hij
    obtain rfl := Option.some.inj ((hbyte i (hij.trans hj)).symm.trans hstart)
    obtain rfl := Option.some.inj ((hbyte j hj).symm.trans hstart')
    exact hlt
  · have hread : (st.stored st.sdup st.p (some 0)).slots.read st.nelems =
        some (overlay st.slots.byte st.nelems [some 0] st.nelems) :=
      Block.read_of_lt ((Nat.lt_of_succ_lt hroom).trans_le (Nat.le_of_eq hsize.symm))
    refine hread.trans (congrArg some ?_)
    exact overlay_of_mem st.slots.byte st.nelems (i := 0) (by decide : 0 < [some 0].length)
  · obtain ⟨l, hl, htexts⟩ := starts_map_strtok delim (Nat.zero_le s.length) (.inl rfl)
    obtain rfl : starts delim s (s.length + 1) = l := hl
    rw [List.drop_zero] at htexts
    have hkeep : slice (st.stored st.sdup st.p (some 0)).slots.byte 0 st.nelems =
        (starts delim s (s.length + 1)).map some := (slice_setSlot _ _ _).trans hslots
    have hmap : (st.stored st.sdup st.p (some 0)).texts =
        ((starts delim s (s.length + 1)).map some).map fun p => p.map (textAt st.sdup) :=
      congrArg (List.map (Option.map (textAt st.sdup))) hkeep
    rw [hmap, ← htexts, List.map_map, List.map_map]
    refine List.map_congr_left fun start hmem => ?_
    obtain ⟨stop, hrun⟩ := mem_starts.mp hmem
    have htext := textAt_run hs h.sdup hrun (Nat.lt_succ_of_le hrun.le)
    exact congrArg some (htext.trans (takeWhile_run hrun).symm)

theorem cut_dup (delim s : List Char) : Cut delim (cString s) 0 (dup s) :=
  ⟨rfl, fun i => (if_neg fun h => Nat.not_lt_zero i h.1).symm⟩

theorem nul_not_mem (s : List Char) : '\x00' ∉ cString s := by
  intro h
  have hp := List.mem_takeWhile_imp h
  exact absurd hp (by decide)

theorem uStrtok_returns (heap : Heap) (s delim : List Char) (hstrdup : heap.strdup = true)
    (hrealloc : ∀ n, heap.realloc n ≠ 0) :
    ∃ st, uStrtok heap s delim = some (some st) ∧ Pieces (cString delim) (cString s) st ∧
      st.texts = (strtok (cString s) (cString delim)).map some := by
  have hs := nul_not_mem s
  have hfilled : Filled (cString delim) (cString s) 0 ⟨dup s, some 0, 0, ⟨0, heap.junk⟩,
    nslotsDflt, 0, 0⟩ :=
    ⟨cut_dup (cString delim) s, rfl, fun _ => .inl rfl, rfl, rfl, Nat.le_refl 0⟩
  obtain ⟨st₀, hexpand, hinv₀⟩ := hfilled.expand hrealloc (by decide : 0 + 1 < nslotsDflt)
  have hfuel : (cString s).length + 1 - 0 < (dup s).size + 1 := Nat.lt_succ_self _
  obtain ⟨st, hscan, hinv⟩ := hinv₀.scan hs hrealloc (Nat.zero_le _) hfuel
  refine ⟨st.stored st.sdup st.p (some 0), ?_, hinv.pieces hs⟩
  have hset := hinv.setSlot st.sdup st.p (some 0)
  rw [uStrtok, if_pos hstrdup, hexpand]
  dsimp only
  rw [hscan]
  dsimp only [Option.bind_eq_bind, Option.bind_some]
  rw [hset]
  rfl

/-- **`u_strtok` returns the runs of the string**, when its allocations succeed: wherever the vector
is moved to, whatever is in its new slots, and however often it is expanded. -/
theorem uStrtok_spec (heap : Heap) (s delim : List Char) (hstrdup : heap.strdup = true)
    (hrealloc : ∀ n, heap.realloc n ≠ 0) :
    ∃ st, uStrtok heap s delim = some (some st) ∧ Pieces (cString delim) (cString s) st := by
  obtain ⟨st, hst, hpieces, -⟩ := uStrtok_returns heap s delim hstrdup hrealloc
  exact ⟨st, hst, hpieces⟩

/-- Twelve letters, with two commas at one place. -/
def letters : List Char := "a,b,c,d,,e,f,g,h,i,j,k,l".toList

/-- A heap that moves the vector whenever it grows. -/
def movingHeap : Heap := ⟨true, fun n => n + 1, fun _ => none⟩

/-- The pieces of the letters at commas do not fit into the vector that the scan starts with. -/
theorem uStrtok_commas : ∃ st, uStrtok movingHeap letters [','] = some (some st) ∧
    Pieces (cString [',']) (cString letters) st ∧ st.nelems = 12 ∧ nslotsDflt < st.tvSlots := by
  obtain ⟨st, hst, hpieces⟩ := uStrtok_spec movingHeap letters [','] rfl fun n => Nat.succ_ne_zero n
  have hgrown : (uStrtok movingHeap letters [',']).map (Option.map fun st =>
      (st.nelems, decide (nslotsDflt < st.tvSlots))) = some (some (12, true)) := by
    decide +kernel
  rw [hst] at hgrown
  obtain ⟨hnelems, hslots⟩ := Prod.mk.inj (Option.some.inj (Option.some.inj hgrown))
  exact ⟨st, hst, hpieces, hnelems, of_decide_eq_true hslots⟩

/-- **The pieces are those that a line of a password file is read as.** -/
theorem texts_eq_strtok (heap : Heap) (s delim : List Char) (hstrdup : heap.strdup = true)
    (hrealloc : ∀ n, heap.realloc n ≠ 0) :
    ∃ st, uStrtok heap s delim = some (some st) ∧
      st.texts = (strtok (cString s) (cString delim)).map some := by
  obtain ⟨st, hst, -, htexts⟩ := uStrtok_returns heap s delim hstrdup hrealloc
  exact ⟨st, hst, htexts⟩

end

end Libu.Strtok
