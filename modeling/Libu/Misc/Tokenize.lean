/-
# Breaking up a string into a vector of a given size (`u_tokenize` of `toolbox/misc.c`)

Like `u_strtok`, but in place, and into a vector that does not grow: the scan stops when one slot is
left, which is for the NULL at the end.  That it does is only found out behind the first store, so a
vector of one slot gets its NULL in the slot behind it.

The string is taken apart in place: a NUL goes over the separator behind each piece, and the vector
gets pointers into the string.  As long as the scan has not come to a place its bytes are as they
were given, which is why the pieces are those of the string before the call.

* §1 is the code.  A store out of the vector has no result.
* §2: the scan, turn by turn.
* §3: the vector has the first runs of the string and a NULL, and is not written out of, exactly
  when it has two slots or the string has no run (`tokenize_iff`).
-/
import Libu.Strtok

namespace Libu.Tokenize

open Verif
open Strtok (strsep starts startsAt IsRun Field Cut textAt)

/-! ## 1. The code -/

/-- The list and where the next call of `strsep` starts in it, the vector, and the index of `ap` in
it. -/
structure State where
  wlist : Block Char
  p : Option Nat
  tokv : Block (Option Nat)
  ap : Nat

/-- The loop. -/
def scan (delim : List Char) (tokvSz : Nat) : Nat → State → Option State
  | 0, _ => none
  | n + 1, st => do
    let (wlist, p, tok) ← strsep delim st.wlist st.p
    let tokv ← st.tokv.store st.ap [tok]
    let st := { st with wlist, p, tokv }
    match tok with
    | none => some st
    | some tok => do
      let c ← st.wlist.read tok
      -- skip empty field
      if c = '\x00' then scan delim tokvSz n st
      else
        let st := { st with ap := st.ap + 1 }
        -- check bounds
        if st.ap ≥ tokvSz - 1 then some st else scan delim tokvSz n st

/-- `u_tokenize`, on a vector of `tokv_sz` slots: the state in which it returns, if it does not
fail. -/
def uTokenize (wlist delim : List Char) (tokv : Block (Option Nat)) : Option (Option State) :=
  if tokv.size = 0 then some none
  else do
    let b := Strtok.dup wlist
    let st ← scan (cString delim) tokv.size (b.size + 1) ⟨b, some 0, tokv, 0⟩
    -- put an explicit stopper to tokv
    let tokv ← st.tokv.store st.ap [none]
    some (some { st with tokv })

/-! ## 2. The scan -/

section

variable {delim s : List Char} {off stop n sz : Nat} {st : State}

/-- The vector has the starts before `off`, and `ap` is behind them. -/
structure Filled (delim s : List Char) (sz off : Nat) (st : State) : Prop where
  wlist : Cut delim s off st.wlist
  le : off ≤ s.length + 1
  start : off ≤ s.length → off = 0 ∨ ∃ c, s[off - 1]? = some c ∧ c ∈ delim
  slots : slice st.tokv.byte 0 st.ap = (starts delim s off).map some
  size : st.tokv.size = sz

/-- The scan goes on from `off`: there is a slot for `ap`. -/
structure Inv (delim s : List Char) (sz off : Nat) (st : State) :
    Prop extends Filled delim s sz off st where
  p : st.p = if off ≤ s.length then some off else none
  room : st.ap < max 1 (sz - 1)

/-- The scan has ended behind `off`: at the end of the string, or where one slot is left. -/
structure Ended (delim s : List Char) (sz off : Nat) (st : State) :
    Prop extends Filled delim s sz off st where
  stop : off = s.length + 1 ∧ st.ap < max 1 (sz - 1) ∨ st.ap = max 1 (sz - 1)

theorem Filled.length_starts (h : Filled delim s sz off st) :
    (starts delim s off).length = st.ap := by
  rw [← List.length_map (f := some), ← h.slots, length_slice]

/-- After a call of `strsep`, `x` is stored where `ap` is. -/
def State.stored (st : State) (b : Block Char) (p x : Option Nat) : State :=
  { st with wlist := b, p, tokv := ⟨st.tokv.size, overlay st.tokv.byte st.ap [x]⟩ }

theorem Filled.store (h : Filled delim s sz off st) (hroom : st.ap < sz) (x : Option Nat) :
    st.tokv.store st.ap [x] = some ⟨st.tokv.size, overlay st.tokv.byte st.ap [x]⟩ := by
  refine Block.store_of_le ?_
  rw [h.size]
  exact hroom

/-- **A turn of the loop** goes on by a field, or is the last. -/
theorem Inv.turn (hs : '\x00' ∉ s) (hsz : 0 < sz) (h : Inv delim s sz off st)
    (hoff : off ≤ s.length) :
    ∃ off' st', off < off' ∧ (Inv delim s sz off' st' ∧ (∀ n, scan delim sz (n + 1) st =
      scan delim sz n st') ∨
      Ended delim s sz off' st' ∧ ∀ n, scan delim sz (n + 1) st = some st') := by
  obtain ⟨stop, hfield⟩ := Strtok.exists_field delim hoff
  obtain ⟨b, hsep, hcut⟩ := Strtok.strsep_field hs h.wlist hfield
  have hle := hfield.le
  have hlen := hfield.le_length
  have hroom := h.room
  have hstart : stop + 1 ≤ s.length → stop + 1 = 0 ∨ ∃ c, s[stop + 1 - 1]? = some c ∧ c ∈ delim :=
    fun hlt => .inr (hfield.last.resolve_left (Nat.ne_of_lt hlt))
  have hstarts := Strtok.starts_field hfield (h.start hoff)
  have hread : b.read off = some (b.byte off) := Block.read_of_lt (by rw [hcut.size]; omega)
  have hp : st.p = some off := by rw [h.p, if_pos hoff]
  have hstore := h.store (by omega) (some off)
  generalize hp' : (if stop < s.length then some (stop + 1) else none) = p at hsep
  have hscan : ∀ n, scan delim sz (n + 1) st =
      if b.byte off = '\x00' then scan delim sz n (st.stored b p (some off))
      else if st.ap + 1 ≥ sz - 1 then some { st.stored b p (some off) with ap := st.ap + 1 }
      else scan delim sz n { st.stored b p (some off) with ap := st.ap + 1 } := by
    intro n
    rw [scan, hp, hsep]
    dsimp only [Option.bind_eq_bind, Option.bind_some]
    rw [hstore]
    dsimp only [Option.bind_eq_bind, Option.bind_some]
    rw [hread]
    rfl
  refine ⟨stop + 1, ?_⟩
  rcases Nat.eq_or_lt_of_le hle with rfl | hlt
  · -- an empty field
    have hbyte : b.byte off = '\x00' := by
      rw [hcut.byte]
      rcases hfield.last with hlast | ⟨c, hc, hd⟩
      · simp [hlast]
      · simp [hc, hd]
    rw [if_neg (Nat.lt_irrefl off), List.append_nil] at hstarts
    refine ⟨st.stored b p (some off), Nat.lt_succ_self off,
      .inl ⟨⟨⟨hcut, Nat.succ_le_succ hlen, hstart, ?_, h.size⟩, hp'.symm, hroom⟩, fun n => ?_⟩⟩
    · rw [hstarts, ← h.slots]
      exact Strtok.slice_setSlot _ _ _
    · rw [hscan, if_pos hbyte]
  · have hbyte : b.byte off ≠ '\x00' := by
      obtain ⟨c, hc, hplain⟩ := hfield.plain off (Nat.le_refl _) hlt
      rw [hcut.byte, if_neg (by simp [hc, hplain]), hc, Option.getD_some]
      exact Strtok.ne_nul hs hc
    rw [if_pos hlt] at hstarts
    have hfilled : Filled delim s sz
      (stop + 1) { st.stored b p (some off) with ap := st.ap + 1 } := by
      refine ⟨hcut, Nat.succ_le_succ hlen, hstart, ?_, h.size⟩
      rw [hstarts, List.map_append, ← h.slots]
      exact Strtok.slice_setSlot_succ _ _ _
    refine ⟨{ st.stored b p (some off) with ap := st.ap + 1 }, Nat.lt_succ_of_lt hlt, ?_⟩
    by_cases hfull : st.ap + 1 ≥ sz - 1
    · refine .inr ⟨⟨hfilled, .inr ?_⟩, fun n => ?_⟩
      · dsimp only
        omega
      · rw [hscan, if_neg hbyte, if_pos hfull]
    · refine .inl ⟨⟨hfilled, hp'.symm, ?_⟩, fun n => ?_⟩
      · dsimp only
        omega
      · rw [hscan, if_neg hbyte, if_neg hfull]

/-- **The scan** ends. -/
theorem Inv.scan (hs : '\x00' ∉ s) (hsz : 0 < sz) (h : Inv delim s sz off st)
    (hn : s.length + 1 - off < n) :
    ∃ off' st', Tokenize.scan delim sz n st = some st' ∧ Ended delim s sz off' st' := by
  induction n generalizing off st with
  | zero => exact absurd hn (Nat.not_lt_zero _)
  | succ n ih =>
    by_cases hend : off ≤ s.length
    · obtain ⟨off', st', hlt, ⟨hinv, hscan⟩ | ⟨hended, hscan⟩⟩ := h.turn hs hsz hend
      · rw [hscan]
        exact ih hinv (by omega)
      · exact ⟨off', st', hscan n, hended⟩
    · have hle := h.le
      have hroom := h.room
      obtain rfl : off = s.length + 1 := by omega
      have hp : st.p = none := by rw [h.p, if_neg hend]
      have hstore := h.store (by omega) none
      refine ⟨s.length + 1, st.stored st.wlist none none, ?_, ⟨h.wlist, Nat.le_refl _, h.start, ?_,
        h.size⟩, .inl ⟨rfl, hroom⟩⟩
      · rw [Tokenize.scan, hp, strsep]
        dsimp only [Option.bind_eq_bind, Option.bind_some]
        rw [hstore]
        rfl
      · rw [← h.slots]
        exact Strtok.slice_setSlot _ _ _

end

/-! ## 3. The tokens -/

/-- The longest runs of characters that are no delimiters, each with its beginning and end, in their
order. -/
structure Runs (delim s : List Char) (runs : List (Nat × Nat)) : Prop where
  mem : ∀ r, r ∈ runs ↔ IsRun delim s r.1 r.2
  ordered : runs.Pairwise fun r r' => r.1 < r'.1

/-- The vector has as many runs as there is room for, as C strings in the list, and a NULL behind
them. -/
structure Tokenized (s : List Char) (runs : List (Nat × Nat)) (sz : Nat) (st : State) : Prop where
  size : st.tokv.size = sz
  count : st.ap = min runs.length (sz - 1)
  slots : slice st.tokv.byte 0 (st.ap + 1) = ((runs.take (sz - 1)).map fun r => some r.1) ++ [none]
  texts : ∀ r ∈ runs.take (sz - 1), textAt st.wlist r.1 = (s.drop r.1).take (r.2 - r.1)

section

variable {delim s : List Char} {off start stop sz : Nat} {st : State} {runs : List (Nat × Nat)}

theorem run_stop (h : IsRun delim s start stop) :
    stop = start + ((s.drop start).takeWhile (· ∉ delim)).length := by
  have hlt := h.lt
  have hle := h.le
  rw [Strtok.takeWhile_run h, List.length_take, List.length_drop]
  omega

/-- The runs, from where they start. -/
def runsOf (delim s : List Char) : List (Nat × Nat) :=
  (starts delim s (s.length + 1)).map fun i => (i, i + ((s.drop i).takeWhile (· ∉ delim)).length)

theorem runsOf_fst (delim s : List Char) : (runsOf delim s).map Prod.fst =
    starts delim s (s.length + 1) := by
  rw [runsOf, List.map_map]
  exact List.map_id _

theorem length_runsOf (delim s : List Char) :
    (runsOf delim s).length = (starts delim s (s.length + 1)).length := by
  rw [← runsOf_fst, List.length_map]

theorem runs_runsOf (delim s : List Char) : Runs delim s (runsOf delim s) := by
  refine ⟨fun r => ?_, ?_⟩
  · rw [runsOf, List.mem_map]
    constructor
    · rintro ⟨i, hi, rfl⟩
      obtain ⟨stop, hrun⟩ := Strtok.mem_starts.mp hi
      rwa [← run_stop hrun]
    · intro hrun
      exact ⟨r.1, Strtok.mem_starts.mpr ⟨r.2, hrun⟩, Prod.ext rfl (run_stop hrun).symm⟩
  · have hsorted : (starts delim s (s.length + 1)).Pairwise (· < ·) :=
      List.pairwise_lt_range.filter _
    rw [← runsOf_fst, List.pairwise_map] at hsorted
    exact hsorted

/-- What starts before `off` ends before it. -/
theorem Filled.stop_lt (h : Filled delim s sz off st) (hrun : IsRun delim s start stop)
    (hlt : start < off) : stop < off := by
  have hle := hrun.le
  have hoff := h.le
  by_cases hend : off ≤ s.length
  · rcases h.start hend with rfl | ⟨c, hc, hd⟩
    · exact absurd hlt (Nat.not_lt_zero start)
    · by_contra hstop
      exact hrun.plain (off - 1) (by omega) (by omega) c hc hd
  · omega

theorem starts_mono (delim s : List Char) (h : off ≤ stop) :
    starts delim s off <+: starts delim s stop := by
  induction stop, h using Nat.le_induction with
  | base => exact List.prefix_rfl
  | succ stop hle ih =>
    rw [Strtok.starts_succ]
    exact ih.trans (List.prefix_append _ _)

/-- The starts before `off` are the first of all. -/
theorem Filled.starts_eq (h : Filled delim s sz off st) :
    starts delim s off = ((runsOf delim s).take st.ap).map Prod.fst := by
  have hpre := List.prefix_iff_eq_take.mp (starts_mono delim s h.le)
  rwa [h.length_starts, ← runsOf_fst, ← List.map_take] at hpre

/-- There was room for as many runs as there are, or the vector has one slot left. -/
theorem Ended.count (h : Ended delim s sz off st) (hpos : 0 < sz)
    (hsz : 2 ≤ sz ∨ runsOf delim s = []) :
    st.ap < sz ∧ st.ap = min (runsOf delim s).length (sz - 1) := by
  have hle := (starts_mono delim s h.le).length_le
  rw [h.length_starts, ← length_runsOf] at hle
  have hall : off = s.length + 1 → st.ap = (runsOf delim s).length := by
    rintro rfl
    rw [length_runsOf, h.length_starts]
  have hempty : runsOf delim s = [] → (runsOf delim s).length = 0 := fun hnil => by
    rw [hnil, List.length_nil]
  rcases h.stop with ⟨hoff, hroom⟩ | hroom
  · have hall := hall hoff
    rcases hsz with hsz | hnil
    · omega
    · have hzero := hempty hnil
      omega
  · rcases hsz with hsz | hnil
    · omega
    · have hzero := hempty hnil
      omega

/-- **At the end of the scan**, the vector has as many runs as there is room for. -/
theorem Ended.tokenized (hs : '\x00' ∉ s) (h : Ended delim s sz off st) (hpos : 0 < sz)
    (hsz : 2 ≤ sz ∨ runsOf delim s = []) : Tokenized s (runsOf delim s) sz
      { st with tokv := ⟨st.tokv.size, overlay st.tokv.byte st.ap [none]⟩ } := by
  obtain ⟨-, hcount⟩ := h.count hpos hsz
  have htake : (runsOf delim s).take (sz - 1) = (runsOf delim s).take st.ap := by
    rw [List.take_eq_take_min, Nat.min_comm, ← hcount]
  refine ⟨h.size, hcount, ?_, ?_⟩
  · rw [htake]
    refine (Strtok.slice_setSlot_succ _ _ _).trans ?_
    rw [h.slots, h.starts_eq, List.map_map]
    rfl
  · rw [htake]
    intro r hr
    have hrun := (runs_runsOf delim s).mem r |>.mp (List.mem_of_mem_take hr)
    have hstart : r.1 ∈ starts delim s off := by
      rw [h.starts_eq]
      exact List.mem_map_of_mem hr
    have hlt : r.1 < off := List.mem_range.mp (List.mem_filter.mp hstart).1
    exact Strtok.textAt_run hs h.wlist hrun (h.stop_lt hrun hlt)

theorem inv_start (delim wlist : List Char) (tokv : Block (Option Nat)) :
    Inv delim (cString wlist) tokv.size 0 ⟨Strtok.dup wlist, some 0, tokv, 0⟩ :=
  ⟨⟨Strtok.cut_dup delim wlist, Nat.zero_le _, fun _ => .inl rfl, rfl, rfl⟩, rfl,
    Nat.lt_of_lt_of_le Nat.one_pos (Nat.le_max_left 1 _)⟩

/-- **What `u_tokenize` stores.**  The vector gets the first runs of the list, as many as there is
room for, and a NULL, and is not written out of, exactly when it has two slots or the list has no
run. -/
theorem tokenize_iff (wlist delim : List Char) {tokv : Block (Option Nat)} (hpos : 0 < tokv.size) :
    ∃ runs, Runs (cString delim) (cString wlist) runs ∧
      ((∃ st, uTokenize wlist delim tokv = some (some st) ∧
        Tokenized (cString wlist) runs tokv.size st) ↔ 2 ≤ tokv.size ∨ runs = []) := by
  have hs := Strtok.nul_not_mem wlist
  obtain ⟨off, st, hscan, hended⟩ := (inv_start (cString delim) wlist tokv).scan hs hpos
    (n := (Strtok.dup wlist).size + 1) (Nat.lt_succ_self _)
  have htok : uTokenize wlist delim tokv =
      (st.tokv.store st.ap [none]).bind fun tokv => some (some { st with tokv }) := by
    rw [uTokenize, if_neg (Nat.ne_of_gt hpos)]
    dsimp only [Option.bind_eq_bind]
    rw [hscan]
    rfl
  refine ⟨runsOf (cString delim) (cString wlist), runs_runsOf _ _, ?_⟩
  rw [htok]
  constructor
  · rintro ⟨st', hst', -⟩
    by_contra hno
    obtain ⟨hone, hrun⟩ := not_or.mp hno
    -- the one slot is full, and the NULL goes behind it
    have hfull : st.ap = 1 := by
      rcases hended.stop with ⟨rfl, hroom⟩ | hroom
      · have hempty : (runsOf (cString delim) (cString wlist)).length = 0 := by
          rw [length_runsOf, hended.length_starts]
          omega
        exact absurd (List.length_eq_zero_iff.mp hempty) hrun
      · omega
    have hstore : st.tokv.store st.ap [none] = none := by
      refine Block.store_of_lt ?_
      rw [hended.size, hfull, List.length_singleton]
      omega
    rw [hstore] at hst'
    cases hst'
  · intro hsz
    have hroom := (hended.count hpos hsz).1
    refine ⟨_, ?_, hended.tokenized hs hpos hsz⟩
    rw [hended.store hroom]
    rfl

/-- A vector of three slots has room for the two runs of `a,,b`. -/
theorem tokenize_commas : ∃ runs, Runs (cString [',']) (cString ['a', ',', ',', 'b']) runs ∧
    ((∃ st, uTokenize ['a', ',', ',', 'b'] [','] ⟨3, fun _ => none⟩ = some (some st) ∧
      Tokenized (cString ['a', ',', ',', 'b']) runs 3 st) ↔ 2 ≤ 3 ∨ runs = []) :=
  @tokenize_iff ['a', ',', ',', 'b'] [','] ⟨3, fun _ => none⟩ (by decide)

/-- With one slot, the run of `a` goes into it, and the NULL behind it. -/
theorem not_tokenized_one : ¬ ∃ runs st, Runs (cString [',']) (cString ['a']) runs ∧
    uTokenize ['a'] [','] ⟨1, fun _ => none⟩ = some (some st) ∧
    Tokenized (cString ['a']) runs 1 st := by
  rintro ⟨runs, st, -, htok, -⟩
  have hout : uTokenize ['a'] [','] ⟨1, fun _ => none⟩ = none := rfl
  rw [hout] at htok
  cases htok

end

end Libu.Tokenize
