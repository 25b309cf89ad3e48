/-
# The wrapped flavour is a bounded queue, as far as its reads go

The invariant `Wrapped` ties the three counters together: the write offset lies `ready` places
after the read offset, around the fold.  The unread bytes are the circular window of that length.

Writes are right in every state: `write_wrapped` splits a copy exactly when it would cross the
end of the block.  `read_wrapped` makes the opposite comparison.  When the unread bytes cross the
end it copies past the block or computes a negative remainder, unless the read happens to stop
exactly at the end; and when the buffer is full with both offsets inside, it copies past the
block as soon as the read crosses the end.  `ReadSafe` is what remains.
-/
import Libu.Rb.Basic

namespace Libu.Rb

open Verif

/-! ## 1. The invariant -/

/-- The unread bytes of a wrapped buffer, read around the fold. -/
def window (rb : Rb) : List UInt8 := ringSlice rb.base.byte rb.sz rb.rdOff rb.ready

/-- What every call on a wrapped buffer finds: the block has the size of the buffer, the offsets are
inside, and the write offset is that of the unread bytes behind the read offset, around the fold. -/
structure Wrapped (rb : Rb) : Prop where
  flavour : contiguous rb.opts = false
  sz_lt : rb.sz < 2 ^ 63
  block : rb.base.size = rb.sz
  rd_lt : rb.rdOff < rb.sz
  ready_le : rb.ready ≤ rb.sz
  wr_eq : rb.wrOff = ringIdx rb.sz rb.rdOff rb.ready

namespace Wrapped

variable {rb : Rb}

/-- The room that is left. -/
theorem avail_eq (h : Wrapped rb) : rb.avail = rb.sz - rb.ready :=
  avail_of_le (Nat.lt_trans h.sz_lt (by decide)) h.ready_le

/-- The write offset is inside the block. -/
theorem wr_lt (h : Wrapped rb) : rb.wrOff < rb.sz := by
  rw [h.wr_eq]
  exact ringIdx_lt h.rd_lt h.ready_le

/-- Unless the buffer is full, it is wrapped exactly when the unread bytes cross the end. -/
theorem isWrapped_iff (h : Wrapped rb) (hroom : rb.ready < rb.sz) :
    rb.isWrapped = true ↔ rb.sz ≤ rb.rdOff + rb.ready := by
  have hrd := h.rd_lt
  unfold isWrapped
  rw [decide_eq_true_iff, h.wr_eq]
  unfold ringIdx
  split <;> omega

/-- The queue that the buffer stands for: its unread bytes, which are no more than its capacity. -/
def queue (h : Wrapped rb) : Fifo UInt8 rb.sz :=
  ⟨rb.window, by rw [window, length_ringSlice]; exact h.ready_le⟩

/-- The counters say what the queue says. -/
theorem holds (h : Wrapped rb) : Holds window rb h.queue where
  sz := rfl
  ready := (length_ringSlice ..).symm
  room := by
    have hle := h.ready_le
    rw [h.avail_eq]
    omega
  contents := rfl

end Wrapped

/-- `create_malloc` establishes the invariant. -/
theorem wrapped_of_createMalloc {sz opts : Nat} {rb : Rb} (hopts : contiguous opts = false)
    (h : createMalloc sz opts = some rb) : Wrapped rb ∧ rb.sz = sz := by
  unfold createMalloc at h
  split at h
  · cases h
  · next hpos =>
    simp only [hopts, Bool.false_eq_true, if_false, zalloc, Option.bind_eq_bind] at h
    split at h
    · next hle =>
      cases h
      have hlt : sz < 2 ^ 63 := Nat.lt_of_le_of_lt hle (by decide)
      refine ⟨⟨hopts, hlt, rfl, Nat.pos_of_ne_zero hpos, Nat.zero_le sz, ?_⟩, rfl⟩
      exact (if_pos (Nat.pos_of_ne_zero hpos)).symm
    · cases h

/-! ## 2. Writing -/

section Write

variable {rb : Rb} {b : List UInt8} {t : Nat}

/-- **The copies of a write.**  They stay inside the block and put the new bytes behind the
unread ones. -/
theorem copyInWrapped_spec (h : Wrapped rb) (hpos : 0 < t) (hroom : rb.ready + t ≤ rb.sz)
    (hb : t ≤ b.length) :
    ∃ m, copyInWrapped rb b t = some { rb.base with byte := m } ∧
      ringSlice m rb.sz rb.rdOff (rb.ready + t) = rb.window ++ b.take t := by
  have hrd := h.rd_lt
  have hwr := h.wr_lt
  have hsz := h.sz_lt
  have hblock := h.block
  have hwrap := h.isWrapped_iff (by omega)
  have hwreq := h.wr_eq
  have hlen : (b.take t).length = t := List.length_take_of_le hb
  have hrspace : SizeT.sub rb.sz rb.wrOff = rb.sz - rb.wrOff :=
    SizeT.sub_of_le (by omega) (Nat.le_of_lt hwr)
  by_cases hone : (rb.isWrapped || decide (t ≤ rb.sz - rb.wrOff)) = true
  · -- behind the new bytes lies the end of the block or the first unread byte
    simp only [copyInWrapped, hrspace, if_pos hone]
    have hfit : rb.wrOff + t ≤ rb.sz := by
      rw [Bool.or_eq_true, hwrap, decide_eq_true_iff] at hone
      unfold ringIdx at hwreq
      split at hwreq <;> omega
    refine ⟨_, Block.store_of_le (by omega), ?_⟩
    have happ := ringSlice_overlay rb.base.byte hrd (hlen.symm ▸ hroom : rb.ready + _ ≤ rb.sz)
      (hwreq ▸ hlen.symm ▸ hfit)
    rwa [← hwreq, hlen] at happ
  · -- the unread bytes lie between the two pieces
    obtain ⟨hcross, hlt⟩ : ¬ rb.sz ≤ rb.rdOff + rb.ready ∧ rb.sz - rb.wrOff < t := by
      rw [Bool.or_eq_true, hwrap, decide_eq_true_iff] at hone
      omega
    have hrem : SizeT.sub t (rb.sz - rb.wrOff) = t - (rb.sz - rb.wrOff) :=
      SizeT.sub_of_le (by omega) (by omega)
    have hlen₁ : (b.take (rb.sz - rb.wrOff)).length = rb.sz - rb.wrOff :=
      List.length_take_of_le (by omega)
    have hlen₂ : ((b.drop (rb.sz - rb.wrOff)).take (t - (rb.sz - rb.wrOff))).length
        = t - (rb.sz - rb.wrOff) :=
      List.length_take_of_le (by rw [List.length_drop]; omega)
    have htake : b.take (rb.sz - rb.wrOff) ++ (b.drop (rb.sz - rb.wrOff)).take
        (t - (rb.sz - rb.wrOff)) = b.take t := by
      rw [← List.take_add, Nat.add_sub_of_le (Nat.le_of_lt hlt)]
    simp only [copyInWrapped, hrspace, if_neg hone, hrem, Block.store_of_le
      (show rb.wrOff + (b.take (rb.sz - rb.wrOff)).length ≤ rb.base.size by omega),
      Option.bind_eq_bind, Option.bind_some]
    refine ⟨_, Block.store_of_le (show 0 + _ ≤ rb.base.size by rw [hlen₂]; omega), ?_⟩
    have happ := ringSlice_overlay_overlay rb.base.byte hrd
      (by rw [htake, hlen]; exact hroom) (by rw [← hwreq, hlen₁]; omega)
    rwa [← hwreq, htake, hlen] at happ

/-- **A write is a write of the queue**, in every state: a copy that would cross the end of the
block is split there. -/
theorem write_wrapped_spec {cap : Nat} (h : Wrapped rb) (hcap : rb.sz = cap) (b : List UInt8) :
    ∃ res rb', rb.exec (.write b) = some (res, rb') ∧ Wrapped rb' ∧
      FifoStep window cap rb (.write b) res rb' := by
  subst hcap
  have hready := h.ready_le
  have havail := h.avail_eq
  have hsz := h.sz_lt
  by_cases hbig : rb.sz < b.length
  · refine ⟨⟨-1, []⟩, rb, ?_, h, FifoStep.refused_write h.holds hbig⟩
    simp [exec, write, h.flavour, writeWrapped, hbig]
  · have hb := Nat.not_lt.mp hbig
    obtain ⟨t, ht⟩ : ∃ t, t = min rb.avail b.length := ⟨_, rfl⟩
    have hsigned : SizeT.toSigned t = (t : Int) := SizeT.toSigned_of_lt (by omega)
    have hadd : SizeT.add rb.ready t = rb.ready + t := SizeT.add_of_lt (by omega)
    by_cases hzero : t = 0
    · refine ⟨⟨t, []⟩, rb, ?_, h,
        FifoStep.of_write h.holds hb ht rfl (by omega) h.holds.room (by simp [hzero])⟩
      rw [hzero] at ht hsigned hadd
      simp [exec, write, h.flavour, writeWrapped, hbig, ← ht, hzero, hsigned, hadd]
    · obtain ⟨m, hcopy, hwindow⟩ := copyInWrapped_spec h (Nat.pos_of_ne_zero hzero)
        (show rb.ready + t ≤ rb.sz by omega) (show t ≤ b.length by omega)
      have hwr : SizeT.add rb.wrOff t % rb.sz = ringIdx rb.sz rb.rdOff (rb.ready + t) := by
        have hlt := h.wr_lt
        rw [SizeT.add_of_lt (by omega), ← ringIdx_eq_mod hlt (by omega), h.wr_eq,
          ringIdx_add h.rd_lt (by omega)]
      have h' : Wrapped { rb with
          base := { rb.base with byte := m }
          wrOff := ringIdx rb.sz rb.rdOff (rb.ready + t)
          ready := rb.ready + t } :=
        ⟨h.flavour, hsz, h.block, h.rd_lt, show rb.ready + t ≤ rb.sz by omega, rfl⟩
      refine ⟨⟨t, []⟩, _, ?_, h',
        FifoStep.of_write h.holds hb ht rfl rfl h'.holds.room hwindow⟩
      simp [exec, write, h.flavour, writeWrapped, hbig, ← ht, hzero, hcopy, hsigned,
        writeIncrWrapped, hwr, hadd]

end Write

/-! ## 3. Reading -/

section Read

variable {rb : Rb}

/-- The read stops at or before the end of the block; in a wrapped buffer, exactly there. -/
def ReadSafe (rb : Rb) : Fifo.Op UInt8 → Prop
  | .read n => rb.sz < n ∨ min rb.ready n = 0 ∨
      if rb.isWrapped then rb.rdOff + min rb.ready n = rb.sz
      else rb.rdOff + min rb.ready n ≤ rb.sz
  | _ => True

instance (rb : Rb) : ∀ op, Decidable (ReadSafe rb op)
  | .read n => by unfold ReadSafe; infer_instance
  | .write _ => isTrue trivial
  | .clear => isTrue trivial

/-- What `read_wrapped` does with `t` bytes to read: on the safe side the first `t` unread bytes
are copied out, elsewhere a copy leaves the block. -/
theorem readWrapped_spec (h : Wrapped rb) {n t : Nat} (hn : n ≤ rb.sz) (ht : t = min rb.ready n)
    (hpos : t ≠ 0) :
    (ReadSafe rb (.read n) → readWrapped rb n
      = some (⟨t, ringSlice rb.base.byte rb.sz rb.rdOff t⟩,
          { rb with rdOff := ringIdx rb.sz rb.rdOff t })) ∧
    (¬ ReadSafe rb (.read n) → readWrapped rb n = none) := by
  have hrd := h.rd_lt
  have hsz := h.sz_lt
  have hblock := h.block
  have hready := h.ready_le
  have hbig : ¬ rb.sz < n := Nat.not_lt.mpr hn
  have hsigned : SizeT.toSigned t = (t : Int) := SizeT.toSigned_of_lt (by omega)
  have hrspace : SizeT.sub rb.sz rb.rdOff = rb.sz - rb.rdOff :=
    SizeT.sub_of_le (by omega) (Nat.le_of_lt hrd)
  have hincr : readIncrWrapped rb t = { rb with rdOff := ringIdx rb.sz rb.rdOff t } := by
    rw [readIncrWrapped, SizeT.add_of_lt (by omega), ringIdx_eq_mod hrd (by omega)]
  have hsafe : ReadSafe rb (.read n) ↔
      if rb.isWrapped then rb.rdOff + t = rb.sz else rb.rdOff + t ≤ rb.sz := by
    simp only [ReadSafe, ← ht, hbig, hpos, false_or]
  have hone : (!rb.isWrapped || decide (rb.sz - rb.rdOff ≤ t)) = true →
      readWrapped rb n = (rb.base.load rb.rdOff t).bind fun data =>
        some (⟨t, data⟩, { rb with rdOff := ringIdx rb.sz rb.rdOff t }) := by
    intro hcond
    simp only [readWrapped, if_neg hbig, ← ht, if_neg hpos, hrspace, if_pos hcond, hsigned,
      hincr, Option.bind_eq_bind]
  rw [hsafe]
  by_cases hcond : (!rb.isWrapped || decide (rb.sz - rb.rdOff ≤ t)) = true
  · rw [hone hcond]
    constructor
    · intro hs
      have hfit : rb.rdOff + t ≤ rb.sz := by
        split at hs <;> omega
      rw [Block.load_of_le (by omega), ringSlice_eq_slice _ hfit]
      rfl
    · intro hs
      have hcross : rb.sz < rb.rdOff + t := by
        rw [Bool.or_eq_true, Bool.not_eq_true', decide_eq_true_iff] at hcond
        split at hs
        · next hw => rw [hw] at hcond; simp only [Bool.true_eq_false, false_or] at hcond; omega
        · omega
      rw [Block.load_of_lt (by omega)]
      rfl
  · -- the remainder is negative: as a `size_t` it is larger than any block
    obtain ⟨hw, hlt⟩ : rb.isWrapped = true ∧ t < rb.sz - rb.rdOff := by
      simpa only [Bool.or_eq_true, Bool.not_eq_true', decide_eq_true_iff, not_or,
        Bool.not_eq_false, Nat.not_le] using hcond
    have hrem : SizeT.sub t (rb.sz - rb.rdOff) = 2 ^ 64 - (rb.sz - rb.rdOff - t) :=
      SizeT.sub_of_lt (by omega) hlt
    have hnone : readWrapped rb n = none := by
      simp only [readWrapped, if_neg hbig, ← ht, if_neg hpos, hrspace, if_neg hcond, hrem]
      rw [Block.load_of_le (by omega), Block.load_of_lt (by omega)]
      rfl
    rw [if_pos hw]
    exact ⟨fun hs => absurd hs (by omega), fun _ => hnone⟩

/-- **A read is a read of the queue** exactly on the safe side; off it, a byte behind the block is
read. -/
theorem read_wrapped_spec {cap : Nat} (h : Wrapped rb) (hcap : rb.sz = cap) (n : Nat) :
    (ReadSafe rb (.read n) → ∃ res rb', rb.exec (.read n) = some (res, rb') ∧ Wrapped rb' ∧
      FifoStep window cap rb (.read n) res rb') ∧
    (¬ ReadSafe rb (.read n) → rb.exec (.read n) = none) := by
  subst hcap
  have hready := h.ready_le
  have hsz := h.sz_lt
  have hrd := h.rd_lt
  by_cases hbig : rb.sz < n
  · refine ⟨fun _ => ⟨⟨-1, []⟩, rb, ?_, h, FifoStep.refused_read h.holds hbig⟩,
      fun hs => absurd (Or.inl hbig) hs⟩
    simp [exec, read, h.flavour, readWrapped, hbig]
  · have hn := Nat.not_lt.mp hbig
    obtain ⟨t, ht⟩ : ∃ t, t = min rb.ready n := ⟨_, rfl⟩
    have hsub : SizeT.sub rb.ready t = rb.ready - t := SizeT.sub_of_le (by omega) (by omega)
    have htake : (window rb).take t = ringSlice rb.base.byte rb.sz rb.rdOff t :=
      take_ringSlice _ hrd hready (by omega)
    by_cases hzero : t = 0
    · refine ⟨fun _ => ⟨⟨t, (window rb).take t⟩, rb, ?_, h, FifoStep.of_read h.holds hn ht rfl
        (by omega) h.holds.room (by simp [hzero])⟩,
        fun hs => absurd (Or.inr (Or.inl (ht.symm.trans hzero))) hs⟩
      rw [hzero] at ht hsub
      simp [exec, read, h.flavour, readWrapped, hbig, ← ht, hzero, hsub, SizeT.toSigned]
    · obtain ⟨hsome, hnone⟩ := readWrapped_spec h hn ht hzero
      constructor
      · intro hs
        have h' : Wrapped { rb with
            rdOff := ringIdx rb.sz rb.rdOff t
            ready := rb.ready - t } := by
          refine ⟨h.flavour, hsz, h.block, ringIdx_lt hrd (by omega), ?_, ?_⟩
          · show rb.ready - t ≤ rb.sz
            omega
          · show rb.wrOff = ringIdx rb.sz (ringIdx rb.sz rb.rdOff t) (rb.ready - t)
            rw [h.wr_eq, ringIdx_add hrd (by omega), Nat.add_sub_of_le (by omega)]
        refine ⟨⟨t, (window rb).take t⟩, _, ?_, h', FifoStep.of_read h.holds hn ht rfl rfl
          h'.holds.room (drop_ringSlice _ hrd hready (by omega)).symm⟩
        rw [htake]
        simp [exec, read, h.flavour, hsome hs, hsub]
      · intro hs
        simp [exec, read, h.flavour, hnone hs]

end Read

/-! ## 4. Runs -/

section Run

/-- **One step of a wrapped buffer**: on the safe side it is a step of the queue and keeps the
invariant, and off it there is none. -/
theorem exec_wrapped_spec {rb : Rb} {cap : Nat} (h : Wrapped rb) (hcap : rb.sz = cap)
    (op : Fifo.Op UInt8) :
    (ReadSafe rb op → ∃ res rb', rb.exec op = some (res, rb') ∧ Wrapped rb' ∧
      FifoStep window cap rb op res rb') ∧
    (¬ ReadSafe rb op → rb.exec op = none) := by
  cases op with
  | write b => exact ⟨fun _ => write_wrapped_spec h hcap b, fun hs => absurd trivial hs⟩
  | read n => exact read_wrapped_spec h hcap n
  | clear =>
    refine ⟨fun _ => ?_, fun hs => absurd trivial hs⟩
    subst hcap
    have hrd := h.rd_lt
    have h' : Wrapped rb.clear :=
      ⟨h.flavour, h.sz_lt, h.block, by simpa [clear] using Nat.zero_lt_of_lt hrd,
        Nat.zero_le _, (if_pos (Nat.zero_lt_of_lt hrd)).symm⟩
    exact ⟨⟨0, []⟩, rb.clear, rfl, h', FifoStep.of_clear h.holds rfl rfl h'.holds.room rfl⟩

/-- The step of a wrapped buffer that the queue promises: defined (so every copy stays inside
the block, which has the size of the buffer) and a step of the queue. -/
def WrappedStep (cap : Nat) (rb : Rb) (op : Fifo.Op UInt8) (res : Fifo.Res UInt8) (rb' : Rb) :
    Prop := rb.base.size = cap ∧ FifoStep window cap rb op res rb'

/-- **When the wrapped flavour is a bounded queue.**  For every buffer that `create_malloc`
returns and every sequence of calls: every call is a step of the queue if and only if every read
stops where `ReadSafe` says. -/
theorem wrapped_fifo_iff {sz opts : Nat} {rb : Rb} (hopts : contiguous opts = false)
    (hnew : createMalloc sz opts = some rb) (ops : List (Fifo.Op UInt8)) :
    Always exec (WrappedStep sz) rb ops ↔ Guarded exec ReadSafe rb ops := by
  obtain ⟨hw, hcap⟩ := wrapped_of_createMalloc hopts hnew
  refine always_iff_guarded (fun _ _ => True) (fun rb => Wrapped rb ∧ rb.sz = sz) ?_ ?_
    ⟨hw, hcap⟩ (guarded_of_forall (fun _ _ => trivial) ops rb)
  · rintro rb op ⟨h, hcap⟩ -
    obtain ⟨hsafe, hover⟩ := exec_wrapped_spec h hcap op
    constructor
    · rintro ⟨res, rb', hst, -⟩
      by_contra hs
      rw [hover hs] at hst
      cases hst
    · intro hs
      obtain ⟨res, rb', hst, -, hfifo⟩ := hsafe hs
      exact ⟨res, rb', hst, h.block.trans hcap, hfifo⟩
  · rintro rb op res rb' ⟨h, hcap⟩ - hst ⟨-, hfifo⟩
    obtain ⟨hsafe, hover⟩ := exec_wrapped_spec h hcap op
    by_cases hs : ReadSafe rb op
    · obtain ⟨res₂, rb₂, hst₂, h', -⟩ := hsafe hs
      obtain ⟨rfl, rfl⟩ : res₂ = res ∧ rb₂ = rb' := by simpa [hst₂] using hst
      obtain ⟨q, -, -, hq', -⟩ := hfifo
      exact ⟨h', hq'.sz⟩
    · rw [hover hs] at hst
      cases hst

/-- A fresh wrapped buffer of four bytes. -/
def fourBytes : Rb := ⟨⟨4, fun _ => 0⟩, 4, 0, 0, 0, optImplMalloc⟩

/-- A run whose reads are on the safe side; the last one stops exactly at the end of the block
while the buffer is wrapped. -/
theorem wrapped_fifo_iff_safe :
    Always exec (WrappedStep 4) fourBytes
      [.write [1, 2, 3], .read 2, .write [4, 5], .read 9, .read 2, .clear, .read 1] :=
  (wrapped_fifo_iff (show contiguous optImplMalloc = false from rfl)
    (show createMalloc 4 optImplMalloc = some fourBytes from rfl) _).mpr (by decide)

/-- Three bytes in and out, two more written around the end of the block: reading them back
copies the byte past the end. -/
theorem wrapped_read_overruns :
    createMalloc 4 optImplMalloc = some fourBytes ∧
      run exec fourBytes [.write [1, 2, 3], .read 3, .write [4, 5], .read 2] = none ∧
      ¬ Always exec (WrappedStep 4) fourBytes
        [.write [1, 2, 3], .read 3, .write [4, 5], .read 2] := by
  have hrun : run exec fourBytes [.write [1, 2, 3], .read 3, .write [4, 5], .read 2] = none := rfl
  refine ⟨rfl, hrun, fun h => ?_⟩
  obtain ⟨rs, rb, hsome⟩ := h.exists_run
  rw [hrun] at hsome
  cases hsome

end Run

end Libu.Rb
