/-
# The contiguous flavour is a bounded queue, below half the address space

The block has twice the size of the buffer and holds every byte twice (`Mirrored`), so the unread
bytes are one plain slice from the read offset on.  The invariant `Contig` ties the counters
together without any fold: the write offset IS the read offset plus the number of unread bytes.
A write stores its bytes behind them and `mirror` stores them again, on whichever side of the
middle they are missing; a read that takes the read offset past the middle moves both offsets
back by one buffer length.

The one thing that can go wrong happens at creation: `real_sz <<= 1` wraps for a size of
`2 ^ 63` or more, the block is then far too small, and the first large write leaves it.
-/
import Libu.Rb.Basic

namespace Libu.Rb

open Verif

/-! ## 1. The invariant -/

/-- The unread bytes of a contiguous buffer, in one piece from the read offset on. -/
def pending (rb : Rb) : List UInt8 := slice rb.base.byte rb.rdOff rb.ready

/-- What every call on a contiguous buffer finds: a block of twice the size of the buffer, in which
each unread byte is there twice, and a write offset that is the read offset with the unread bytes
added. -/
structure Contig (rb : Rb) : Prop where
  flavour : contiguous rb.opts = true
  malloc : rb.opts &&& optImplMalloc ≠ 0
  sz_lt : rb.sz < 2 ^ 62
  block : rb.base.size = 2 * rb.sz
  rd_lt : rb.rdOff < rb.sz
  ready_le : rb.ready ≤ rb.sz
  wr_eq : rb.wrOff = rb.rdOff + rb.ready
  twin : Mirrored rb.base.byte rb.sz

namespace Contig

variable {rb : Rb}

/-- The room that is left. -/
theorem avail_eq (h : Contig rb) : rb.avail = rb.sz - rb.ready :=
  avail_of_le (Nat.lt_trans h.sz_lt (by decide)) h.ready_le

/-- The queue that the buffer stands for: its unread bytes, which are no more than its capacity. -/
def queue (h : Contig rb) : Fifo UInt8 rb.sz :=
  ⟨rb.pending, by rw [pending, length_slice]; exact h.ready_le⟩

/-- The counters say what the queue says. -/
theorem holds (h : Contig rb) : Holds pending rb h.queue where
  sz := rfl
  ready := (length_slice ..).symm
  room := by
    have hle := h.ready_le
    rw [h.avail_eq]
    omega
  contents := rfl

end Contig

/-- `create_malloc` establishes the invariant, when doubling the size does not wrap. -/
theorem contig_of_createMalloc {sz opts : Nat} {rb : Rb} (hopts : contiguous opts = true)
    (hmalloc : opts &&& optImplMalloc ≠ 0) (hsz : sz < 2 ^ 63)
    (h : createMalloc sz opts = some rb) : Contig rb ∧ rb.sz = sz := by
  unfold createMalloc at h
  split at h
  · cases h
  · next hpos =>
    simp only [zalloc, SizeT.shl1_of_lt hsz, Option.bind_eq_bind] at h
    split at h
    · next hle =>
      cases h
      have hlt : 2 * sz < 2 ^ 63 := Nat.lt_of_le_of_lt hle (by decide)
      refine ⟨⟨hopts, hmalloc, ?_, rfl, Nat.pos_of_ne_zero hpos, Nat.zero_le sz, rfl, ?_⟩, rfl⟩
      · show sz < 2 ^ 62
        omega
      · intro i _
        rfl
    · cases h

/-! ## 2. Writing -/

section Write

variable {rb : Rb} {b : List UInt8} {t : Nat}

/-- **The copies of a write.**  Both stay inside the doubled block; afterwards every byte is again
there twice, and the new bytes are behind the unread ones. -/
theorem mirror_spec (h : Contig rb) (hroom : rb.ready + t ≤ rb.sz)
    (hb : t ≤ b.length) :
    ∃ m, mirror { rb with
        base := { rb.base with byte := overlay rb.base.byte rb.wrOff (b.take t) } } b t
          = some { rb.base with byte := m } ∧
      Mirrored m rb.sz ∧ slice m rb.rdOff (rb.ready + t) = rb.pending ++ b.take t := by
  have hrd := h.rd_lt
  have hsz := h.sz_lt
  have hblock := h.block
  have hwr := h.wr_eq
  have htwin := h.twin
  have hlen : (b.take t).length = t := List.length_take_of_le hb
  have hadd : SizeT.add rb.wrOff t = rb.wrOff + t := SizeT.add_of_lt (by omega)
  -- the first store alone puts the new bytes behind the unread ones
  have hfirst : slice (overlay rb.base.byte rb.wrOff (b.take t)) rb.rdOff (rb.ready + t)
      = rb.pending ++ b.take t := by
    have hself := slice_overlay_self rb.base.byte rb.wrOff (b.take t)
    rw [hlen] at hself
    have hout : rb.rdOff + rb.ready ≤ rb.wrOff ∨ rb.wrOff + (b.take t).length ≤ rb.rdOff := by
      omega
    rw [slice_add, ← hwr, hself, slice_overlay_of_disjoint _ hout]
    rfl
  by_cases hleft : rb.wrOff + t ≤ rb.sz
  · have hfit : rb.wrOff + (b.take t).length ≤ rb.sz := by omega
    have hout : rb.rdOff + (rb.ready + t) ≤ rb.wrOff + rb.sz ∨
        rb.wrOff + rb.sz + (b.take t).length ≤ rb.rdOff := by omega
    refine ⟨_, ?_, htwin.overlay_left hfit, ?_⟩
    · simp only [mirror, hadd, if_pos hleft]
      exact Block.store_of_le (show rb.wrOff + rb.sz + (b.take t).length ≤ rb.base.size by omega)
    · rw [slice_overlay_of_disjoint _ hout, hfirst]
  · by_cases hright : rb.sz ≤ rb.wrOff
    · have hfit : rb.wrOff + (b.take t).length ≤ 2 * rb.sz := by omega
      have hout : rb.rdOff + (rb.ready + t) ≤ rb.wrOff - rb.sz ∨
          rb.wrOff - rb.sz + (b.take t).length ≤ rb.rdOff := by omega
      refine ⟨_, ?_, htwin.overlay_right hright hfit, ?_⟩
      · simp only [mirror, hadd, if_neg hleft, if_pos hright]
        exact Block.store_of_le (show rb.wrOff - rb.sz + (b.take t).length ≤ rb.base.size by omega)
      · rw [slice_overlay_of_disjoint _ hout, hfirst]
    · have hleftSz : SizeT.sub rb.sz rb.wrOff = rb.sz - rb.wrOff :=
        SizeT.sub_of_le (by omega) (by omega)
      have hrightSz : SizeT.sub t (rb.sz - rb.wrOff) = t - (rb.sz - rb.wrOff) :=
        SizeT.sub_of_le (by omega) (by omega)
      have hlen₁ : (b.take (rb.sz - rb.wrOff)).length = rb.sz - rb.wrOff :=
        List.length_take_of_le (by omega)
      have hlen₂ : ((b.drop (rb.sz - rb.wrOff)).take (t - (rb.sz - rb.wrOff))).length
          = t - (rb.sz - rb.wrOff) :=
        List.length_take_of_le (by rw [List.length_drop]; omega)
      have htake : b.take t = b.take (rb.sz - rb.wrOff) ++
          (b.drop (rb.sz - rb.wrOff)).take (t - (rb.sz - rb.wrOff)) := by
        rw [← List.take_add, Nat.add_sub_of_le (by omega)]
      have hmid : rb.wrOff + (b.take (rb.sz - rb.wrOff)).length = rb.sz := by omega
      have hfit : ((b.drop (rb.sz - rb.wrOff)).take (t - (rb.sz - rb.wrOff))).length
          ≤ rb.wrOff := by omega
      have hcross := htwin.overlay_cross hmid hfit
      rw [← htake] at hcross
      have hout₁ : rb.rdOff + (rb.ready + t) ≤ 0 ∨ 0 + ((b.drop (rb.sz - rb.wrOff)).take
          (t - (rb.sz - rb.wrOff))).length ≤ rb.rdOff := by omega
      have hout₂ : rb.rdOff + (rb.ready + t) ≤ rb.wrOff + rb.sz ∨
          rb.wrOff + rb.sz + (b.take (rb.sz - rb.wrOff)).length ≤ rb.rdOff := by omega
      refine ⟨_, ?_, hcross, ?_⟩
      · simp only [mirror, hadd, if_neg hleft, if_neg hright, hleftSz, hrightSz]
        have hstore : ({ rb.base with
            byte := overlay rb.base.byte rb.wrOff (b.take t) } : Block UInt8).store
              (rb.wrOff + rb.sz) (b.take (rb.sz - rb.wrOff)) = some _ :=
          Block.store_of_le (show rb.wrOff + rb.sz + (b.take (rb.sz - rb.wrOff)).length
            ≤ rb.base.size by omega)
        rw [hstore]
        exact Block.store_of_le (show 0 + ((b.drop (rb.sz - rb.wrOff)).take
          (t - (rb.sz - rb.wrOff))).length ≤ rb.base.size by omega)
      · rw [slice_overlay_of_disjoint _ hout₁, slice_overlay_of_disjoint _ hout₂, hfirst]

/-- **A write is a write of the queue.**  Its bytes are stored behind the unread ones, and once more
in the half of the block where they are missing. -/
theorem write_contig_spec {cap : Nat} (h : Contig rb) (hcap : rb.sz = cap) (b : List UInt8) :
    ∃ res rb', rb.exec (.write b) = some (res, rb') ∧ Contig rb' ∧
      FifoStep pending cap rb (.write b) res rb' := by
  subst hcap
  have hready := h.ready_le
  have havail := h.avail_eq
  have hsz := h.sz_lt
  have hrd := h.rd_lt
  have hwr := h.wr_eq
  have hblock := h.block
  by_cases hbig : rb.sz < b.length
  · refine ⟨⟨-1, []⟩, rb, ?_, h, FifoStep.refused_write h.holds hbig⟩
    simp [exec, write, h.flavour, writeContiguous, hbig]
  · have hb := Nat.not_lt.mp hbig
    obtain ⟨t, ht⟩ : ∃ t, t = min rb.avail b.length := ⟨_, rfl⟩
    have hsigned : SizeT.toSigned t = (t : Int) := SizeT.toSigned_of_lt (by omega)
    have hadd : SizeT.add rb.ready t = rb.ready + t := SizeT.add_of_lt (by omega)
    by_cases hzero : t = 0
    · refine ⟨⟨t, []⟩, rb, ?_, h,
        FifoStep.of_write h.holds hb ht rfl (by omega) h.holds.room (by simp [hzero])⟩
      rw [hzero] at ht hsigned hadd
      simp [exec, write, h.flavour, writeContiguous, hbig, ← ht, hzero, hsigned, hadd]
    · obtain ⟨m, hmirror, htwin, hpending⟩ := mirror_spec h
        (show rb.ready + t ≤ rb.sz by omega) (show t ≤ b.length by omega)
      have hlen : (b.take t).length = t := List.length_take_of_le (by omega)
      have hstore : rb.base.store rb.wrOff (b.take t) = some
          { rb.base with byte := overlay rb.base.byte rb.wrOff (b.take t) } :=
        Block.store_of_le (by omega)
      have hincr : SizeT.add rb.wrOff t = rb.wrOff + t := SizeT.add_of_lt (by omega)
      have h' : Contig { rb with
          base := { rb.base with byte := m }
          wrOff := rb.wrOff + t
          ready := rb.ready + t } := by
        refine ⟨h.flavour, h.malloc, hsz, hblock, hrd, ?_, ?_, htwin⟩
        · show rb.ready + t ≤ rb.sz
          omega
        · show rb.wrOff + t = rb.rdOff + (rb.ready + t)
          omega
      refine ⟨⟨t, []⟩, _, ?_, h',
        FifoStep.of_write h.holds hb ht rfl rfl h'.holds.room hpending⟩
      have hmalloc : ¬ rb.opts &&& optImplMalloc = 0 := h.malloc
      simp [exec, write, h.flavour, writeContiguous, hbig, ← ht, hzero, hstore, hmalloc, hmirror,
        hsigned, writeIncrContiguous, hincr, hadd]

end Write

/-! ## 3. Reading -/

section Read

variable {rb : Rb}

/-- **Advancing the read offset.**  Past the middle both offsets are moved back by one buffer
length, and the bytes there are the same. -/
theorem readIncr_spec (h : Contig rb) {t : Nat} (ht : t ≤ rb.ready) :
    ∃ rd wr, readIncrContiguous rb t = { rb with rdOff := rd, wrOff := wr } ∧
      Contig { rb with rdOff := rd, wrOff := wr, ready := rb.ready - t } ∧
      slice rb.base.byte rd (rb.ready - t) = rb.pending.drop t := by
  have hrd := h.rd_lt
  have hsz := h.sz_lt
  have hready := h.ready_le
  have hwr := h.wr_eq
  have hadd : SizeT.add rb.rdOff t = rb.rdOff + t := SizeT.add_of_lt (by omega)
  have hdrop : rb.pending.drop t = slice rb.base.byte (rb.rdOff + t) (rb.ready - t) :=
    drop_slice _ _ ht
  by_cases hpast : rb.sz ≤ rb.rdOff + t
  · have hsub₁ : SizeT.sub (rb.rdOff + t) rb.sz = rb.rdOff + t - rb.sz :=
      SizeT.sub_of_le (by omega) hpast
    have hsub₂ : SizeT.sub rb.wrOff rb.sz = rb.wrOff - rb.sz :=
      SizeT.sub_of_le (by omega) (by omega)
    refine ⟨rb.rdOff + t - rb.sz, rb.wrOff - rb.sz, ?_, ⟨h.flavour, h.malloc, hsz, h.block, ?_, ?_,
      ?_, h.twin⟩, ?_⟩
    · simp only [readIncrContiguous, hadd, if_pos hpast, hsub₁, hsub₂]
    · show rb.rdOff + t - rb.sz < rb.sz
      omega
    · show rb.ready - t ≤ rb.sz
      omega
    · show rb.wrOff - rb.sz = rb.rdOff + t - rb.sz + (rb.ready - t)
      omega
    · rw [hdrop, h.twin.slice_sub hpast (by omega)]
  · refine ⟨rb.rdOff + t, rb.wrOff, ?_, ⟨h.flavour, h.malloc, hsz, h.block, ?_, ?_, ?_, h.twin⟩,
      hdrop.symm⟩
    · simp only [readIncrContiguous, hadd, if_neg hpast]
    · show rb.rdOff + t < rb.sz
      omega
    · show rb.ready - t ≤ rb.sz
      omega
    · show rb.wrOff = rb.rdOff + t + (rb.ready - t)
      omega

/-- What the caller finds behind the pointer of `u_rb_fast_read` is what `u_rb_read` of the same
length copies out; no pointer is returned where nothing would be copied. -/
structure Delivers (rb' : Rb) (n : Nat) (w : Window) (res : Fifo.Res UInt8) : Prop where
  null : w.data = none ↔ res.data = []
  bytes : ∀ off, w.data = some off → rb'.base.load off w.pbSz = some res.data
  refused : res.rc = -1 → w = ⟨none, n⟩
  size : res.rc ≠ -1 → (w.pbSz : Int) = res.rc

/-- **A read is a read of the queue**, and the no-copy read is the same read. -/
theorem read_contig_spec {cap : Nat} (h : Contig rb) (hcap : rb.sz = cap) (n : Nat) :
    ∃ res rb', rb.read n = some (res, rb') ∧ Contig rb' ∧
      FifoStep pending cap rb (.read n) res rb' ∧
      (rb.fastRead n).2 = rb' ∧ Delivers rb' n (rb.fastRead n).1 res := by
  subst hcap
  have hready := h.ready_le
  have hsz := h.sz_lt
  have hrd := h.rd_lt
  have hblock := h.block
  by_cases hbig : rb.sz < n
  · have hfast : rb.fastRead n = (⟨none, n⟩, rb) := by
      simp [fastRead, h.flavour, hbig]
    refine ⟨⟨-1, []⟩, rb, ?_, h, FifoStep.refused_read h.holds hbig, ?_, ?_⟩
    · simp [read, h.flavour, readContiguous, hbig]
    · rw [hfast]
    · rw [hfast]
      exact ⟨by simp, by simp, fun _ => rfl, fun hrc => absurd rfl hrc⟩
  · have hn := Nat.not_lt.mp hbig
    obtain ⟨t, ht⟩ : ∃ t, t = min rb.ready n := ⟨_, rfl⟩
    have hsub : SizeT.sub rb.ready t = rb.ready - t := SizeT.sub_of_le (by omega) (by omega)
    have hsigned : SizeT.toSigned t = (t : Int) := SizeT.toSigned_of_lt (by omega)
    by_cases hzero : t = 0
    · have hfast : rb.fastRead n = (⟨none, 0⟩, rb) := by
        rw [hzero] at ht
        simp [fastRead, h.flavour, hbig, ← ht]
      refine ⟨⟨t, rb.pending.take t⟩, rb, ?_, h, FifoStep.of_read h.holds hn ht rfl
        (by omega) h.holds.room (by simp [hzero]), ?_, ?_⟩
      · rw [hzero] at ht hsub hsigned
        simp [read, h.flavour, readContiguous, hbig, ← ht, hzero, hsub, hsigned]
      · rw [hfast]
      · rw [hfast, hzero]
        exact ⟨by simp, by simp, fun hrc => by simp at hrc, fun _ => by simp⟩
    · obtain ⟨rd, wr, hincr, h', hdrop⟩ := readIncr_spec h (show t ≤ rb.ready by omega)
      have htake : rb.pending.take t = slice rb.base.byte rb.rdOff t :=
        take_slice _ _ (by omega)
      have hload : rb.base.load rb.rdOff t = some (slice rb.base.byte rb.rdOff t) :=
        Block.load_of_le (by omega)
      have hfast : rb.fastRead n
          = (⟨some rb.rdOff, t⟩, { rb with rdOff := rd, wrOff := wr, ready := rb.ready - t }) := by
        simp [fastRead, h.flavour, hbig, ← ht, hzero, hincr, hsub]
      refine ⟨⟨t, rb.pending.take t⟩, _, ?_, h', FifoStep.of_read h.holds hn ht rfl rfl
        h'.holds.room hdrop, ?_, ?_⟩
      · rw [htake]
        simp [read, h.flavour, readContiguous, hbig, ← ht, hzero, hload, hsigned, hincr, hsub]
      · rw [hfast]
      · rw [hfast, htake]
        refine ⟨?_, ?_, ?_, fun _ => rfl⟩
        · have hne : slice rb.base.byte rb.rdOff t ≠ [] := by
            intro hnil
            have hlen := congrArg List.length hnil
            rw [length_slice] at hlen
            exact hzero hlen
          simp [hne]
        · intro off hoff
          obtain rfl : rb.rdOff = off := by simpa using hoff
          exact hload
        · intro hrc
          have hneg : (t : Int) = -1 := hrc
          omega

end Read

/-! ## 4. Runs -/

section Run

/-- A call of the queue's interface, or of `u_rb_fast_read`, which only the contiguous flavour
answers. -/
inductive FastOp where
  | call (op : Fifo.Op UInt8)
  | fastRead (n : Nat)

/-- One call.  Without the contiguous callbacks `u_rb_fast_read` calls through NULL. -/
def FastOp.exec (rb : Rb) : FastOp → Option ((Fifo.Res UInt8 ⊕ Window) × Rb)
  | .call op => (rb.exec op).map fun (res, rb) => (.inl res, rb)
  | .fastRead n =>
    if contiguous rb.opts then
      let (w, rb) := rb.fastRead n
      some (.inr w, rb)
    else none

/-- The layout of a contiguous buffer: the unread bytes, as `pending` finds them from the read
offset on, end at the write offset and inside the doubled block. -/
structure Layout (cap : Nat) (rb : Rb) : Prop where
  block : rb.base.size = 2 * cap
  rd_lt : rb.rdOff < cap
  wr_eq : rb.wrOff = rb.rdOff + rb.pending.length
  wr_le : rb.wrOff ≤ 2 * cap

/-- The step that the queue promises: the buffer is laid out as said before and after, a call is
a step of the queue, and a no-copy read is `u_rb_read` of the same length. -/
def ContigStep (cap : Nat) (rb : Rb) (op : FastOp) (res : Fifo.Res UInt8 ⊕ Window) (rb' : Rb) :
    Prop :=
  Layout cap rb ∧ Layout cap rb' ∧
    match op, res with
    | .call op, .inl res => FifoStep pending cap rb op res rb'
    | .fastRead n, .inr w => ∃ res, rb.read n = some (res, rb') ∧
        FifoStep pending cap rb (.read n) res rb' ∧ Delivers rb' n w res
    | _, _ => False

theorem Contig.layout {rb : Rb} {cap : Nat} (h : Contig rb) (hcap : rb.sz = cap) :
    Layout cap rb := by
  subst hcap
  have hrd := h.rd_lt
  have hready := h.ready_le
  have hwr := h.wr_eq
  refine ⟨h.block, hrd, ?_, by omega⟩
  rw [pending, length_slice, hwr]

/-- **One step of a contiguous buffer** is a step of the queue, in every state, and keeps the
invariant. -/
theorem exec_contig_spec {rb : Rb} {cap : Nat} (h : Contig rb) (hcap : rb.sz = cap)
    (op : FastOp) :
    ∃ res rb', FastOp.exec rb op = some (res, rb') ∧ ContigStep cap rb op res rb' ∧
      Contig rb' ∧ rb'.sz = cap := by
  have hlay := h.layout hcap
  match op with
  | .call (.write b) =>
    obtain ⟨res, rb', hst, h', hfifo⟩ := write_contig_spec h hcap b
    obtain ⟨q, -, -, hq', -⟩ := id hfifo
    exact ⟨.inl res, rb', by simp [FastOp.exec, hst], ⟨hlay, h'.layout hq'.sz, hfifo⟩, h', hq'.sz⟩
  | .call (.read n) =>
    obtain ⟨res, rb', hst, h', hfifo, -⟩ := read_contig_spec h hcap n
    obtain ⟨q, -, -, hq', -⟩ := id hfifo
    have hst' : rb.exec (.read n) = some (res, rb') := hst
    exact ⟨.inl res, rb', by simp [FastOp.exec, hst'], ⟨hlay, h'.layout hq'.sz, hfifo⟩, h', hq'.sz⟩
  | .call .clear =>
    subst hcap
    have hpos : 0 < rb.sz := Nat.zero_lt_of_lt h.rd_lt
    have h' : Contig rb.clear :=
      ⟨h.flavour, h.malloc, h.sz_lt, h.block, hpos, Nat.zero_le _, rfl, h.twin⟩
    exact ⟨.inl ⟨0, []⟩, rb.clear, rfl, ⟨hlay, h'.layout rfl,
      FifoStep.of_clear h.holds rfl rfl h'.holds.room rfl⟩, h', rfl⟩
  | .fastRead n =>
    obtain ⟨res, rb', hread, h', hfifo, hnext, hdel⟩ := read_contig_spec h hcap n
    obtain ⟨q, -, -, hq', -⟩ := id hfifo
    refine ⟨.inr (rb.fastRead n).1, rb', ?_, ⟨hlay, h'.layout hq'.sz, res, hread, hfifo, hdel⟩,
      h', hq'.sz⟩
    simp only [FastOp.exec, if_pos h.flavour, hnext]

/-- A block that is too small for its buffer is left by a write of one byte more than it has. -/
theorem write_overruns {rb : Rb} (hopts : contiguous rb.opts = true) (hrd : rb.ready = 0)
    (hwr : rb.wrOff = 0) (hsz : rb.sz < 2 ^ 64) (hsmall : rb.base.size < rb.sz) :
    FastOp.exec rb (.call (.write (List.replicate (rb.base.size + 1) 0))) = none := by
  have havail : rb.avail = rb.sz := by
    rw [avail_of_le hsz (by omega), hrd, Nat.sub_zero]
  have hlen : (List.replicate (rb.base.size + 1) (0 : UInt8)).length = rb.base.size + 1 :=
    List.length_replicate
  have hmin : min rb.avail (rb.base.size + 1) = rb.base.size + 1 := by omega
  have hstore : rb.base.store rb.wrOff (List.replicate (rb.base.size + 1) (0 : UInt8)) = none := by
    refine Block.store_of_lt ?_
    rw [hlen]
    omega
  have hbig : ¬ rb.sz < rb.base.size + 1 := by omega
  simp [FastOp.exec, exec, write, hopts, writeContiguous, hlen, hbig, hmin, hstore]

/-- **When the contiguous flavour is a bounded queue.**  Of all the sizes for which
`create_malloc` returns a buffer, exactly those below `2 ^ 63` give one whose every run is a run
of the queue. -/
theorem contig_fifo_iff {sz opts : Nat} {rb : Rb} (hopts : contiguous opts = true)
    (hmalloc : opts &&& optImplMalloc ≠ 0) (hsz : sz < 2 ^ 64)
    (hnew : createMalloc sz opts = some rb) :
    (∀ ops : List FastOp, Always FastOp.exec (ContigStep sz) rb ops) ↔ sz < 2 ^ 63 := by
  constructor
  · intro h
    by_contra hge
    have hsmall : rb = ⟨⟨SizeT.shl1 sz, fun _ => 0⟩, sz, 0, 0, 0, opts⟩ := by
      unfold createMalloc at hnew
      split at hnew
      · cases hnew
      · simp only [zalloc, Option.bind_eq_bind] at hnew
        split at hnew
        · cases hnew
          rfl
        · cases hnew
    have hlt : SizeT.shl1 sz < sz := by
      unfold SizeT.shl1
      omega
    obtain ⟨res, rb', hst, -⟩ :=
      h [.call (.write (List.replicate (rb.base.size + 1) 0))]
    rw [hsmall] at hst
    rw [write_overruns hopts rfl rfl hsz hlt] at hst
    cases hst
  · intro hlt ops
    obtain ⟨hc, hcap⟩ := contig_of_createMalloc hopts hmalloc hlt hnew
    refine always_of_guarded (fun rb => Contig rb ∧ rb.sz = sz) ?_
      ⟨hc, hcap⟩ (guarded_of_forall (fun _ _ => trivial) ops rb)
    rintro rb op ⟨h, hcap⟩ -
    obtain ⟨res, rb', hst, hstep, h', hcap'⟩ := exec_contig_spec h hcap op
    exact ⟨res, rb', hst, hstep, h', hcap'⟩

/-- A buffer of three bytes, written around the middle and read both ways. -/
theorem contig_fifo_iff_three :
    Always FastOp.exec (ContigStep 3)
      ⟨⟨6, fun _ => 0⟩, 3, 0, 0, 0, optUseContiguousMem ||| optImplMalloc⟩
      [.call (.write [1, 2]), .fastRead 1, .call (.write [3, 4]), .call (.read 2), .call .clear] :=
  (contig_fifo_iff (show contiguous (optUseContiguousMem ||| optImplMalloc) = true from rfl)
    (by decide) (by decide) rfl).mpr (by decide) _

/-- For a size of `2 ^ 63 + 1` the doubled size wraps to two bytes: the buffer is created, and a
write of three bytes leaves its block. -/
theorem contig_write_overruns :
    createMalloc (2 ^ 63 + 1) (optUseContiguousMem ||| optImplMalloc)
        = some ⟨⟨2, fun _ => 0⟩, 2 ^ 63 + 1, 0, 0, 0, optUseContiguousMem ||| optImplMalloc⟩ ∧
      ¬ Always FastOp.exec (ContigStep (2 ^ 63 + 1))
        ⟨⟨2, fun _ => 0⟩, 2 ^ 63 + 1, 0, 0, 0, optUseContiguousMem ||| optImplMalloc⟩
        [.call (.write [1, 2, 3])] := by
  refine ⟨rfl, fun h => ?_⟩
  obtain ⟨res, rb', hst, -⟩ := h
  have hnone : FastOp.exec ⟨⟨2, fun _ => 0⟩, 2 ^ 63 + 1, 0, 0, 0,
      optUseContiguousMem ||| optImplMalloc⟩ (.call (.write [1, 2, 3])) = none := rfl
  rw [hnone] at hst
  cases hst

end Run

end Libu.Rb
