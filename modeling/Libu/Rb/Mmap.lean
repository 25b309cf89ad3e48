/-
# The mmap implementation is a bounded queue of whole pages

The buffer is a file of a whole number of pages.  It is mapped twice, one mapping behind the other,
so that the system keeps the two halves alike and no byte is stored twice; the functions are those
of the contiguous flavour.

* Memory is the file (`Rb.base`), which is reached through both mappings (`loadTwice`,
  `storeTwice`).
* The system calls of `create_mmap` are a parameter: which of them work.  No system accepts a
  negative length of a file, or an empty mapping.
* `u_rb_create` comes here without `U_RB_OPT_IMPL_MALLOC` only, so that nothing is mirrored.

Whatever is asked for, a buffer that is created has room for it, and whatever is done with the
buffer, it is a queue (`mmap_fifo`).  `u_rb_fast_read` is the exception: `fast_read` looks at the
options of the user, although this implementation ignores them otherwise.
-/
import Libu.Rb.Contiguous
import Libu.Rb.Wrapped

namespace Libu.Rb

open Verif

/-! ## 1. The code -/

/-- `round_sz`: the size in whole pages, at least one. -/
def roundSz (pgSz sz : Nat) : Nat :=
  if sz = 0 then pgSz else ((sz - 1) / pgSz + 1) * pgSz % 2 ^ 64

/-- The calls of `create_mmap` that may fail, in their order. -/
inductive MmapCall
  | zalloc
  | mkstemp
  | remove
  | ftruncate
  | reserve
  | firstHalf
  | secondHalf
  | close
  deriving DecidableEq

/-- `create_mmap`; `none` when it returns -1, after which all that it has opened is closed and
unmapped. -/
def createMmap (works : MmapCall → Bool) (pgSz hintSz opts : Nat) : Option Rb :=
  let sz := roundSz pgSz hintSz
  if works .zalloc ∧ works .mkstemp ∧ works .remove ∧
      (works .ftruncate ∧ 0 ≤ SizeT.toSigned sz) ∧ (works .reserve ∧ SizeT.shl1 sz ≠ 0) ∧
      works .firstHalf ∧ works .secondHalf ∧ works .close then
    some { base := ⟨sz, fun _ => 0⟩, sz, wrOff := 0, rdOff := 0, ready := 0, opts }
  else none

/-- `u_rb_create`, where there is mmap: the option chooses between the two implementations. -/
def create (works : MmapCall → Bool) (pgSz hintSz opts : Nat) : Option Rb :=
  if opts &&& optImplMalloc ≠ 0 then createMalloc hintSz opts
  else createMmap works pgSz hintSz opts

/-- `write_contiguous` on a block that is mapped twice: one store, which both halves show. -/
def writeMapped (rb : Rb) (b : List UInt8) : Option (Int × Rb) :=
  if rb.sz < b.length then some (-1, rb)
  else
    let toBeWritten := min rb.avail b.length
    if toBeWritten = 0 then some (SizeT.toSigned toBeWritten, rb)
    else do
      let base ← rb.base.storeTwice rb.wrOff (b.take toBeWritten)
      some (SizeT.toSigned toBeWritten, writeIncrContiguous { rb with base } toBeWritten)

/-- `read_contiguous` on a block that is mapped twice. -/
def readMapped (rb : Rb) (bSz : Nat) : Option (Fifo.Res UInt8 × Rb) :=
  if rb.sz < bSz then some (⟨-1, []⟩, rb)
  else
    let toBeRead := min rb.ready bSz
    if toBeRead = 0 then some (⟨SizeT.toSigned toBeRead, []⟩, rb)
    else do
      let data ← rb.base.loadTwice rb.rdOff toBeRead
      some (⟨SizeT.toSigned toBeRead, data⟩, readIncrContiguous rb toBeRead)

/-- `u_rb_write`, `u_rb_read`, `u_rb_clear` and `u_rb_fast_read` on a buffer of this implementation.
-/
def execMapped (rb : Rb) : FastOp → Option ((Fifo.Res UInt8 ⊕ Window) × Rb)
  | .call (.write b) => do
    let (rc, rb) ← writeMapped rb b
    some (.inl ⟨rc, []⟩, if 0 ≤ rc then { rb with ready := SizeT.add rb.ready rc.toNat } else rb)
  | .call (.read n) => do
    let (res, rb) ← readMapped rb n
    some (.inl res,
      if 0 ≤ res.rc then { rb with ready := SizeT.sub rb.ready res.rc.toNat } else rb)
  | .call .clear => some (.inl ⟨0, []⟩, rb.clear)
  | .fastRead n => some (.inr (rb.fastRead n).1, (rb.fastRead n).2)

/-! ## 2. The size -/

/-- A page size divides the address space, so that a size that does not fit is rounded to 0. -/
theorem roundSz_spec {pgSz sz : Nat} (hpage : pgSz ∣ 2 ^ 64) (hsz : sz < 2 ^ 64)
    (hne : roundSz pgSz sz ≠ 0) : sz ≤ roundSz pgSz sz ∧ roundSz pgSz sz ≤ sz + pgSz ∧
      pgSz ∣ roundSz pgSz sz := by
  have hpos : 0 < pgSz := Nat.pos_of_dvd_of_pos hpage (by decide)
  unfold roundSz at hne ⊢
  split at hne
  · next hzero =>
    rw [if_pos hzero, hzero]
    exact ⟨Nat.zero_le _, by omega, Nat.dvd_refl _⟩
  · next hzero =>
    rw [if_neg hzero]
    have hlow : sz ≤ ((sz - 1) / pgSz + 1) * pgSz := by
      have hlt := Nat.lt_mul_div_succ (sz - 1) hpos
      rw [Nat.mul_comm] at hlt
      omega
    have hhigh : ((sz - 1) / pgSz + 1) * pgSz < sz + pgSz := by
      have hle := Nat.div_mul_le_self (sz - 1) pgSz
      rw [Nat.succ_mul]
      omega
    have hfit : ((sz - 1) / pgSz + 1) * pgSz < 2 ^ 64 := by
      by_contra hover
      have hdvd : pgSz ∣ ((sz - 1) / pgSz + 1) * pgSz - 2 ^ 64 :=
        Nat.dvd_sub (Nat.dvd_mul_left _ _) hpage
      have hzero := Nat.eq_zero_of_dvd_of_lt hdvd (by omega)
      have hwrap : ((sz - 1) / pgSz + 1) * pgSz % 2 ^ 64 = 0 := by omega
      exact hne hwrap
    rw [Nat.mod_eq_of_lt hfit]
    exact ⟨hlow, Nat.le_of_lt hhigh, Nat.dvd_mul_left _ _⟩

/-- The size is one of a `size_t`: it has been computed modulo that. -/
theorem roundSz_lt {pgSz sz : Nat} (hpg : pgSz < 2 ^ 64) : roundSz pgSz sz < 2 ^ 64 := by
  unfold roundSz
  split
  · exact hpg
  · exact Nat.mod_lt _ (by decide)

/-! ## 3. The invariant -/

/-- What every call on a mapped buffer finds.  It is the invariant of the contiguous flavour without
the second copy: the file has the size of the buffer, and offsets count from the first mapping. -/
structure Mapped (rb : Rb) : Prop where
  sz_lt : rb.sz < 2 ^ 63
  block : rb.base.size = rb.sz
  rd_lt : rb.rdOff < rb.sz
  ready_le : rb.ready ≤ rb.sz
  wr_eq : rb.wrOff = rb.rdOff + rb.ready

namespace Mapped

variable {rb : Rb}

/-- The room that is left. -/
theorem avail_eq (h : Mapped rb) : rb.avail = rb.sz - rb.ready :=
  avail_of_le (Nat.lt_trans h.sz_lt (by decide)) h.ready_le

/-- The queue that the buffer stands for: its unread bytes, which are no more than its capacity. -/
def queue (h : Mapped rb) : Fifo UInt8 rb.sz :=
  ⟨rb.window, by rw [window, length_ringSlice]; exact h.ready_le⟩

theorem holds (h : Mapped rb) : Holds window rb h.queue where
  sz := rfl
  ready := (length_ringSlice ..).symm
  room := by
    have hle := h.ready_le
    rw [h.avail_eq]
    omega
  contents := rfl

end Mapped

/-- `create_mmap` establishes the invariant, for every size: a size that rounds to nothing, or to a
length that no file has, is refused by the system. -/
theorem mapped_of_createMmap {works : MmapCall → Bool} {pgSz hintSz opts : Nat} {rb : Rb}
    (hpg : pgSz < 2 ^ 64) (h : createMmap works pgSz hintSz opts = some rb) :
    Mapped rb ∧ rb.sz = roundSz pgSz hintSz ∧ rb.opts = opts := by
  unfold createMmap at h
  dsimp only at h
  split at h
  · next hworks =>
    obtain ⟨-, -, -, ⟨-, hsigned⟩, ⟨-, hshl⟩, -⟩ := hworks
    cases h
    have hlt : roundSz pgSz hintSz < 2 ^ 63 := by
      by_contra hge
      rw [SizeT.toSigned, if_neg hge] at hsigned
      have hfit : roundSz pgSz hintSz < 2 ^ 64 := roundSz_lt hpg
      omega
    have hpos : 0 < roundSz pgSz hintSz := by
      refine Nat.pos_of_ne_zero fun hzero => hshl ?_
      rw [hzero]
      rfl
    exact ⟨⟨hlt, rfl, hpos, Nat.zero_le _, rfl⟩, rfl, rfl⟩
  · cases h

/-! ## 4. Writing and reading -/

section

variable {rb : Rb} {cap : Nat}

/-- **A write is a write of the queue.**  A store that crosses the end of the first mapping goes to
the front of the file. -/
theorem write_mapped_spec (h : Mapped rb) (hcap : rb.sz = cap) (b : List UInt8) :
    ∃ res rb', execMapped rb (.call (.write b)) = some (.inl res, rb') ∧ Mapped rb' ∧
      rb'.opts = rb.opts ∧ FifoStep window cap rb (.write b) res rb' := by
  subst hcap
  have hready := h.ready_le
  have havail := h.avail_eq
  have hsz := h.sz_lt
  have hrd := h.rd_lt
  have hwr := h.wr_eq
  have hblock := h.block
  by_cases hbig : rb.sz < b.length
  · refine ⟨⟨-1, []⟩, rb, ?_, h, rfl, FifoStep.refused_write h.holds hbig⟩
    simp [execMapped, writeMapped, hbig]
  · have hb := Nat.not_lt.mp hbig
    obtain ⟨t, ht⟩ : ∃ t, t = min rb.avail b.length := ⟨_, rfl⟩
    have hsigned : SizeT.toSigned t = (t : Int) := SizeT.toSigned_of_lt (by omega)
    have hadd : SizeT.add rb.ready t = rb.ready + t := SizeT.add_of_lt (by omega)
    by_cases hzero : t = 0
    · refine ⟨⟨t, []⟩, rb, ?_, h, rfl,
        FifoStep.of_write h.holds hb ht rfl (by omega) h.holds.room (by simp [hzero])⟩
      rw [hzero] at ht hsigned hadd
      simp [execMapped, writeMapped, hbig, ← ht, hzero, hsigned, hadd]
    · have hlen : (b.take t).length = t := List.length_take_of_le (by omega)
      have hrd' : rb.rdOff < rb.base.size := hblock ▸ hrd
      have hfit : rb.ready + (b.take t).length ≤ rb.base.size := by omega
      obtain ⟨m, hstore, hwindow⟩ := Block.storeTwice_append hrd' hfit
      rw [← hwr] at hstore
      rw [hblock, hlen] at hwindow
      have hincr : SizeT.add rb.wrOff t = rb.wrOff + t := SizeT.add_of_lt (by omega)
      have h' : Mapped { rb with
          base := { rb.base with byte := m }
          wrOff := rb.wrOff + t
          ready := rb.ready + t } := by
        refine ⟨hsz, hblock, hrd, ?_, ?_⟩
        · show rb.ready + t ≤ rb.sz
          omega
        · show rb.wrOff + t = rb.rdOff + (rb.ready + t)
          omega
      refine ⟨⟨t, []⟩, _, ?_, h', rfl,
        FifoStep.of_write h.holds hb ht rfl rfl h'.holds.room hwindow⟩
      simp [execMapped, writeMapped, hbig, ← ht, hzero, hstore, hsigned, writeIncrContiguous, hincr,
        hadd]

/-- Past the middle both offsets are moved back by one length of the file, to the same bytes. -/
theorem readIncr_mapped_spec (h : Mapped rb) {t : Nat} (ht : t ≤ rb.ready) :
    ∃ rd wr, readIncrContiguous rb t = { rb with rdOff := rd, wrOff := wr } ∧
      Mapped { rb with rdOff := rd, wrOff := wr, ready := rb.ready - t } ∧
      ringSlice rb.base.byte rb.sz rd (rb.ready - t) = rb.window.drop t := by
  have hrd := h.rd_lt
  have hsz := h.sz_lt
  have hready := h.ready_le
  have hwr := h.wr_eq
  have hadd : SizeT.add rb.rdOff t = rb.rdOff + t := SizeT.add_of_lt (by omega)
  have hdrop : rb.window.drop t =
      ringSlice rb.base.byte rb.sz (ringIdx rb.sz rb.rdOff t) (rb.ready - t) :=
    drop_ringSlice _ hrd hready ht
  by_cases hpast : rb.sz ≤ rb.rdOff + t
  · have hsub₁ : SizeT.sub (rb.rdOff + t) rb.sz = rb.rdOff + t - rb.sz :=
      SizeT.sub_of_le (by omega) hpast
    have hsub₂ : SizeT.sub rb.wrOff rb.sz = rb.wrOff - rb.sz :=
      SizeT.sub_of_le (by omega) (by omega)
    have hidx : ringIdx rb.sz rb.rdOff t = rb.rdOff + t - rb.sz := if_neg (by omega)
    refine ⟨rb.rdOff + t - rb.sz, rb.wrOff - rb.sz, ?_, ⟨hsz, h.block, ?_, ?_, ?_⟩, ?_⟩
    · simp only [readIncrContiguous, hadd, if_pos hpast, hsub₁, hsub₂]
    · show rb.rdOff + t - rb.sz < rb.sz
      omega
    · show rb.ready - t ≤ rb.sz
      omega
    · show rb.wrOff - rb.sz = rb.rdOff + t - rb.sz + (rb.ready - t)
      omega
    · rw [hdrop, hidx]
  · have hidx : ringIdx rb.sz rb.rdOff t = rb.rdOff + t := if_pos (by omega)
    refine ⟨rb.rdOff + t, rb.wrOff, ?_, ⟨hsz, h.block, ?_, ?_, ?_⟩, ?_⟩
    · simp only [readIncrContiguous, hadd, if_neg hpast]
    · show rb.rdOff + t < rb.sz
      omega
    · show rb.ready - t ≤ rb.sz
      omega
    · show rb.wrOff = rb.rdOff + t + (rb.ready - t)
      omega
    · rw [hdrop, hidx]

/-- What the caller finds behind the pointer of `u_rb_fast_read` is what `u_rb_read` of the same
length copies out. -/
structure DeliversMapped (rb' : Rb) (n : Nat) (w : Window) (res : Fifo.Res UInt8) : Prop where
  null : w.data = none ↔ res.data = []
  bytes : ∀ off, w.data = some off → rb'.base.loadTwice off w.pbSz = some res.data
  refused : res.rc = -1 → w = ⟨none, n⟩
  size : res.rc ≠ -1 → (w.pbSz : Int) = res.rc

/-- **A read is a read of the queue**, and the no-copy read is the same read, where the options
allow it. -/
theorem read_mapped_spec (h : Mapped rb) (hcap : rb.sz = cap) (n : Nat) :
    ∃ res rb', execMapped rb (.call (.read n)) = some (.inl res, rb') ∧ Mapped rb' ∧
      rb'.opts = rb.opts ∧ FifoStep window cap rb (.read n) res rb' ∧
      (contiguous rb.opts = true →
        (rb.fastRead n).2 = rb' ∧ DeliversMapped rb' n (rb.fastRead n).1 res) := by
  subst hcap
  have hready := h.ready_le
  have hsz := h.sz_lt
  have hrd := h.rd_lt
  have hblock := h.block
  by_cases hbig : rb.sz < n
  · refine ⟨⟨-1, []⟩, rb, ?_, h, rfl, FifoStep.refused_read h.holds hbig, fun hopts => ?_⟩
    · simp [execMapped, readMapped, hbig]
    · have hfast : rb.fastRead n = (⟨none, n⟩, rb) := by
        simp [fastRead, hopts, hbig]
      rw [hfast]
      exact ⟨rfl, by simp, by simp, fun _ => rfl, fun hrc => absurd rfl hrc⟩
  · have hn := Nat.not_lt.mp hbig
    obtain ⟨t, ht⟩ : ∃ t, t = min rb.ready n := ⟨_, rfl⟩
    have hsub : SizeT.sub rb.ready t = rb.ready - t := SizeT.sub_of_le (by omega) (by omega)
    have hsigned : SizeT.toSigned t = (t : Int) := SizeT.toSigned_of_lt (by omega)
    by_cases hzero : t = 0
    · refine ⟨⟨t, rb.window.take t⟩, rb, ?_, h, rfl, FifoStep.of_read h.holds hn ht rfl
        (by omega) h.holds.room (by simp [hzero]), fun hopts => ?_⟩
      · rw [hzero] at ht hsub hsigned
        simp [execMapped, readMapped, hbig, ← ht, hzero, hsub, hsigned]
      · have hfast : rb.fastRead n = (⟨none, 0⟩, rb) := by
          rw [hzero] at ht
          simp [fastRead, hopts, hbig, ← ht]
        rw [hfast, hzero]
        exact ⟨rfl, by simp, by simp, fun hrc => by simp at hrc, fun _ => by simp⟩
    · obtain ⟨rd, wr, hincr, h', hdrop⟩ := readIncr_mapped_spec h (show t ≤ rb.ready by omega)
      have htake : rb.window.take t = ringSlice rb.base.byte rb.sz rb.rdOff t :=
        take_ringSlice _ hrd hready (by omega)
      have hload : rb.base.loadTwice rb.rdOff t =
          some (ringSlice rb.base.byte rb.sz rb.rdOff t) := by
        rw [← hblock]
        exact Block.loadTwice_of_lt (hblock ▸ hrd) (by omega)
      refine ⟨⟨t, rb.window.take t⟩, _, ?_, h', rfl, FifoStep.of_read h.holds hn ht rfl rfl
        h'.holds.room hdrop, fun hopts => ?_⟩
      · rw [htake]
        simp [execMapped, readMapped, hbig, ← ht, hzero, hload, hsigned, hincr, hsub]
      · have hfast : rb.fastRead n =
            (⟨some rb.rdOff, t⟩, { rb with rdOff := rd, wrOff := wr, ready := rb.ready - t }) := by
          simp [fastRead, hopts, hbig, ← ht, hzero, hincr, hsub]
        rw [hfast, htake]
        refine ⟨rfl, ?_, ?_, ?_, fun _ => rfl⟩
        · have hne : ringSlice rb.base.byte rb.sz rb.rdOff t ≠ [] := by
            intro hnil
            have hlen := congrArg List.length hnil
            rw [length_ringSlice] at hlen
            exact hzero hlen
          simp [hne]
        · intro off hoff
          obtain rfl : rb.rdOff = off := by simpa using hoff
          exact hload
        · intro hrc
          have hneg : (t : Int) = -1 := hrc
          omega

end

/-! ## 5. Runs -/

/-- The step that the queue promises: a call is a step of the queue.  With the option
`U_RB_OPT_USE_CONTIGUOUS_MEM` a no-copy read is `u_rb_read` of the same length, and without it hands
out nothing and leaves the buffer as it is. -/
def MappedStep (opts cap : Nat) (rb : Rb) (op : FastOp) (res : Fifo.Res UInt8 ⊕ Window)
    (rb' : Rb) : Prop :=
  match op, res with
  | .call op, .inl res => FifoStep window cap rb op res rb'
  | .fastRead n, .inr w =>
    if contiguous opts then
      ∃ res, execMapped rb (.call (.read n)) = some (.inl res, rb') ∧
        FifoStep window cap rb (.read n) res rb' ∧ DeliversMapped rb' n w res
    else w = ⟨none, n⟩ ∧ rb' = rb
  | _, _ => False

/-- **One step of a mapped buffer** is a step of the queue, in every state, and keeps the invariant.
-/
theorem execMapped_spec {rb : Rb} {cap : Nat} (h : Mapped rb) (hcap : rb.sz = cap) (op : FastOp) :
    ∃ res rb', execMapped rb op = some (res, rb') ∧ MappedStep rb.opts cap rb op res rb' ∧
      Mapped rb' ∧ rb'.sz = cap ∧ rb'.opts = rb.opts := by
  match op with
  | .call (.write b) =>
    obtain ⟨res, rb', hst, h', hopts, hfifo⟩ := write_mapped_spec h hcap b
    obtain ⟨q, -, -, hq', -⟩ := id hfifo
    exact ⟨.inl res, rb', hst, hfifo, h', hq'.sz, hopts⟩
  | .call (.read n) =>
    obtain ⟨res, rb', hst, h', hopts, hfifo, -⟩ := read_mapped_spec h hcap n
    obtain ⟨q, -, -, hq', -⟩ := id hfifo
    exact ⟨.inl res, rb', hst, hfifo, h', hq'.sz, hopts⟩
  | .call .clear =>
    subst hcap
    have hpos : 0 < rb.sz := Nat.zero_lt_of_lt h.rd_lt
    have h' : Mapped rb.clear := ⟨h.sz_lt, h.block, hpos, Nat.zero_le _, rfl⟩
    exact ⟨.inl ⟨0, []⟩, rb.clear, rfl, FifoStep.of_clear h.holds rfl rfl h'.holds.room rfl,
      h', rfl, rfl⟩
  | .fastRead n =>
    obtain ⟨res, rb', hread, h', hopts', hfifo, hfast⟩ := read_mapped_spec h hcap n
    obtain ⟨q, -, -, hq', -⟩ := id hfifo
    cases hopts : contiguous rb.opts with
    | true =>
      obtain ⟨hnext, hdel⟩ := hfast hopts
      refine ⟨.inr (rb.fastRead n).1, rb', ?_, ?_, h', hq'.sz, hopts'⟩
      · simp only [execMapped, hnext]
      · simp only [MappedStep, hopts, if_true]
        exact ⟨res, hread, hfifo, hdel⟩
    | false =>
      have hplain : rb.fastRead n = (⟨none, n⟩, rb) := by simp [fastRead, hopts]
      refine ⟨.inr ⟨none, n⟩, rb, ?_, ?_, h, hcap, rfl⟩
      · simp only [execMapped, hplain]
      · simp [MappedStep, hopts]

/-- **The mmap implementation is a bounded queue.**  Whatever size is asked for: a buffer that
`u_rb_create` returns has at least this size, a whole number of pages, at most one page more, and
every run of calls is a run of a queue of that size. -/
theorem mmap_fifo {works : MmapCall → Bool} {pgSz hintSz opts : Nat} {rb : Rb}
    (hpg : pgSz < 2 ^ 64) (hpage : pgSz ∣ 2 ^ 64) (hhint : hintSz < 2 ^ 64)
    (hmalloc : opts &&& optImplMalloc = 0) (hnew : create works pgSz hintSz opts = some rb) :
    (hintSz ≤ rb.sz ∧ rb.sz ≤ hintSz + pgSz ∧ pgSz ∣ rb.sz) ∧
      ∀ ops : List FastOp, Always execMapped (MappedStep opts rb.sz) rb ops := by
  rw [create, if_neg (not_not_intro hmalloc)] at hnew
  obtain ⟨h, hsz, hopts⟩ := mapped_of_createMmap hpg hnew
  refine ⟨?_, fun ops => ?_⟩
  · rw [hsz]
    refine roundSz_spec hpage hhint ?_
    have hrd := h.rd_lt
    omega
  · refine always_of_guarded (fun s => Mapped s ∧ s.sz = rb.sz ∧ s.opts = opts) ?_
      ⟨h, rfl, hopts⟩ (guarded_of_forall (fun _ _ => trivial) ops rb)
    rintro s op ⟨hs, hcap, hopts⟩ -
    obtain ⟨res, s', hst, hstep, hs', hcap', hopts'⟩ := execMapped_spec hs hcap op
    rw [hopts] at hstep hopts'
    exact ⟨res, s', hst, hstep, hs', hcap', hopts'⟩

/-- Five bytes are a page of eight. -/
theorem mmap_fifo_page :
    (5 ≤ 8 ∧ 8 ≤ 5 + 8 ∧ 8 ∣ 8) ∧
      ∀ ops, Always execMapped (MappedStep 0 8) ⟨⟨8, fun _ => 0⟩, 8, 0, 0, 0, 0⟩ ops :=
  have hnew : create (fun _ => true) 8 5 0 = some ⟨⟨8, fun _ => 0⟩, 8, 0, 0, 0, 0⟩ := rfl
  mmap_fifo (by decide) (by decide) (by decide) (by decide) hnew

end Libu.Rb
