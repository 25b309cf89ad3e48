/-
# The ring buffer of `toolbox/rb.c`, malloc implementation

A `u_rb_t` owns one heap block.  In the default, wrapped flavour the block has the size the user
asked for and the offsets fold back at its end.  In the contiguous flavour the block has twice
that size and every byte is stored twice, `sz` apart, so that the unread bytes can always be
handed out as one piece.

* Offsets and sizes are `size_t`: sums, differences and shifts wrap (`SizeT`).
* memcpy goes through `Block.load` and `Block.store`.  A copy that leaves the block has no result,
  and neither has the operation that attempts it (`none`).
* The buffers that callers pass are lists: what a write is given, and what a read has filled in.
* `u_zalloc` serves any request up to `PTRDIFF_MAX`; no allocator serves a larger one.
* The callbacks `cb_read` and `cb_write` are fixed by the options at creation, so `u_rb_read` and
  `u_rb_write` branch on the options here.
-/
import Libu.Verif.Mem
import Libu.Verif.Fifo
import Libu.Verif.Run

namespace Libu

open Verif

/-- `u_rb_t`, less the callbacks: the block, the size the user asked for, the two offsets, the
number of unread bytes, and the options. -/
structure Rb where
  base : Block UInt8
  sz : Nat
  wrOff : Nat
  rdOff : Nat
  ready : Nat
  opts : Nat

namespace Rb

/-! ## 1. Creation -/

/-- `U_RB_OPT_USE_CONTIGUOUS_MEM`: the unread bytes are always in one piece. -/
def optUseContiguousMem : Nat := 0x01

/-- `U_RB_OPT_IMPL_MALLOC`: the block is allocated, also where there is mmap. -/
def optImplMalloc : Nat := 0x02

/-- `PTRDIFF_MAX`. -/
def ptrdiffMax : Nat := 2 ^ 63 - 1

/-- `u_zalloc`: a block of zeros, for any size that an allocator serves. -/
def zalloc (sz : Nat) : Option (Block UInt8) :=
  if sz ≤ ptrdiffMax then some ⟨sz, fun _ => 0⟩ else none

/-- The flavour a buffer was created with, by its options. -/
def contiguous (opts : Nat) : Bool := opts &&& optUseContiguousMem ≠ 0

/-- `create_malloc`; `none` when it returns -1.  The contiguous flavour takes twice the size, and
the shift that computes this wraps around. -/
def createMalloc (sz opts : Nat) : Option Rb := do
  if sz = 0 then none
  else
    let realSz := if contiguous opts then SizeT.shl1 sz else sz
    let base ← zalloc realSz
    some { base, sz, wrOff := 0, rdOff := 0, ready := 0, opts }

/-- `u_rb_avail`: the room that is left by the counters. -/
def avail (rb : Rb) : Nat := SizeT.sub rb.sz rb.ready

/-- `u_rb_clear`: all counters are zero, and the bytes are left where they are. -/
def clear (rb : Rb) : Rb := { rb with wrOff := 0, rdOff := 0, ready := 0 }

/-! ## 2. The wrapped flavour -/

/-- `is_wrapped`: the write offset has been folded back and the read offset has not. -/
def isWrapped (rb : Rb) : Bool := rb.wrOff < rb.rdOff

/-- `write_incr_wrapped`: the write offset goes on around the fold. -/
def writeIncrWrapped (rb : Rb) (cnt : Nat) : Rb :=
  { rb with wrOff := SizeT.add rb.wrOff cnt % rb.sz }

/-- `read_incr_wrapped`: the read offset goes on around the fold. -/
def readIncrWrapped (rb : Rb) (cnt : Nat) : Rb :=
  { rb with rdOff := SizeT.add rb.rdOff cnt % rb.sz }

/-- The copies of `write_wrapped`: one, or two where the bytes cross the end of the block. -/
def copyInWrapped (rb : Rb) (b : List UInt8) (toBeWritten : Nat) : Option (Block UInt8) :=
  let rspace := SizeT.sub rb.sz rb.wrOff
  if rb.isWrapped || toBeWritten ≤ rspace then
    rb.base.store rb.wrOff (b.take toBeWritten)
  else do
    let rem := SizeT.sub toBeWritten rspace
    let base ← rb.base.store rb.wrOff (b.take rspace)
    base.store 0 ((b.drop rspace).take rem)

/-- `write_wrapped`: as many bytes as there is room for, and none at all if there are more than the
buffer could ever hold. -/
def writeWrapped (rb : Rb) (b : List UInt8) : Option (Int × Rb) :=
  if rb.sz < b.length then some (-1, rb)
  else
    let toBeWritten := min rb.avail b.length
    if toBeWritten = 0 then some (SizeT.toSigned toBeWritten, rb)
    else do
      let base ← copyInWrapped rb b toBeWritten
      some (SizeT.toSigned toBeWritten, writeIncrWrapped { rb with base } toBeWritten)

/-- `read_wrapped`, with the bytes it leaves in the caller's buffer. -/
def readWrapped (rb : Rb) (bSz : Nat) : Option (Fifo.Res UInt8 × Rb) :=
  if rb.sz < bSz then some (⟨-1, []⟩, rb)
  else
    let toBeRead := min rb.ready bSz
    let rspace := SizeT.sub rb.sz rb.rdOff
    if toBeRead = 0 then some (⟨SizeT.toSigned toBeRead, []⟩, rb)
    -- the comparison is the opposite of the one `write_wrapped` makes
    else if !rb.isWrapped || rspace ≤ toBeRead then do
      let data ← rb.base.load rb.rdOff toBeRead
      some (⟨SizeT.toSigned toBeRead, data⟩, readIncrWrapped rb toBeRead)
    else do
      let rem := SizeT.sub toBeRead rspace
      let tail ← rb.base.load rb.rdOff rspace
      let head ← rb.base.load 0 rem
      some (⟨SizeT.toSigned toBeRead, tail ++ head⟩, { rb with rdOff := rem })

/-! ## 3. The contiguous flavour -/

/-- `write_incr_contiguous`: the write offset goes on without a fold. -/
def writeIncrContiguous (rb : Rb) (cnt : Nat) : Rb := { rb with wrOff := SizeT.add rb.wrOff cnt }

/-- `read_incr_contiguous`: when the read offset gets to the second half, both offsets are moved
back. -/
def readIncrContiguous (rb : Rb) (cnt : Nat) : Rb :=
  let rb := { rb with rdOff := SizeT.add rb.rdOff cnt }
  if rb.sz ≤ rb.rdOff then
    { rb with rdOff := SizeT.sub rb.rdOff rb.sz, wrOff := SizeT.sub rb.wrOff rb.sz }
  else rb

/-- `mirror`: the second copy of the bytes `b` that have just been stored at the write offset. -/
def mirror (rb : Rb) (b : List UInt8) (toBeWritten : Nat) : Option (Block UInt8) :=
  if SizeT.add rb.wrOff toBeWritten ≤ rb.sz then
    rb.base.store (rb.wrOff + rb.sz) (b.take toBeWritten)
  else if rb.sz ≤ rb.wrOff then
    rb.base.store (rb.wrOff - rb.sz) (b.take toBeWritten)
  else do
    let leftSz := SizeT.sub rb.sz rb.wrOff
    let rightSz := SizeT.sub toBeWritten leftSz
    let base ← rb.base.store (rb.wrOff + rb.sz) (b.take leftSz)
    base.store 0 ((b.drop leftSz).take rightSz)

/-- `write_contiguous`: the bytes are stored behind the unread ones, and once more in the other
half. -/
def writeContiguous (rb : Rb) (b : List UInt8) : Option (Int × Rb) :=
  if rb.sz < b.length then some (-1, rb)
  else
    let toBeWritten := min rb.avail b.length
    if toBeWritten = 0 then some (SizeT.toSigned toBeWritten, rb)
    else do
      let base ← rb.base.store rb.wrOff (b.take toBeWritten)
      let rb := { rb with base }
      let base ←
        if rb.opts &&& optImplMalloc ≠ 0 then mirror rb b toBeWritten else some rb.base
      some (SizeT.toSigned toBeWritten, writeIncrContiguous { rb with base } toBeWritten)

/-- `read_contiguous`, with the bytes it leaves in the caller's buffer. -/
def readContiguous (rb : Rb) (bSz : Nat) : Option (Fifo.Res UInt8 × Rb) :=
  if rb.sz < bSz then some (⟨-1, []⟩, rb)
  else
    let toBeRead := min rb.ready bSz
    if toBeRead = 0 then some (⟨SizeT.toSigned toBeRead, []⟩, rb)
    else do
      let data ← rb.base.load rb.rdOff toBeRead
      some (⟨SizeT.toSigned toBeRead, data⟩, readIncrContiguous rb toBeRead)

/-- What `u_rb_fast_read` returns: the offset of the bytes in the block (`none` for NULL), and
the value of `*pb_sz`. -/
structure Window where
  data : Option Nat
  pbSz : Nat
deriving DecidableEq

/-- `fast_read`: a window into the block instead of a copy; the wrapped flavour has none to offer.
-/
def fastRead (rb : Rb) (pbSz : Nat) : Window × Rb :=
  if !contiguous rb.opts then (⟨none, pbSz⟩, rb)
  else if rb.sz < pbSz then (⟨none, pbSz⟩, rb)
  else
    let pbSz := min rb.ready pbSz
    if pbSz = 0 then (⟨none, pbSz⟩, rb)
    else
      let data := rb.rdOff
      let rb := readIncrContiguous rb pbSz
      (⟨some data, pbSz⟩, { rb with ready := SizeT.sub rb.ready pbSz })

/-! ## 4. The interface -/

/-- `u_rb_write`: the flavour's function, and the number of unread bytes goes up by what it has
written. -/
def write (rb : Rb) (b : List UInt8) : Option (Int × Rb) := do
  let (rc, rb) ← if contiguous rb.opts then writeContiguous rb b else writeWrapped rb b
  some (rc, if 0 ≤ rc then { rb with ready := SizeT.add rb.ready rc.toNat } else rb)

/-- `u_rb_read`: the flavour's function, and the number of unread bytes goes down by what it has
read. -/
def read (rb : Rb) (bSz : Nat) : Option (Fifo.Res UInt8 × Rb) := do
  let (res, rb) ← if contiguous rb.opts then readContiguous rb bSz else readWrapped rb bSz
  some (res, if 0 ≤ res.rc then { rb with ready := SizeT.sub rb.ready res.rc.toNat } else rb)

/-- One call of `u_rb_write`, `u_rb_read` or `u_rb_clear`. -/
def exec (rb : Rb) : Fifo.Op UInt8 → Option (Fifo.Res UInt8 × Rb)
  | .write b => (rb.write b).map fun (rc, rb) => (⟨rc, []⟩, rb)
  | .read n => rb.read n
  | .clear => some (⟨0, []⟩, rb.clear)

/-! ## 5. The queue a buffer stands for -/

/-- The buffer stands for the queue `q`: same capacity, same number of items, and the unread
bytes, as `contents` finds them in the block, are its items. -/
structure Holds (contents : Rb → List UInt8) {cap : Nat} (rb : Rb) (q : Fifo UInt8 cap) :
    Prop where
  sz : rb.sz = cap
  ready : rb.ready = q.items.length
  room : rb.ready + rb.avail = cap
  contents : contents rb = q.items

/-- **A step of the queue.**  The buffer stands for a queue, the call returns what the queue
returns, and the buffer then stands for the queue's next state; a refusal changes nothing at
all. -/
def FifoStep (contents : Rb → List UInt8) (cap : Nat) (rb : Rb) (op : Fifo.Op UInt8)
    (res : Fifo.Res UInt8) (rb' : Rb) : Prop :=
  ∃ q : Fifo UInt8 cap, Holds contents rb q ∧ (q.exec op).1 = res ∧
    Holds contents rb' (q.exec op).2 ∧ (res.rc = -1 → rb' = rb)

section FifoStep

variable {contents : Rb → List UInt8} {cap : Nat} {rb rb' : Rb} {q : Fifo UInt8 cap}

/-- A write above the capacity is refused, and the buffer is as it was. -/
theorem FifoStep.refused_write (hq : Holds contents rb q) {b : List UInt8} (hb : cap < b.length) :
    FifoStep contents cap rb (.write b) ⟨-1, []⟩ rb := by
  have hexec : q.exec (.write b) = (⟨-1, []⟩, q) := if_pos hb
  refine ⟨q, hq, ?_, ?_, fun _ => rfl⟩
  · rw [hexec]
  · rw [hexec]; exact hq

/-- A read above the capacity is refused, and the buffer is as it was. -/
theorem FifoStep.refused_read (hq : Holds contents rb q) {n : Nat} (hn : cap < n) :
    FifoStep contents cap rb (.read n) ⟨-1, []⟩ rb := by
  have hexec : q.exec (.read n) = (⟨-1, []⟩, q) := if_pos hn
  refine ⟨q, hq, ?_, ?_, fun _ => rfl⟩
  · rw [hexec]
  · rw [hexec]; exact hq

/-- A write that stores as many bytes as fit behind the unread ones. -/
theorem FifoStep.of_write (hq : Holds contents rb q) {b : List UInt8} {t : Nat}
    (hb : b.length ≤ cap) (ht : t = min rb.avail b.length) (hsz : rb'.sz = cap)
    (hready : rb'.ready = rb.ready + t) (hroom : rb'.ready + rb'.avail = cap)
    (hcontents : contents rb' = contents rb ++ b.take t) :
    FifoStep contents cap rb (.write b) ⟨t, []⟩ rb' := by
  have hlen := hq.ready
  have hroom₀ := hq.room
  have havail : q.avail = rb.avail := by
    rw [Fifo.avail]
    omega
  have hexec : q.exec (.write b) = (⟨t, []⟩, q.append b) := by
    rw [Fifo.exec, Fifo.write, if_neg (Nat.not_lt.mpr hb), havail, ← ht]
  have hitems : (q.append b).items = q.items ++ b.take t := by
    rw [Fifo.append_items, havail, ht, ← List.take_eq_take_min]
  refine ⟨q, hq, ?_, ?_, fun hrc => ?_⟩
  · rw [hexec]
  · rw [hexec]
    refine ⟨hsz, ?_, hroom, ?_⟩
    · rw [hitems, List.length_append, List.length_take, hready, hlen]
      omega
    · rw [hitems, hcontents, hq.contents]
  · have hneg : (t : Int) = -1 := hrc
    omega

/-- A read that hands out the oldest bytes, as many as there are up to the number that is asked for.
-/
theorem FifoStep.of_read (hq : Holds contents rb q) {n t : Nat}
    (hn : n ≤ cap) (ht : t = min rb.ready n) (hsz : rb'.sz = cap)
    (hready : rb'.ready = rb.ready - t) (hroom : rb'.ready + rb'.avail = cap)
    (hcontents : contents rb' = (contents rb).drop t) :
    FifoStep contents cap rb (.read n) ⟨t, (contents rb).take t⟩ rb' := by
  have hlen := hq.ready
  have hcon := hq.contents
  have htake : q.items.take n = q.items.take t := by
    rw [ht, hlen, Nat.min_comm, ← List.take_eq_take_min]
  have hdrop : q.items.drop n = q.items.drop t := by
    rw [ht, hlen, Nat.min_comm, ← List.drop_eq_drop_min]
  have hexec : q.exec (.read n) = (⟨t, q.items.take t⟩, q.drop n) := by
    rw [Fifo.exec, Fifo.read, if_neg (Nat.not_lt.mpr hn), ← hlen, ← ht, htake]
  refine ⟨q, hq, ?_, ?_, fun hrc => ?_⟩
  · rw [hexec, hcon]
  · rw [hexec]
    refine ⟨hsz, ?_, hroom, ?_⟩
    · rw [Fifo.drop_items, hdrop, List.length_drop, hready, hlen]
    · rw [Fifo.drop_items, hdrop, hcontents, hcon]
  · have hneg : (t : Int) = -1 := hrc
    omega

/-- A clear leaves nothing to be read, and all the room. -/
theorem FifoStep.of_clear (hq : Holds contents rb q) (hsz : rb'.sz = cap) (hready : rb'.ready = 0)
    (hroom : rb'.ready + rb'.avail = cap) (hcontents : contents rb' = []) :
    FifoStep contents cap rb .clear ⟨0, []⟩ rb' :=
  ⟨q, hq, rfl, ⟨hsz, hready, hroom, hcontents⟩, fun hrc => by cases hrc⟩

end FifoStep

/-- The room that is left does not wrap around. -/
theorem avail_of_le {rb : Rb} (hsz : rb.sz < 2 ^ 64) (hready : rb.ready ≤ rb.sz) :
    rb.avail = rb.sz - rb.ready := SizeT.sub_of_le hsz hready

end Rb

end Libu
