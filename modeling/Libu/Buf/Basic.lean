/-
# The buffers of `toolbox/buf.c`

A `u_buf_t` owns a heap block of `size + 1` bytes, of which the first `len` are in use, or has no
block.

* The block is reached through `load` and `store` only.  A call that touches a byte outside of it,
  or a byte of a buffer without a block, has no result (`none`).
* Every call that may need memory is told what it gets: `none` when there is none, or the bytes
  that happen to be in the new memory.
* The retry loop of `u_buf_printf` is followed for a number of rounds; when it has not returned by
  then, it has no return value, and the buffer is what it is at that time.
* Formatting is libc's: a call is given the text that its format and arguments stand for.

§1 is the code.  §2 says what a growing `u_buf_reserve` leaves, and §3 what no call changes: the
sizes fit the block (`Sound`).
-/
import Libu.Verif.CStr
import Libu.Verif.Run

namespace Libu

open Verif

/-- `u_buf_t`: the block of memory, the bytes that fit in it without the one that is kept for a NUL,
and the bytes that are in use. -/
structure Buf where
  data : Option (Block UInt8)
  size : Nat
  len : Nat

namespace Buf

/-! ## 1. The code -/

/-- What an allocation gives: the bytes in the new memory, if there is any. -/
abbrev Alloc := Option (Nat → UInt8)

/-- `INT_MAX` -/
def intMax : Nat := 2 ^ 31 - 1

/-- A store through `ubuf->data`.  Without a block nothing can be stored, and no bytes can be stored
anywhere. -/
def store (b : Buf) (off : Nat) (bs : List UInt8) : Option Buf :=
  match b.data with
  | some data => (data.store off bs).map fun data => { b with data := some data }
  | none => if bs = [] then some b else none

/-- `u_buf_create`, with the memory for it. -/
def create : Buf := ⟨none, 0, 0⟩

/-- `u_buf_reserve`: memory for `size` bytes and a NUL, which goes to the last of them.  It never
gives memory back, and where `size + 1` wraps around to zero, nothing that `realloc` returns can be
told from a failure. -/
def reserve (b : Buf) (size : Nat) (alloc : Alloc) : Option (Int × Buf) :=
  -- nothing to do
  if size ≤ b.size then some (0, b)
  else
    match alloc with
    -- `realloc` has freed the block if no bytes are left of the size
    | none => if b.data.isSome ∧ SizeT.add size 1 = 0 then none else some (-1, b)
    | some junk => do
      -- size plus 1 char to store a '\0'
      let nbuf := (b.data.getD ⟨0, junk⟩).resize (SizeT.add size 1) junk
      let nbuf ← nbuf.store size [0]
      some (0, { b with data := some nbuf, size })

/-- `u_buf_append`: grows the block if the bytes do not fit, copies them behind those in use, and
puts a NUL behind them. -/
def append (b : Buf) (data : List UInt8) (alloc : Alloc) : Option (Int × Buf) :=
  if data.length = 0 then some (-1, b)
  else do
    let (ret, b) ←
      if SizeT.sub b.size b.len < data.length then
        -- buffer too small, resize generously
        b.reserve (SizeT.add (SizeT.add b.size b.len) (SizeT.shl1 data.length)) alloc
      else some (0, b)
    if ret ≠ 0 then some (-1, b)
    else do
      let b ← b.store b.len data
      let b := { b with len := SizeT.add b.len data.length }
      let b ← b.store b.len [0]
      some (0, b)

/-- `u_buf_clear` forgets what is in use, and leaves the bytes where they are. -/
def clear (b : Buf) : Buf := { b with len := 0 }

/-- `u_buf_set` clears the buffer and appends, so it has nothing in it when the memory for that is
missing. -/
def set (b : Buf) (data : List UInt8) (alloc : Alloc) : Option (Int × Buf) :=
  if data.length = 0 then some (-1, b) else b.clear.append data alloc

/-- `u_buf_shrink` forgets the last bytes; nothing is written to where the first of them was. -/
def shrink (b : Buf) (newlen : Nat) : Int × Buf :=
  if b.len < newlen then (-1, b) else (0, { b with len := newlen })

/-- `u_buf_detach` gives the block to the caller, and the buffer is as new. -/
def detach (_ : Buf) : Buf := ⟨none, 0, 0⟩

/-- A file: its size by `stat`, and what is read of it if it can be opened, which need not be as
much. -/
structure File where
  stSize : Nat
  content : Option (List UInt8)

/-- `u_buf_load` of a file, if there is one: the buffer is cleared, grown to the size of the file,
and filled with one read. -/
def load (b : Buf) (file : Option File) (alloc : Alloc) : Option (Int × Buf) :=
  match file with
  | none => some (-1, b)
  | some f => do
    -- be sure to have a big enough buffer
    let (ret, b) ← b.clear.reserve f.stSize alloc
    if ret ≠ 0 then some (-1, b)
    else
      match f.content with
      | none => some (-1, b)
      | some content => do
        -- fill the buffer with the whole file content
        let b ← b.store 0 (content.take f.stSize)
        if f.stSize ≠ 0 ∧ f.stSize ≤ content.length then some (0, { b with len := f.stSize })
        else some (-1, b)

/-- vsnprintf of `text` to offset `off`, with `avail` bytes to write to. -/
def vsnprintf (b : Buf) (off avail : Nat) (text : List UInt8) : Option (Int × Buf) :=
  -- EOVERFLOW
  if intMax < avail ∨ intMax < text.length then some (-1, b)
  else if avail = 0 then some (text.length, b)
  else do
    let b ← b.store off (text.take (avail - 1) ++ [0])
    some (text.length, b)

/-- An `int` as `size_t`: a negative one becomes a very large number. -/
def sizeOfInt (n : Int) : Nat := (n % 2 ^ 64).toNat

/-- `u_buf_printf` from `again:` on, for so many rounds.  A text that does not fit makes it ask for
memory and try again; it has no result where it has not returned by then. -/
def printf : Nat → Buf → List UInt8 → Alloc → Option (Option Int × Buf)
  | 0, b, _, _ => some (none, b)
  | n + 1, b, text, alloc => do
    let avail := SizeT.sub b.size b.len
    -- write to the internal buffer of ubuf
    let (ret, b) ← b.vsnprintf b.len avail text
    let sz := sizeOfInt ret
    if sz = 0 then some (some (-1), b)
    else if avail ≤ sz then do
      let (ret, b) ← b.reserve (SizeT.add b.len (min 128 (SizeT.add sz 1))) alloc
      if ret ≠ 0 then some (some (-1), b)
      else do
        -- zero-term the buffer (vsnprintf has removed the last \0!)
        let b ← b.store b.len [0]
        -- try again with a bigger buffer
        printf n b text alloc
    else some (some 0, { b with len := SizeT.add b.len sz })

/-- A call on a buffer, with the memory that it may get, and for `printf` the number of rounds it is
followed. -/
inductive Op
  | reserve (size : Nat) (alloc : Alloc)
  | append (data : List UInt8) (alloc : Alloc)
  | set (data : List UInt8) (alloc : Alloc)
  | printf (rounds : Nat) (text : List UInt8) (alloc : Alloc)
  | clear
  | shrink (newlen : Nat)
  | load (file : Option File) (alloc : Alloc)
  | detach

/-- A call, and what it returns: nothing in the place of the return value where a `printf` has not
returned. -/
def step (b : Buf) : Op → Option (Option Int × Buf)
  | .reserve size alloc => (b.reserve size alloc).map fun r => (some r.1, r.2)
  | .append data alloc => (b.append data alloc).map fun r => (some r.1, r.2)
  | .set data alloc => (b.set data alloc).map fun r => (some r.1, r.2)
  | .printf rounds text alloc => printf rounds b text alloc
  | .clear => some (some 0, b.clear)
  | .shrink newlen => some (some (b.shrink newlen).1, (b.shrink newlen).2)
  | .load file alloc => (b.load file alloc).map fun r => (some r.1, r.2)
  | .detach => some (some 0, b.detach)

/-- The bytes in use, which are those that the caller has been promised. -/
def contents (b : Buf) : List UInt8 :=
  match b.data with
  | some data => slice data.byte 0 b.len
  | none => []

/-! ## 2. Growing -/

/-- What `realloc` leaves of the bytes: those that were in the block, and behind them whatever was
in the new memory. -/
def bytes (b : Buf) (junk : Nat → UInt8) (i : Nat) : UInt8 :=
  match b.data with
  | some data => if i < data.size then data.byte i else junk i
  | none => junk i

/-- The buffer with a bigger block, whose last byte is the NUL that `u_buf_reserve` puts there. -/
def grown (b : Buf) (size : Nat) (junk : Nat → UInt8) : Buf :=
  { b with data := some ⟨size + 1, overlay (b.bytes junk) size [0]⟩, size }

section

variable {b b' : Buf} {size : Nat} {alloc : Alloc} {junk : Nat → UInt8} {data text : List UInt8}

@[simp] theorem grown_len : (b.grown size junk).len = b.len := rfl

@[simp] theorem grown_size : (b.grown size junk).size = size := rfl

/-- There is enough memory already. -/
theorem reserve_of_le (h : size ≤ b.size) : b.reserve size alloc = some (0, b) := if_pos h

/-- The size that is asked for, with the byte for the NUL, does not wrap around; or there is no
block that could be freed by asking for none. -/
def Asks (b : Buf) (size : Nat) : Alloc → Prop
  | none => b.data = none ∨ SizeT.add size 1 ≠ 0
  | some _ => size + 1 < 2 ^ 64

/-- Whether memory is asked for depends on the size and on whether there is a block. -/
theorem asks_congr {alloc : Alloc} {b' : Buf} (h : b'.data = none ↔ b.data = none) :
    b'.Asks size alloc ↔ b.Asks size alloc := by
  cases alloc with
  | none => exact or_congr_left h
  | some junk => exact Iff.rfl

/-- No memory: the buffer is as it was. -/
theorem reserve_none (h : b.size < size) (hasks : b.Asks size none) :
    b.reserve size none = some (-1, b) := by
  rw [reserve, if_neg (Nat.not_le.mpr h), if_neg]
  rintro ⟨hsome, hwrap⟩
  rcases hasks with hnull | hne
  · rw [hnull] at hsome
    cases hsome
  · exact hne hwrap

/-- There is memory, and the block is bigger. -/
theorem reserve_some (h : b.size < size) (hsize : size + 1 < 2 ^ 64) :
    b.reserve size (some junk) = some (0, b.grown size junk) := by
  have hbytes : ((b.data.getD ⟨0, junk⟩).resize (SizeT.add size 1) junk) =
    ⟨size + 1, b.bytes junk⟩ := by
    rw [SizeT.add_of_lt hsize]
    unfold Block.resize bytes
    cases b.data <;> rfl
  rw [reserve, if_neg (Nat.not_le.mpr h)]
  dsimp only
  rw [hbytes, Block.store_of_le (Nat.le_refl _)]
  rfl

/-- With the size wrapped, the NUL is stored out of the block, or the block has been freed. -/
theorem reserve_wrapped {alloc : Alloc} (h : b.size < size) (hasks : ¬ b.Asks size alloc) :
    b.reserve size alloc = none := by
  cases alloc with
  | none =>
    obtain ⟨hsome, hwrap⟩ := not_or.mp hasks
    rw [reserve, if_neg (Nat.not_le.mpr h)]
    exact if_pos ⟨Option.isSome_iff_ne_none.mpr hsome, not_not.mp hwrap⟩
  | some junk =>
    have hsize : ¬ size + 1 < 2 ^ 64 := hasks
    have hmod : SizeT.add size 1 ≤ size := by
      have hlt := Nat.mod_lt (size + 1) (Nat.two_pow_pos 64)
      rw [SizeT.add]
      omega
    rw [reserve, if_neg (Nat.not_le.mpr h)]
    dsimp only
    rw [Block.store_of_lt (Nat.lt_succ_of_le hmod)]
    rfl

end

/-! ## 3. What no call changes -/

/-- The sizes fit the block: what is in use is within the size, the block has one byte more, and a
buffer without a block has no size.  Every call keeps this, whatever else it spoils. -/
structure Sound (b : Buf) : Prop where
  le : b.len ≤ b.size
  bound : b.size + 1 < 2 ^ 64
  alloc : ∀ data ∈ b.data, data.size = b.size + 1
  null : b.data = none → b.size = 0

/-- The byte at `i` is zero, if there is a block. -/
def Zero (b : Buf) (i : Nat) : Prop := ∀ data ∈ b.data, data.byte i = 0

/-- The buffer with other bytes in its block, from `off` on. -/
def overlaid (b : Buf) (off : Nat) (bs : List UInt8) : Buf :=
  { b with data := b.data.map fun data => ⟨data.size, overlay data.byte off bs⟩ }

section

variable {b b' : Buf} {size off i : Nat} {alloc : Alloc} {junk : Nat → UInt8}
    {data text bs : List UInt8}

@[simp] theorem overlaid_len : (b.overlaid off bs).len = b.len := rfl

@[simp] theorem overlaid_size : (b.overlaid off bs).size = b.size := rfl

/-- A buffer with a size has a block. -/
theorem Sound.exists_data (h : Sound b) (hpos : 0 < b.size) : ∃ data, b.data = some data := by
  cases hdata : b.data with
  | none => exact absurd (h.null hdata) (Nat.ne_of_gt hpos)
  | some data => exact ⟨data, rfl⟩

/-- A store of bytes within the size, or of one behind it, stays within the block. -/
theorem Sound.store (h : Sound b) (off : Nat) (bs : List UInt8) (hdata : b.data ≠ none)
    (hfit : off + bs.length ≤ b.size + 1) :
    b.store off bs = some (b.overlaid off bs) := by
  cases hd : b.data with
  | none => exact absurd hd hdata
  | some d =>
    rw [Buf.store, hd]
    dsimp only
    rw [Block.store_of_le (by rw [h.alloc d hd]; exact hfit), overlaid, hd]
    rfl

/-- A store of no bytes may be anywhere within the size. -/
theorem Sound.store_nil (h : Sound b) (hoff : off ≤ b.size) :
    b.store off [] = some (b.overlaid off []) := by
  cases hd : b.data with
  | none =>
    rw [Buf.store, hd, overlaid, hd]
    dsimp only
    rw [if_pos rfl, Option.map_none, ← hd]
  | some d =>
    exact h.store off [] (by rw [hd]; exact Option.some_ne_none d) (Nat.le_succ_of_le hoff)

/-- A store behind the block has no result. -/
theorem Sound.store_out (h : Sound b) (hbs : bs ≠ []) (hout : b.size + 1 < off + bs.length) :
    b.store off bs = none := by
  cases hd : b.data with
  | none =>
    rw [Buf.store, hd]
    exact if_neg hbs
  | some d =>
    rw [Buf.store, hd]
    dsimp only
    rw [Block.store_of_lt (by rw [h.alloc d hd]; exact hout)]
    rfl

/-- A new buffer is sound. -/
theorem sound_create : Sound create :=
  ⟨Nat.le_refl 0, by decide, fun _ h => (by cases h), fun _ => rfl⟩

/-- Storing bytes leaves the sizes as they are. -/
theorem Sound.overlaid (h : Sound b) (off : Nat) (bs : List UInt8) : Sound (b.overlaid off bs) := by
  refine ⟨h.le, h.bound, fun d hd => ?_, fun hnone => h.null (Option.map_eq_none_iff.mp hnone)⟩
  obtain ⟨d', hd', rfl⟩ := Option.map_eq_some_iff.mp hd
  exact h.alloc d' hd'

/-- Storing bytes does not make a block. -/
theorem overlaid_data : (b.overlaid off bs).data = none ↔ b.data = none := Option.map_eq_none_iff

/-- Any number of bytes within the size may be in use. -/
theorem Sound.with_len (h : Sound b) {n : Nat} (hn : n ≤ b.size) : Sound { b with len := n } :=
  ⟨hn, h.bound, h.alloc, h.null⟩

/-- A bigger block is one of the right size. -/
theorem Sound.grown (h : Sound b) (junk : Nat → UInt8) (hlt : b.size < size)
    (hsize : size + 1 < 2 ^ 64) : Sound (b.grown size junk) := by
  refine ⟨Nat.le_trans h.le (Nat.le_of_lt hlt), hsize, fun d hd => ?_,
    fun hnone => (by cases hnone)⟩
  obtain rfl := Option.some.inj hd
  rfl

/-- A buffer that has been grown has a block. -/
theorem grown_data : (b.grown size junk).data ≠ none := Option.some_ne_none _

/-- A byte that is not written is as it was. -/
theorem zero_overlaid_iff (hi : i < off ∨ off + bs.length ≤ i) :
    (b.overlaid off bs).Zero i ↔ b.Zero i := by
  unfold Zero Buf.overlaid
  cases b.data with
  | none => exact iff_of_true (fun _ hd => by cases hd) fun _ hd => by cases hd
  | some d =>
    have hbyte := overlay_of_not_mem d.byte off hi
    constructor
    · intro h d' hd'
      obtain rfl := Option.some.inj hd'
      exact hbyte.symm.trans (h _ rfl)
    · intro h d' hd'
      obtain rfl := Option.some.inj hd'
      exact hbyte.trans (h d rfl)

/-- A NUL that is written is there. -/
theorem zero_overlaid_nul (b : Buf) (off : Nat) : (b.overlaid off [0]).Zero off := by
  intro d hd
  obtain ⟨d', -, rfl⟩ := Option.map_eq_some_iff.mp hd
  exact overlay_of_mem d'.byte off (i := 0) (by decide : 0 < [(0 : UInt8)].length)

/-- The last byte of a bigger block is a NUL. -/
theorem zero_grown_last (b : Buf) (size : Nat) (junk : Nat → UInt8) :
    (b.grown size junk).Zero size := by
  intro d hd
  obtain rfl := Option.some.inj hd
  exact overlay_of_mem (b.bytes junk) size (i := 0) (by decide : 0 < [(0 : UInt8)].length)

/-- A byte of a bigger block is what it was, or what was in the new memory. -/
theorem Sound.zero_grown_iff (h : Sound b) (hi : i ≤ b.size) (hlt : b.size < size) :
    (b.grown size junk).Zero i ↔ if b.data = none then junk i = 0 else b.Zero i := by
  have hbyte : overlay (b.bytes junk) size [0] i = b.bytes junk i :=
    overlay_of_not_mem (b.bytes junk) size (.inl (Nat.lt_of_le_of_lt hi hlt))
  have hiff : (b.grown size junk).Zero i ↔ b.bytes junk i = 0 := by
    rw [← hbyte]
    exact ⟨fun hz => hz _ rfl, fun hz d hd => by obtain rfl := Option.some.inj hd; exact hz⟩
  rw [hiff]
  cases hd : b.data with
  | none => rw [if_pos rfl, bytes, hd]
  | some d =>
    have hsize := h.alloc d hd
    rw [if_neg (Option.some_ne_none d), bytes, hd]
    dsimp only
    rw [if_pos (by omega), Zero, hd]
    exact ⟨fun hz d' hd' => by obtain rfl := Option.some.inj hd'; exact hz, fun hz => hz d rfl⟩

/-- The space behind the bytes in use, which the code computes as a difference of two `size_t`, does
not wrap around. -/
theorem sub_eq (h : Sound b) : SizeT.sub b.size b.len = b.size - b.len :=
  SizeT.sub_of_le (by have hb := h.bound; omega) h.le

/-- Nor does the new length, where the bytes fit. -/
theorem add_len_eq (h : Sound b) {n : Nat} (hn : b.len + n ≤ b.size) :
    SizeT.add b.len n = b.len + n :=
  SizeT.add_of_lt (by have hb := h.bound; omega)

end

end Buf

end Libu
