/-
# The strings of `toolbox/str.c`

A `u_string_t` owns a heap block of `data_sz + 1` bytes, or has no block yet and points to
`null`, one static byte that all strings share.

* The block is reached through `load` and `store` only.  A call that touches a byte outside of it
  has no result (`none`), and neither has one in which an `int` overflows.
* `null` is a field of `Str` while a call runs, and a field of `Strings` between calls: a store
  through a string without a block goes there, for every string to see.
* Every call that may need memory is told what it gets: `none` when there is none, or the bytes
  that happen to be in the new memory.
* The text for `u_string_set` and `u_string_append` is a pointer: to bytes that the caller keeps, or
  into what `u_string_c` gives of a string, which may be the one that is written to (`Src`).
* The two retry loops are followed as written: `grow` as a recursion, the `goto` of
  `u_string_do_vprintf` for at most `fuel` rounds.
* Formatting is libc's: a call is given the text that its format and arguments stand for.
-/
import Libu.Verif.CStr
import Mathlib.Logic.Function.Basic

namespace Libu

open Verif

/-- `u_string_t`; `data` is `none` where the pointer is `null`. -/
structure Str where
  data : Option (Block UInt8)
  dataSz : Nat
  dataLen : Nat
  shiftCnt : Nat
  null : Block UInt8

namespace Str

/-! ## 1. Memory -/

/-- `BLOCK_SIZE`. -/
def blockSize : Nat := 64

/-- `INT_MAX`. -/
def intMax : Nat := 2 ^ 31 - 1

/-- `null_cstr`. -/
def nullCstr : Block UInt8 := ⟨1, fun _ => 0⟩

/-- What an allocation gives: the bytes in the new memory, if there is any. -/
abbrev Alloc := Option (Nat → UInt8)

/-- The bytes that `s->data` points to. -/
def block (s : Str) : Block UInt8 := s.data.getD s.null

/-- A store through `s->data`. -/
def store (s : Str) (off : Nat) (bs : List UInt8) : Option Str :=
  match s.data with
  | some b => (b.store off bs).map fun b => { s with data := some b }
  | none => (s.null.store off bs).map fun null => { s with null }

/-- strncpy of `len` bytes: what comes before a NUL, filled up with NULs. -/
def strncpy (buf : List UInt8) (len : Nat) : List UInt8 :=
  let t := (buf.take len).takeWhile (· ≠ 0)
  t ++ List.replicate (len - t.length) 0

/-- The `len` bytes that strncpy makes of what is at `off` of a block; it must find a NUL or all of
them there. -/
def strncpyFrom (b : Block UInt8) (off len : Nat) : Option (List UInt8) :=
  let buf := slice b.byte off (min len (b.size - off))
  if 0 ∈ buf ∨ len ≤ buf.length then some (strncpy buf len) else none

/-- An `int` as `size_t`. -/
def sizeOfInt (n : Int) : Nat := (n % 2 ^ 64).toNat

/-- vsnprintf of `text` to offset `off`, with `avail` bytes to write to. -/
def vsnprintf (s : Str) (off avail : Nat) (text : List UInt8) : Option (Int × Str) :=
  -- EOVERFLOW
  if intMax < avail ∨ intMax < text.length then some (-1, s)
  else if avail = 0 then some (text.length, s)
  else do
    let s ← s.store off (text.take (avail - 1) ++ [0])
    some (text.length, s)

/-- `u_isblank`. -/
def isblank (c : UInt8) : Bool := c = 32 || c = 9

/-- The first loop of `u_trim`, from `p` down. -/
def trimEnd (b : Block UInt8) : Nat → Nat
  | 0 => 0
  | p + 1 => if isblank (b.byte (p + 1)) then trimEnd b p else p + 1

/-- The second loop of `u_trim`, from `p` up; it must not leave the block, which ends `n` bytes
further on. -/
def trimStart (b : Block UInt8) : Nat → Nat → Option Nat
  | 0, _ => none
  | n + 1, p => if b.byte p ≠ 0 && isblank (b.byte p) then trimStart b n (p + 1) else some p

/-- `u_trim`. -/
def uTrim (s : Str) : Option Str := do
  let n ← s.block.strlen 0
  let s ← s.store (if n = 0 then 0 else trimEnd s.block (n - 1) + 1) [0]
  let p ← trimStart s.block s.block.size 0
  if 0 < p then do
    let len ← s.block.strlen p
    let bs ← s.block.load p (1 + len)
    s.store 0 bs
  else some s

/-! ## 2. Calls on one string -/

/-- `u_string_reserve`. -/
def reserve (s : Str) (size : Nat) (alloc : Alloc) : Option (Int × Str) :=
  if size ≤ s.dataSz then some (0, s)
  else
    match alloc with
    | none => some (-1, s)
    | some junk => do
      let nbuf := (s.data.getD ⟨0, junk⟩).resize (SizeT.add size 1) junk
      let nbuf ← nbuf.store size [0]
      some (0, { s with data := some nbuf, dataSz := size })

/-- `u_string_clear`. -/
def clear (s : Str) : Option (Int × Str) :=
  if s.dataSz ≠ 0 then do
    let s ← s.store 0 [0]
    some (0, { s with dataLen := 0 })
  else some (0, s)

/-- The loop of `u_string_append`: the next `nsz` above `min`, and `shift_cnt` after it. -/
def grow (min nsz shiftCnt : Nat) : Option (Nat × Nat) :=
  if nsz ≤ min then
    -- `int` overflow
    if intMax < blockSize * 2 ^ shiftCnt then none
    else grow min (SizeT.add nsz (blockSize * 2 ^ shiftCnt)) (shiftCnt + 1)
  else some (nsz, shiftCnt)
termination_by intMax + 1 - blockSize * 2 ^ shiftCnt
decreasing_by
  rename_i hfit
  have hpos : 0 < blockSize * 2 ^ shiftCnt := Nat.mul_pos (by decide) (Nat.two_pow_pos shiftCnt)
  rw [Nat.pow_succ, ← Nat.mul_assoc]
  omega

/-- The first half of `u_string_append`: a bigger buffer, if there is not enough space for `len`
more bytes and a NUL. -/
def makeRoom (s : Str) (len : Nat) (alloc : Alloc) : Option (Int × Str) :=
  let min := SizeT.add (SizeT.add s.dataLen len) 1
  if s.dataSz < min then do
    let (nsz, shiftCnt) ← grow min s.dataSz s.shiftCnt
    reserve { s with shiftCnt } nsz alloc
  else some (0, s)

/-- `u_string_append` of `len` bytes; `text` is what strncpy finds when the string has room for
them. -/
def appendFrom (s : Str) (len : Nat) (text : Str → Option (List UInt8)) (alloc : Alloc) :
    Option (Int × Str) :=
  if len = 0 then some (0, s)
  else do
    let (ret, s) ← s.makeRoom len alloc
    if ret ≠ 0 then some (-1, s)
    else do
      let s ← s.store s.dataLen (← text s)
      let s := { s with dataLen := SizeT.add s.dataLen len }
      let s ← s.store s.dataLen [0]
      some (0, s)

/-- `u_string_append` of bytes that the caller keeps. -/
def append (s : Str) (buf : List UInt8) (alloc : Alloc) : Option (Int × Str) :=
  s.appendFrom buf.length (fun _ => some (strncpy buf buf.length)) alloc

/-- What strncpy finds at `off` of the string's own block, when there is room in `s'`.  A block that
was reallocated is gone, and strncpy is not defined on bytes that overlap; bytes that it copies onto
themselves stay. -/
def ownText (s : Str) (off len : Nat) (s' : Str) : Option (List UInt8) :=
  if s.data.isNone then strncpyFrom s.null off len
  else if s.dataSz < s'.dataSz then none
  else do
    let buf ← strncpyFrom s.block off len
    let read := min len ((buf.takeWhile (· ≠ 0)).length + 1)
    if off ≠ s.dataLen ∧ off < s.dataLen + len ∧ s.dataLen < off + read then none else some buf

/-- `u_string_append` of bytes at `off` of the string's own block. -/
def appendOwn (s : Str) (off len : Nat) (alloc : Alloc) : Option (Int × Str) :=
  s.appendFrom len (s.ownText off len) alloc

/-- `u_string_trim`. -/
def trim (s : Str) : Option (Int × Str) :=
  if 0 < s.dataLen then do
    let s ← s.uTrim
    let n ← s.block.strlen 0
    some (0, { s with dataLen := n })
  else some (0, s)

/-- `u_string_set_length`. -/
def setLength (s : Str) (len : Nat) : Option (Int × Str) :=
  if s.dataLen < len then some (-1, s)
  else if len < s.dataLen then do
    let s ← ({ s with dataLen := len } : Str).store len [0]
    some (0, s)
  else some (0, s)

/-- The loop of `u_string_do_vprintf`, for at most `fuel` rounds. -/
def vprintfLoop : Nat → Str → List UInt8 → Alloc → Option (Int × Str)
  | 0, _, _, _ => none
  | fuel + 1, s, text, alloc => do
    let avail := SizeT.sub s.dataSz s.dataLen
    let (n, s) ← s.vsnprintf s.dataLen avail text
    let sz := sizeOfInt n
    if avail ≤ sz then do
      let size := SizeT.add (SizeT.add (SizeT.add s.dataSz s.dataLen) (SizeT.shl1 sz)) 1
      let (ret, s) ← s.reserve size alloc
      if ret ≠ 0 then some (-1, s)
      else do
        let s ← s.store s.dataLen [0]
        vprintfLoop fuel s text alloc
    else some (0, { s with dataLen := SizeT.add s.dataLen sz })

/-- `u_string_do_vprintf`. -/
def doVprintf (fuel : Nat) (s : Str) (clear : Bool) (text : List UInt8) (alloc : Alloc) :
    Option (Int × Str) := do
  let (_, s) ← if clear then s.clear else some (0, s)
  vprintfLoop fuel s text alloc

/-- `u_string_sprintf`. -/
def sprintf (fuel : Nat) (s : Str) (text : List UInt8) (alloc : Alloc) : Option (Int × Str) :=
  doVprintf fuel s true text alloc

/-- `u_string_aprintf`. -/
def aprintf (fuel : Nat) (s : Str) (text : List UInt8) (alloc : Alloc) : Option (Int × Str) :=
  doVprintf fuel s false text alloc

/-- `u_string_create`; it hands no string out when it fails. -/
def create (null : Block UInt8) (buf : Option (List UInt8)) (alloc : Alloc) :
    Option (Int × Option Str × Block UInt8) :=
  let s : Str := ⟨none, 0, 0, 0, null⟩
  match buf with
  | none => some (0, some s, s.null)
  | some buf => do
    let (ret, s) ← s.append buf alloc
    some (ret, if ret = 0 then some s else none, s.null)

/-- `u_string_c`, read up to its NUL. -/
def c (s : Str) : Option (List UInt8) := s.block.cstr 0

/-- `u_string_len`. -/
def len (s : Str) : Nat := s.dataLen

end Str

/-! ## 3. Calls on many strings -/

/-- The strings of a program by their variables, and the `null` that they share. -/
structure Strings (ι : Type) where
  strs : ι → Option Str
  null : Block UInt8

namespace Strings

variable {ι : Type}

/-- No string has been created. -/
def init : Strings ι := ⟨fun _ => none, Str.nullCstr⟩

/-- The string in variable `i`, if there is one, with `null` as it is now. -/
def get (st : Strings ι) (i : ι) : Option Str :=
  (st.strs i).map fun s => { s with null := st.null }

/-- A string in variable `i`. -/
def put [DecidableEq ι] (st : Strings ι) (i : ι) (s : Str) : Strings ι :=
  ⟨Function.update st.strs i (some s), s.null⟩

/-- A call on the string in variable `i`; all calls refuse a variable that is NULL. -/
def on [DecidableEq ι] (st : Strings ι) (i : ι) (f : Str → Option (Int × Str)) :
    Option (Int × Strings ι) :=
  match st.get i with
  | none => some (-1, st)
  | some s => do
    let (ret, s) ← f s
    some (ret, st.put i s)

end Strings

namespace Str

/-- The text that a call is given: bytes of the caller, or `len` bytes from `u_string_c` of the
string in variable `j` plus `off` on. -/
inductive Src (ι : Type) where
  | bytes (buf : List UInt8)
  | within (j : ι) (off len : Nat)

/-- A call. -/
inductive Op (ι : Type) where
  | create (i : ι) (buf : Option (List UInt8)) (alloc : Alloc)
  | set (i : ι) (src : Src ι) (alloc : Alloc)
  | append (i : ι) (src : Src ι) (alloc : Alloc)
  | copy (dst src : ι) (alloc : Alloc)
  | clear (i : ι)
  | trim (i : ι)
  | setLength (i : ι) (len : Nat)
  | sprintf (i : ι) (text : List UInt8) (alloc : Alloc)
  | aprintf (i : ι) (text : List UInt8) (alloc : Alloc)

variable {ι : Type}

/-- `u_string_append` to `s`, which is the string in variable `i`. -/
def appendSrc [DecidableEq ι] (st : Strings ι) (i : ι) (s : Str) (alloc : Alloc) :
    Src ι → Option (Int × Str)
  | .bytes buf => s.append buf alloc
  | .within j off len =>
    if j = i then s.appendOwn off len alloc
    else
      match st.get j with
      -- `u_string_c` of a NULL variable is NULL
      | none => some (-1, s)
      | some x => s.appendFrom len (fun _ => strncpyFrom x.block off len) alloc

/-- `u_string_set`. -/
def set [DecidableEq ι] (st : Strings ι) (i : ι) (s : Str) (alloc : Alloc) (src : Src ι) :
    Option (Int × Str) := do
  let (_, s) ← s.clear
  appendSrc st i s alloc src

/-- `u_string_copy`; the source is read after the destination has been cleared. -/
def copy [DecidableEq ι] (st : Strings ι) (dst src : ι) (alloc : Alloc) :
    Option (Int × Strings ι) :=
  if (st.get src).isNone then some (-1, st)
  else
    st.on dst fun s => do
      let (_, s) ← s.clear
      let from' ← (st.put dst s).get src
      let buf ← from'.block.load 0 from'.dataLen
      s.append buf alloc

def Op.exec [DecidableEq ι] (fuel : Nat) (st : Strings ι) : Op ι → Option (Int × Strings ι)
  | .create i buf alloc => do
    let (ret, s, null) ← Str.create st.null buf alloc
    match s with
    | none => some (ret, { st with null })
    | some s => some (ret, st.put i s)
  | .set i src alloc => st.on i fun s => Str.set st i s alloc src
  | .append i src alloc => st.on i fun s => appendSrc st i s alloc src
  | .copy dst src alloc => Str.copy st dst src alloc
  | .clear i => st.on i Str.clear
  | .trim i => st.on i Str.trim
  | .setLength i len => st.on i fun s => s.setLength len
  | .sprintf i text alloc => st.on i fun s => s.sprintf fuel text alloc
  | .aprintf i text alloc => st.on i fun s => s.aprintf fuel text alloc

end Str

end Libu
