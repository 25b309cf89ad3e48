/-
# Base64 (`toolbox/b64.c`)

* §1 is the tables.  Characters have 7 bits.
* §2 is the encoder, and §3 the decoder.
* §4: what the tables and the shifts do to a chunk of three bytes.

The encoder writes its characters one behind the other, and checks before each chunk that there is
room for all four of it, so a list of characters says all that it writes.  The decoder is different:
it checks for the bytes that *count* in a chunk, writes three bytes for every chunk all the same,
and goes on from where the bytes that count end.  What it writes is therefore given by positions,
relative to `out` and modulo the size of the memory, and a later chunk overwrites what an earlier
one has left behind its own bytes (`Buffer`, `Decoder.chunk`).
-/
import Mathlib.Data.List.Basic
import Mathlib.Algebra.Group.Nat.Defs

namespace Libu.B64

/-- A byte of the input of the encoder, or of the output of the decoder. -/
abbrev Byte := BitVec 8

/-- A `size_t`; the decoder subtracts from it what a chunk counts for, and that wraps around. -/
abbrev SizeT := BitVec 64

/-! ## 1. Tables -/

/-- The alphabet, by the value of six bits. -/
def E : List Char :=
  "ABCDEFGHIJKLMNOPQRSTUVWXYZabcdefghijklmnopqrstuvwxyz0123456789+/".toList

/-- Offsets (+1) in `E`.  The rest of the table is zero. -/
def D : List Nat := [
  0,  0,  0,  0,  0,  0,  0,  0,
  0,  0,  0,  0,  0,  0,  0,  0,
  0,  0,  0,  0,  0,  0,  0,  0,
  0,  0,  0,  0,  0,  0,  0,  0,
  0,  0,  0,  0,  0,  0,  0,  0,
  0,  0,  0,  63, 0,  0,  0,  64,  -- +,/
  53, 54, 55, 56, 57, 58, 59, 60,  -- 0-7
  61, 62, 0,  0,  0,  0,  0,  0,   -- 8,9
  0,  1,  2,  3,  4,  5,  6,  7,   -- A-G
  8,  9,  10, 11, 12, 13, 14, 15,  -- H-O
  16, 17, 18, 19, 20, 21, 22, 23,  -- P-W
  24, 25, 26, 0,  0,  0,  0,  0,   -- X-Z
  0,  27, 28, 29, 30, 31, 32, 33,  -- a-g
  34, 35, 36, 37, 38, 39, 40, 41,  -- h-o
  42, 43, 44, 45, 46, 47, 48, 49,  -- p-w
  50, 51, 52, 0,  0,  0,  0,  0]   -- x-z

/-- Whether the character is one of the alphabet: its entry in the table `D` is not zero. -/
def isBase64 (c : Char) : Bool := D.getD c.toNat 0 != 0

/-- The six bits that a character of the alphabet stands for; the table has them plus one. -/
def val (c : Char) : SizeT := BitVec.ofNat 64 (D.getD c.toNat 0) - 1

/-- `E[i]`, the character for six bits.  The encoder never asks for more than the table has. -/
def digit (i : Byte) : Char := E.getD i.toNat '\x00'

/-! ## 2. The encoder -/

/-- `chunk_encode`: four characters for the `len` bytes of a chunk, with padding for those that it
does not have. -/
def chunkEncode (in0 in1 in2 : Byte) (len : Nat) : List Char :=
  [digit (in0 >>> 2),
   digit (((in0 &&& 0x03) <<< 4) ||| ((in1 &&& 0xf0) >>> 4)),
   if 1 < len then digit (((in1 &&& 0x0f) <<< 2) ||| ((in2 &&& 0xc0) >>> 6)) else '=',
   if 2 < len then digit (in2 &&& 0x3f) else '=']

/-- The loop of `u_b64_encode`: the characters written, and the room left if there was enough. -/
def encodeLoop (inp : List Byte) (outSz : Nat) : List Char × Option Nat :=
  match inp with
  | [] => ([], some outSz)
  | a :: inp =>
    if 4 ≤ outSz then
      let out := chunkEncode a (inp.getD 0 0) (inp.getD 1 0) (min 3 (inp.length + 1))
      let (rest, room) := encodeLoop (inp.drop 2) (outSz - 4)
      (out ++ rest, room)
    else ([], none)
termination_by inp.length

/-- `u_b64_encode`: the characters written, and whether it succeeds. -/
def encode (inp : List Byte) (outSz : Nat) : List Char × Bool :=
  if inp = [] ∨ outSz = 0 then ([], false)
  else
    match encodeLoop inp outSz with
    | (out, none) => (out, false)
    -- possibly NUL-terminate
    | (out, some room) => (if 0 < room then out ++ ['\x00'] else out, true)

/-! ## 3. The decoder -/

/-- `chunk_decode`: always three bytes, also where there is padding among the characters. -/
def chunkDecode (in0 in1 in2 in3 : Char) : List Byte :=
  [((val in0 <<< 2) ||| (val in1 >>> 4)).setWidth 8,
   (((val in1 &&& 0x0f) <<< 4) ||| (val in2 >>> 2)).setWidth 8,
   (((val in2 &&& 0x03) <<< 6) ||| val in3).setWidth 8]

/-- What has been written where. -/
abbrev Buffer := SizeT → Option Byte

/-- Write the bytes from `p` on. -/
def Buffer.write (out : Buffer) (p : SizeT) (bytes : List Byte) : Buffer := fun i =>
  match bytes[(i - p).toNat]? with
  | some b => some b
  | none => out i

/-- The state of the loop of `u_b64_decode`: what has been written, where the next chunk goes, and
the room that is left by its own account. -/
structure Decoder where
  out : Buffer
  pout : SizeT
  totSz : SizeT

/-- The bytes that count in a chunk: one less for each sign of padding.  Four of these make it wrap
around. -/
def nlen (buf : List Char) : SizeT := 3 - BitVec.ofNat 64 (buf.count '=')

/-- The decoder after a chunk: three bytes are written, and it goes on behind those that count. -/
def Decoder.chunk (s : Decoder) (buf : List Char) : Decoder where
  out := s.out.write s.pout
    (chunkDecode (buf.getD 0 '\x00') (buf.getD 1 '\x00') (buf.getD 2 '\x00') (buf.getD 3 '\x00'))
  pout := s.pout + nlen buf
  totSz := s.totSz - nlen buf

/-- The loop of `u_b64_decode`, and whether it gets to the end. -/
def decodeLoop (inp : List Char) (s : Decoder) : Decoder × Bool :=
  match inp with
  | [] => (s, true)
  | c :: inp =>
    let buf := c :: inp.take 3
    if buf.all fun c => c == '=' || isBase64 c then
      if nlen buf ≤ s.totSz then decodeLoop (inp.drop 3) (s.chunk buf) else (s, false)
    else (s, false)
termination_by inp.length

/-- `u_b64_decode`: what it has written, the size it sets, and whether it succeeds. -/
def decode (inp : List Char) (outSz : SizeT) : Buffer × SizeT × Bool :=
  if inp = [] then (fun _ => none, outSz, false)
  else
    match decodeLoop inp ⟨fun _ => none, 0, outSz⟩ with
    | (s, false) => (s.out, outSz, false)
    | (s, true) => (s.out, outSz - s.totSz, true)

/-! ## 4. Chunks -/

variable {a b c : Byte} {i : Byte}

/-- What the encoder writes for six bits is a character of the alphabet. -/
theorem isBase64_digit (hi : i.toNat < 64) : isBase64 (digit i) = true := by
  revert i
  decide

/-- The decoder reads the character for six bits as these six bits. -/
theorem val_digit (hi : i.toNat < 64) : val (digit i) = i.setWidth 64 := by
  revert i
  decide

/-- The character for six bits is not taken for padding. -/
theorem digit_ne (hi : i.toNat < 64) : digit i ≠ '=' := by
  revert i
  decide

end Libu.B64
