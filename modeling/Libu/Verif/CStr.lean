/-
# C strings in a block

A C string is a run of bytes other than NUL with a NUL behind it.  `CStr b off t` says that the
block `b` holds the string `t` from offset `off` on, NUL included.

* `CStr.of_slice`: storing bytes and a NUL behind a prefix makes a string of both.  Appending,
  cutting short and emptying are cases of it.
* `CStr.strlen`, `CStr.cstr`: what strlen and a reader of the string find.
-/
import Libu.Verif.Mem

namespace Verif

namespace Block

/-- strlen of the bytes from `off` on, if there is a NUL in the block. -/
def strlen (b : Block UInt8) (off : Nat) : Option Nat :=
  (List.range (b.size - off)).find? fun i => b.byte (off + i) = 0

/-- The C string at `off`. -/
def cstr (b : Block UInt8) (off : Nat) : Option (List UInt8) := do
  let n ← b.strlen off
  b.load off n

/-- realloc: the old bytes, and `junk` behind them. -/
def resize {α : Type*} (b : Block α) (n : Nat) (junk : Nat → α) : Block α :=
  ⟨n, fun i => if i < b.size then b.byte i else junk i⟩

/-- The block with the bytes `bs` at `off`, which is what `store` makes of it when they fit. -/
def put {α : Type*} (b : Block α) (off : Nat) (bs : List α) : Block α :=
  { b with byte := overlay b.byte off bs }

end Block

/-- The block `b` holds the C string `t` at `off`. -/
structure CStr (b : Block UInt8) (off : Nat) (t : List UInt8) : Prop where
  nul_free : 0 ∉ t
  room : off + t.length < b.size
  bytes : slice b.byte off t.length = t
  nul : b.byte (off + t.length) = 0

section CStr

variable {α : Type*} {b b' : Block UInt8} {off : Nat} {t u : List UInt8}

/-- Two stores in a row. -/
theorem overlay_append (m : Nat → α) (off : Nat) (xs ys : List α) :
    overlay (overlay m off xs) (off + xs.length) ys = overlay m off (xs ++ ys) := by
  funext i
  unfold overlay
  by_cases hlow : off ≤ i
  · by_cases hmid : off + xs.length ≤ i
    · have hnone : xs[i - off]? = none := List.getElem?_eq_none (by omega)
      rw [if_pos hmid, if_pos hlow, hnone, List.getElem?_append_right (by omega),
        (by omega : i - off - xs.length = i - (off + xs.length)), if_pos hlow]
      rfl
    · rw [if_neg hmid, if_pos hlow, if_pos hlow, List.getElem?_append_left (by omega)]
  · rw [if_neg (by omega), if_neg hlow, if_neg hlow]

/-- A store within the block has a result, which is the block with the bytes put into it. -/
theorem Block.store_eq_put {b : Block α} {bs : List α} (h : off + bs.length ≤ b.size) :
    b.store off bs = some (b.put off bs) := Block.store_of_le h

@[simp] theorem Block.size_put (b : Block α) (off : Nat) (bs : List α) :
    (b.put off bs).size = b.size := rfl

@[simp] theorem Block.put_nil (b : Block α) (off : Nat) : b.put off [] = b := by
  have hsame : overlay b.byte off [] = b.byte := by
    funext i
    unfold overlay
    split <;> rfl
  rw [Block.put, hsame]

/-- Putting bytes behind those just put is putting both at once. -/
theorem Block.put_put (b : Block α) (off : Nat) (xs ys : List α) :
    (b.put off xs).put (off + xs.length) ys = b.put off (xs ++ ys) :=
  congrArg (Block.mk b.size) (overlay_append b.byte off xs ys)

/-- The bytes of the string, one by one. -/
theorem CStr.byte_eq (h : CStr b off t) {i : Nat} (hi : i < t.length) :
    b.byte (off + i) = t[i] := by
  have hget : (slice b.byte off t.length)[i]? = some (b.byte (off + i)) := by
    rw [getElem?_slice, if_pos hi]
  rw [h.bytes, List.getElem?_eq_getElem hi] at hget
  exact (Option.some.inj hget).symm

/-- strlen stops at the NUL. -/
theorem CStr.strlen (h : CStr b off t) : b.strlen off = some t.length := by
  refine List.find?_range_eq_some.mpr ⟨by simp [h.nul], ?_, ?_⟩
  · have hroom := h.room
    exact List.mem_range.mpr (by omega)
  · intro i hi
    have hne : t[i] ≠ 0 := fun h0 => h.nul_free (h0 ▸ List.getElem_mem hi)
    simp [h.byte_eq hi, hne]

/-- A reader of the string finds the string. -/
theorem CStr.cstr (h : CStr b off t) : b.cstr off = some t := by
  have hroom := h.room
  unfold Block.cstr
  rw [h.strlen]
  dsimp only [Option.bind_eq_bind, Option.bind_some]
  rw [Block.load_of_le (by omega), h.bytes]

/-- Copying a string with its NUL. -/
theorem CStr.load (h : CStr b off t) : b.load off (1 + t.length) = some (t ++ [0]) := by
  have hroom := h.room
  have hone : slice b.byte (off + t.length) 1 = [b.byte (off + t.length)] := rfl
  rw [Block.load_of_le (by omega), Nat.add_comm 1, slice_add, h.bytes, hone, h.nul]

/-- The rest of a string is one. -/
theorem CStr.drop (h : CStr b off (u ++ t)) : CStr b (off + u.length) t := by
  obtain ⟨hnul, hroom, hbytes, h0⟩ := h
  rw [List.length_append] at hroom hbytes h0
  rw [slice_add] at hbytes
  rw [← Nat.add_assoc] at hroom h0
  refine ⟨fun hmem => hnul (List.mem_append_right u hmem), hroom, ?_, h0⟩
  exact (List.append_inj hbytes (length_slice b.byte off u.length)).2

/-- **Bytes and a NUL behind a prefix make a string.** -/
theorem CStr.of_slice (ht : slice b.byte off t.length = t) (hnul : 0 ∉ t ++ u)
    (hst : b.store (off + t.length) (u ++ [0]) = some b') : CStr b' off (t ++ u) := by
  unfold Block.store at hst
  split at hst
  · next hfit =>
    obtain rfl := Option.some.inj hst
    rw [List.length_append, List.length_singleton] at hfit
    refine ⟨hnul, ?_, ?_, ?_⟩
    · rw [List.length_append]
      exact (by omega : off + (t.length + u.length) < b.size)
    · change slice (overlay b.byte (off + t.length) (u ++ [0])) off (t ++ u).length = t ++ u
      rw [← overlay_append, List.length_append, slice_add,
        slice_overlay_of_disjoint _ (Or.inl (by omega)),
        slice_overlay_of_disjoint _ (Or.inl (by omega)),
        slice_overlay_of_disjoint _ (Or.inl (by omega)), slice_overlay_self, ht]
    · change overlay b.byte (off + t.length) (u ++ [0]) (off + (t ++ u).length) = 0
      have hlast := overlay_of_mem b.byte (off + t.length) (i := u.length)
        (by simp : u.length < (u ++ [(0 : UInt8)]).length)
      rw [List.length_append, ← Nat.add_assoc, hlast]
      simp
  · cases hst

end CStr

end Verif
