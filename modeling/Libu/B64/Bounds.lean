/-
# What the decoder writes

The decoder looks for room for the bytes that a chunk counts for, and then writes all three.  With
less room than that it writes behind the end of the buffer: `Roomy` says that it never gets there,
and is exactly when nothing is written at `*out_sz` or behind (`decode_bounds_iff`).  What it takes
from `*out_sz` is never more than there was.

The argument needs two facts about every state of the loop.  Where it is and the room that is left
add up to `*out_sz` (`Decoder.Within`), so three bytes from there on stay inside exactly when there
is room for three; and what has been written once stays written (`decodeLoop_written`), so a store
behind the end is still seen when the loop is over.
-/
import Libu.B64.RoundTrip
import Mathlib.Data.Bool.AllAny

namespace Libu.B64

/-- Every chunk that is decoded, as its characters are right and there is room for those of its
bytes that count, finds room for three. -/
def Roomy (inp : List Char) (room : SizeT) : Prop :=
  match inp with
  | [] => True
  | c :: inp =>
    let buf := c :: inp.take 3
    (buf.all fun c => c == '=' || isBase64 c) = true → nlen buf ≤ room →
      3 ≤ room ∧ Roomy (inp.drop 3) (room - nlen buf)
termination_by inp.length

/-- Where the decoder is and the room that it has left add up to `*out_sz`, and the room has not
wrapped around. -/
structure Decoder.Within (s : Decoder) (outSz : SizeT) : Prop where
  sum : s.pout + s.totSz = outSz
  le : s.totSz ≤ outSz

/-- Nothing is written at `*out_sz` or behind. -/
def Decoder.Inside (s : Decoder) (outSz : SizeT) : Prop := ∀ i, outSz ≤ i → s.out i = none

section Chunk

variable {s : Decoder} {outSz i : SizeT} {buf inp : List Char}

/-- A chunk for whose bytes there is room takes as much from the room as it goes on. -/
theorem Decoder.Within.chunk (h : s.Within outSz) (hle : nlen buf ≤ s.totSz) :
    (s.chunk buf).Within outSz := by
  obtain ⟨rfl, hsz⟩ := h
  constructor
  · simp only [Decoder.chunk]
    bv_omega
  · simp only [Decoder.chunk]
    bv_omega

/-- A position behind the room that is left. -/
theorem Decoder.Within.dist (h : s.Within outSz) (hi : outSz ≤ i) :
    s.totSz.toNat ≤ (i - s.pout).toNat := by
  obtain ⟨rfl, hsz⟩ := h
  bv_omega

/-- With room for three bytes the decoder stays inside when it decodes a chunk. -/
theorem Decoder.Inside.chunk (h : s.Inside outSz) (hin : s.Within outSz) (hroom : 3 ≤ s.totSz) :
    (s.chunk buf).Inside outSz := by
  intro i hi
  have hdist := hin.dist hi
  have h3 : 3 ≤ s.totSz.toNat := BitVec.le_def.mp hroom
  exact (write_of_le (Nat.le_trans h3 hdist)).trans (h i hi)

/-- With room for less than three bytes it does not: the byte at `*out_sz` is one of the three that
it writes. -/
theorem chunk_outside (hin : s.Within outSz) (hroom : ¬ 3 ≤ s.totSz) :
    (s.chunk buf).out outSz ≠ none := by
  have hpos : outSz - s.pout = s.totSz := by
    rw [← hin.sum]
    bv_omega
  have h3 : s.totSz.toNat < 3 := Nat.lt_of_not_le fun h => hroom (BitVec.le_def.mpr h)
  have hlt : (outSz - s.pout).toNat < (chunkDecode (buf.getD 0 '\x00') (buf.getD 1 '\x00')
    (buf.getD 2 '\x00')
      (buf.getD 3 '\x00')).length := by rw [hpos]; exact h3
  simp only [Decoder.chunk, getElem?_write hlt, List.getElem?_eq_getElem hlt]
  exact Option.some_ne_none _

/-- A store does not make a byte unwritten again. -/
theorem write_ne_none {out : Buffer} {p : SizeT} {bytes : List Byte} (h : out i ≠ none) :
    out.write p bytes i ≠ none := by
  unfold Buffer.write
  split
  · exact Option.some_ne_none _
  · exact h

/-- What is written stays written, to the end of the loop. -/
theorem decodeLoop_written (h : s.out i ≠ none) : (decodeLoop inp s).1.out i ≠ none := by
  fun_induction decodeLoop inp s with
  | case1 => exact h
  | case2 s c inp buf hvalid hle ih => exact ih (write_ne_none h)
  | case3 => exact h
  | case4 => exact h

/-- The room is right at the end of the loop, whether it gets through or not. -/
theorem decodeLoop_within (hin : s.Within outSz) : (decodeLoop inp s).1.Within outSz := by
  fun_induction decodeLoop inp s with
  | case1 => exact hin
  | case2 s c inp buf hvalid hle ih => exact ih (hin.chunk hle)
  | case3 => exact hin
  | case4 => exact hin

/-- **The decoder stays inside exactly when** it finds room for every chunk. -/
theorem decodeLoop_inside_iff (hin : s.Within outSz) (h : s.Inside outSz) :
    (decodeLoop inp s).1.Inside outSz ↔ Roomy inp s.totSz := by
  fun_induction decodeLoop inp s with
  | case1 s =>
    rw [Roomy]
    exact iff_of_true h trivial
  | case2 s c inp buf hvalid hle ih =>
    rw [Roomy]
    by_cases hroom : 3 ≤ s.totSz
    · rw [ih (hin.chunk hle) (h.chunk hin hroom)]
      exact ⟨fun hrest _ _ => ⟨hroom, hrest⟩, fun hall => (hall hvalid hle).2⟩
    · refine iff_of_false (fun hinside => ?_) fun hall => hroom (hall hvalid hle).1
      -- the position behind the buffer is written, and stays so
      exact decodeLoop_written (chunk_outside hin hroom) (hinside outSz (BitVec.le_refl outSz))
  | case3 s c inp buf hvalid hle =>
    rw [Roomy]
    exact iff_of_true h fun _ h => absurd h hle
  | case4 s c inp buf hvalid =>
    rw [Roomy]
    exact iff_of_true h fun h => absurd h hvalid

end Chunk

/-- **`u_b64_decode` writes nothing at `*out_sz` or behind exactly when** it finds room for every
chunk.  The size that it sets is never more than it was.  `chunk_decode` writes three bytes whatever
the padding, while the test before it asks for room for those that count. -/
theorem decode_bounds_iff (s : List Char) (outSz : SizeT) :
    ((∀ i, outSz ≤ i → (decode s outSz).1 i = none) ∧ ((decode s outSz).2.2 = true →
      (decode s outSz).2.1 ≤ outSz)) ↔ Roomy s outSz := by
  have hin : Decoder.Within ⟨fun _ => none, 0, outSz⟩ outSz :=
    ⟨BitVec.zero_add outSz, BitVec.le_refl outSz⟩
  have hrun := @decodeLoop_inside_iff _ outSz s hin fun _ _ => rfl
  have hend := @decodeLoop_within _ outSz s hin
  unfold decode
  by_cases hnil : s = []
  · subst hnil
    rw [if_pos rfl, Roomy]
    exact iff_of_true ⟨fun _ _ => rfl, fun h => (by cases h)⟩ trivial
  · rw [if_neg hnil]
    rw [← hrun]
    cases hloop : decodeLoop s ⟨fun _ => none, 0, outSz⟩ with
    | mk s' ok =>
      rw [hloop] at hend
      have hsize : outSz - s'.totSz ≤ outSz := by
        have hle := hend.le
        bv_omega
      cases ok with
      | true => exact and_iff_left fun _ => hsize
      | false => exact and_iff_left fun h => (by cases h)

/-- Two bytes, with room for two: the third one is written behind them. -/
theorem decode_overruns : (∀ c ∈ ['Z', 'm', '8', '='], c.toNat < 128) ∧
    (decode ['Z', 'm', '8', '='] 2).1 2 ≠ none := by
  refine ⟨List.all_iff_forall_prop.mp (by decide), fun hout => ?_⟩
  have hloop : decodeLoop ['Z', 'm', '8', '='] ⟨fun _ => none, 0, 2⟩ =
      (Decoder.chunk ⟨fun _ => none, 0, 2⟩ ['Z', 'm', '8', '='], true) := by
    refine (decodeLoop_cons (by decide) (by decide)).trans ?_
    rw [List.drop_succ_cons, List.drop_succ_cons, List.drop_succ_cons, List.drop_zero, decodeLoop]
    rfl
  rw [decode, if_neg (List.cons_ne_nil _ _), hloop] at hout
  have hin : Decoder.Within ⟨fun _ => none, 0, 2⟩ 2 := ⟨rfl, BitVec.le_refl 2⟩
  exact chunk_outside hin (by decide) hout

end Libu.B64
