/-
# Moving all of a chunk (`u_io`, `u_read`, `u_write` of `toolbox/misc.c`)

`u_io` calls an I/O function until the chunk is through, restarting it when a signal interrupts.

There is nothing in the loop that bounds its turns: each interruption is one more, and a function
that moves nothing and is always interrupted would keep it for ever.  That the loop ends is a
consequence of what POSIX says of the function, and `Obeys` has no more of that than is used: a
result is the number of bytes that were moved, or a failure with its `errno`, and interruptions come
to an end.

* §1 is the code.  The I/O function is a parameter and works on a state of any type, which holds
  the file and the bytes of the buffer; it is handed its place in the buffer as an offset.
* §2: what POSIX has a `read` or a `write` do (`Obeys`), and the calls as they were made
  (`traced`).
* §3: the loop.  What moved up to a call is what lies before its place (`Account`).
* §4: `u_io` and its two callers (`io_exact`).
-/
import Libu.Verif.Mem

namespace Libu.Io

open Verif

/-! ## 1. The code -/

/-- `SSIZE_MAX` -/
def ssizeMax : Nat := 2 ^ 63 - 1

def eintr : Int := 4

/-- An `ssize_t` as a `size_t`. -/
def asSize (n : Int) : Nat := (n % 2 ^ 64).toNat

/-- What an I/O function returns, and the `errno` that it leaves. -/
structure Answer where
  nret : Int
  errno : Int
deriving DecidableEq

/-- An I/O function: from a state, an offset in the buffer and a number of bytes. -/
abbrev Iof (σ : Type) := σ → Nat → Nat → Answer × σ

section

variable {σ : Type}

/-- The loop: `nleft`, `*eof`, and the state after it. -/
def ioLoop (f : Iof σ) : Nat → σ → Nat → Nat → Option (Nat × Int × σ)
  | 0, _, _, _ => none
  | fuel + 1, s, p, nleft =>
    if nleft > 0 then
      if (f s p nleft).1.nret = -1 then
        if (f s p nleft).1.errno = eintr then ioLoop f fuel (f s p nleft).2 p nleft
        else some (nleft, 0, (f s p nleft).2)
      else if (f s p nleft).1.nret = 0 then some (nleft, 1, (f s p nleft).2)
      else ioLoop f fuel (f s p nleft).2 (SizeT.add p (asSize (f s p nleft).1.nret))
        (SizeT.sub nleft (asSize (f s p nleft).1.nret))
    else some (nleft, 0, s)

/-- What `u_io` returns, what it stores in `*n` and `*eof` (where they are not `NULL`), and the
state after it. -/
structure Exit (σ : Type) where
  ret : Int
  n : Int
  eof : Int
  state : σ

/-- `u_io` -/
def uIo (f : Iof σ) (fuel : Nat) (s : σ) (l : Nat) : Option (Exit σ) := do
  let (nleft, eof, s) ← ioLoop f fuel s 0 l
  some ⟨if nleft = 0 then 0 else -1, SizeT.toSigned (SizeT.sub l nleft), eof, s⟩

/-- `u_read`, with the function that `read` is. -/
def uRead (read : Iof σ) (fuel : Nat) (s : σ) (size : Nat) : Option (Int × σ) := do
  let io ← uIo read fuel s size
  if io.ret ≠ 0 then
    if io.eof ≠ 0 then some (io.n, io.state)
    else some (-1, io.state)
  else some (io.n, io.state)

/-- `u_write`, with the function that `write` is. -/
def uWrite (write : Iof σ) (fuel : Nat) (s : σ) (size : Nat) : Option (Int × σ) := do
  let io ← uIo write fuel s size
  if io.ret ≠ 0 then some (-1, io.state)
  else some (SizeT.toSigned size, io.state)

/-! ## 2. The I/O function and its calls -/

/-- From `s`, the call is interrupted and leaves `s'`. -/
def Interrupted (f : Iof σ) (p want : Nat) (s' s : σ) : Prop :=
  (f s p want).1.nret = -1 ∧ (f s p want).1.errno = eintr ∧ (f s p want).2 = s'

/-- `f` moves some of the bytes it is asked for, or answers 0 at the end of the file, or fails; it
is not interrupted forever. -/
structure Obeys (f : Iof σ) : Prop where
  bounded : ∀ s p want, 0 < want →
    (f s p want).1.nret = -1 ∨ 0 ≤ (f s p want).1.nret ∧ (f s p want).1.nret ≤ want
  settles : ∀ p want, WellFounded (Interrupted f p want)

/-- A chunk: POSIX has no call that moves more bytes than an `ssize_t` counts. -/
structure Chunk where
  l : Nat
  le : l ≤ ssizeMax

structure Call where
  off : Nat
  want : Nat
  answer : Answer

/-- The places of the buffer that the call moved, if any. -/
def Call.places (c : Call) : List Nat := List.range' c.off c.answer.nret.toNat

def Call.Eof (c : Call) : Prop := c.answer.nret = 0

/-- An error other than `EINTR`. -/
def Call.Failed (c : Call) : Prop := c.answer.nret = -1 ∧ c.answer.errno ≠ eintr

/-- `f`, with its calls written down. -/
def traced (f : Iof σ) : Iof (σ × List Call) := fun s p want =>
  ((f s.1 p want).1, (f s.1 p want).2, s.2 ++ [⟨p, want, (f s.1 p want).1⟩])

/-- The calls moved the first `p` places of the buffer, in their order and each of them once. -/
def Account (calls : List Call) (p : Nat) : Prop := calls.flatMap Call.places = List.range p

/-- The last call, if there is one. -/
def Ended (P : Call → Prop) (calls : List Call) : Prop := ∃ c ∈ calls.getLast?, P c

instance : DecidablePred Call.Eof := fun c => inferInstanceAs (Decidable (c.answer.nret = 0))

instance {P : Call → Prop} [DecidablePred P] (calls : List Call) : Decidable (Ended P calls) :=
  inferInstanceAs (Decidable (∃ c ∈ calls.getLast?, P c))

/-! ## 3. The loop -/

variable {f : Iof σ} {s : σ} {calls : List Call} {p nleft : Nat} {c : Call}

theorem account_nil : Account [] 0 := rfl

/-- What a call at `p` moves lies behind what has been moved. -/
theorem Account.snoc (h : Account calls c.off) :
    Account (calls ++ [c]) (c.off + c.answer.nret.toNat) := by
  rw [Account] at h ⊢
  have happ := List.range'_append_1 (s := 0) (m := c.off) (n := c.answer.nret.toNat)
  rw [Nat.zero_add] at happ
  rw [List.flatMap_append, h, List.flatMap_singleton, Call.places, List.range_eq_range',
    List.range_eq_range']
  exact happ

@[simp] theorem ended_snoc {P : Call → Prop} : Ended P (calls ++ [c]) ↔ P c := by
  simp [Ended]

theorem asSize_of_le {n : Int} (h0 : 0 ≤ n) (h : n ≤ ssizeMax) : asSize n = n.toNat := by
  unfold asSize
  unfold ssizeMax at h
  omega

/-- What the loop leaves of `l` bytes: the first `q` places are through, and the last call tells why
there are no more. -/
structure Done (calls : List Call) (l q : Nat) (eof : Int) : Prop where
  account : Account calls q
  le : q ≤ l
  eof_iff : eof = 1 ↔ Ended Call.Eof calls
  flag : eof = 0 ∨ eof = 1
  why : q = l ∨ Ended Call.Eof calls ∨ Ended Call.Failed calls

theorem Account.stay (h : Account calls c.off) (hnone : c.answer.nret ≤ 0) :
    Account (calls ++ [c]) c.off := by
  have hall := h.snoc
  rw [Int.toNat_of_nonpos hnone, Nat.add_zero] at hall
  exact hall

section

variable {fuel : Nat} (hpos : 0 < nleft)

include hpos

theorem turn_restart (hfail : (f s p nleft).1.nret = -1) (hintr : (f s p nleft).1.errno = eintr) :
    ioLoop f (fuel + 1) s p nleft = ioLoop f fuel (f s p nleft).2 p nleft := by
  rw [ioLoop, if_pos hpos, if_pos hfail, if_pos hintr]

theorem turn_fail (hfail : (f s p nleft).1.nret = -1) (hintr : (f s p nleft).1.errno ≠ eintr) :
    ioLoop f (fuel + 1) s p nleft = some (nleft, 0, (f s p nleft).2) := by
  rw [ioLoop, if_pos hpos, if_pos hfail, if_neg hintr]

theorem turn_eof (heof : (f s p nleft).1.nret = 0) :
    ioLoop f (fuel + 1) s p nleft = some (nleft, 1, (f s p nleft).2) := by
  rw [ioLoop, if_pos hpos, if_neg (by omega), if_pos heof]

/-- The place and the rest are what they are without wrapping around. -/
theorem turn_move (hl : p + nleft ≤ ssizeMax) (hge : 0 < (f s p nleft).1.nret)
    (hle : (f s p nleft).1.nret ≤ nleft) :
    ioLoop f (fuel + 1) s p nleft = ioLoop f fuel (f s p nleft).2
      (p + (f s p nleft).1.nret.toNat) (nleft - (f s p nleft).1.nret.toNat) := by
  unfold ssizeMax at hl
  have hsize := asSize_of_le (Int.le_of_lt hge)
    (by unfold ssizeMax; omega : (f s p nleft).1.nret ≤ (ssizeMax : Int))
  have hadd : SizeT.add p (f s p nleft).1.nret.toNat = p + (f s p nleft).1.nret.toNat :=
    SizeT.add_of_lt (by omega)
  have hsub : SizeT.sub nleft (f s p nleft).1.nret.toNat = nleft - (f s p nleft).1.nret.toNat :=
    SizeT.sub_of_le (by omega) (by omega)
  rw [ioLoop, if_pos hpos, if_neg (by omega), if_neg (by omega), hsize, hadd, hsub]

end

/-- **The loop ends, and has moved what lies before its place.** -/
theorem ioLoop_spec (hf : Obeys f) (hl : p + nleft ≤ ssizeMax) (h : Account calls p)
    (hgo : ¬ Ended Call.Eof calls) :
    ∃ enough q eof s', Done s'.2 (p + nleft) q eof ∧ ∀ fuel,
      ioLoop (traced f) (enough + fuel) (s, calls) p nleft = some (p + nleft - q, eof, s') := by
  induction nleft using Nat.strongRecOn generalizing p s calls with
  | _ nleft ih =>
    rcases Nat.eq_zero_or_pos nleft with rfl | hpos
    · refine ⟨1, p, 0, (s, calls), ⟨h, Nat.le_refl p, ?_, .inl rfl, .inl rfl⟩, fun fuel => ?_⟩
      · exact iff_of_false (by decide) hgo
      · rw [Nat.add_comm, ioLoop, if_neg (Nat.lt_irrefl 0), Nat.add_zero, Nat.sub_self]
    · -- interruptions are gone through at one place, until there are no more
      induction s using (hf.settles p nleft).induction generalizing calls with
      | _ s ihs =>
        by_cases hfail : (f s p nleft).1.nret = -1
        · have hstay := Account.stay (c := ⟨p, nleft, (f s p nleft).1⟩) h (by dsimp only; omega)
          have hgo' : ¬ Ended Call.Eof (calls ++ [⟨p, nleft, (f s p nleft).1⟩]) := by
            rw [ended_snoc, Call.Eof]
            dsimp only
            omega
          by_cases hintr : (f s p nleft).1.errno = eintr
          · obtain ⟨enough, q, eof, s', hdone, hrun⟩ := ihs _ ⟨hfail, hintr, rfl⟩ hstay hgo'
            refine ⟨enough + 1, q, eof, s', hdone, fun fuel => ?_⟩
            rw [Nat.add_right_comm]
            exact (turn_restart (f := traced f) (s := (s, calls)) hpos hfail hintr).trans
              (hrun fuel)
          · refine ⟨1, p, 0, ((f s p nleft).2, calls ++ [⟨p, nleft, (f s p nleft).1⟩]),
              ⟨hstay, Nat.le_add_right p nleft, ?_, .inl rfl, .inr (.inr ?_)⟩, fun fuel => ?_⟩
            · exact iff_of_false (by decide) hgo'
            · exact ended_snoc.mpr ⟨hfail, hintr⟩
            · rw [Nat.add_comm 1, Nat.add_sub_cancel_left]
              exact turn_fail (f := traced f) (s := (s, calls)) hpos hfail hintr
        · obtain ⟨hge, hle⟩ := (hf.bounded s p nleft hpos).resolve_left hfail
          by_cases heof : (f s p nleft).1.nret = 0
          · have hstay := Account.stay (c := ⟨p, nleft, (f s p nleft).1⟩) h (Int.le_of_eq heof)
            have hend : Ended Call.Eof (calls ++ [⟨p, nleft, (f s p nleft).1⟩]) :=
              ended_snoc.mpr heof
            refine ⟨1, p, 1, ((f s p nleft).2, calls ++ [⟨p, nleft, (f s p nleft).1⟩]),
              ⟨hstay, Nat.le_add_right p nleft, ?_, .inr rfl, .inr (.inl hend)⟩, fun fuel => ?_⟩
            · exact iff_of_true rfl hend
            · rw [Nat.add_comm 1, Nat.add_sub_cancel_left]
              exact turn_eof (f := traced f) (s := (s, calls)) hpos heof
          · -- the rest of the chunk is shorter
            have hrest : p + (f s p nleft).1.nret.toNat +
                (nleft - (f s p nleft).1.nret.toNat) = p + nleft := by omega
            have hgo' : ¬ Ended Call.Eof (calls ++ [⟨p, nleft, (f s p nleft).1⟩]) := by
              rw [ended_snoc]
              exact heof
            obtain ⟨enough, q, eof, s', hdone, hrun⟩ :=
              ih (nleft - (f s p nleft).1.nret.toNat) (by omega) (s := (f s p nleft).2)
                (hrest ▸ hl) (Account.snoc (c := ⟨p, nleft, (f s p nleft).1⟩) h) hgo'
            rw [hrest] at hdone hrun
            refine ⟨enough + 1, q, eof, s', hdone, fun fuel => ?_⟩
            have hpos' : 0 < (f s p nleft).1.nret := by omega
            rw [Nat.add_right_comm]
            exact (turn_move (f := traced f) (s := (s, calls)) hpos hl hpos' hle).trans (hrun fuel)

/-! ## 4. The whole chunk -/

/-- What `u_io` shows for its calls: `moved` of `l` bytes are through. -/
structure Exact (l moved : Nat) (calls : List Call) (io : Exit (σ × List Call)) : Prop where
  account : Account calls moved
  le : moved ≤ l
  ret_iff : io.ret = 0 ↔ moved = l
  n_eq : io.n = moved
  eof_iff : io.eof = 1 ↔ Ended Call.Eof calls
  flag : io.eof = 0 ∨ io.eof = 1
  why : moved = l ∨ Ended Call.Eof calls ∨ Ended Call.Failed calls

theorem uIo_spec (hf : Obeys f) (s : σ) (buf : Chunk) :
    ∃ enough moved io, Exact buf.l moved io.state.2 io ∧
      ∀ fuel, uIo (traced f) (enough + fuel) (s, []) buf.l = some io := by
  have hmax := buf.le
  have hnone : ¬ Ended Call.Eof [] := fun ⟨c, hc, _⟩ => by cases hc
  have hwhole : 0 + buf.l ≤ ssizeMax := by
    rw [Nat.zero_add]
    exact hmax
  obtain ⟨enough, q, eof, s', hdone, hloop⟩ := ioLoop_spec (s := s) hf hwhole account_nil hnone
  rw [Nat.zero_add] at hdone hloop
  obtain ⟨hacc, hle, heof, hflag, hwhy⟩ := hdone
  unfold ssizeMax at hmax
  have hn : SizeT.toSigned (SizeT.sub buf.l (buf.l - q)) = (q : Int) := by
    rw [SizeT.sub_of_le (by omega) (by omega), Nat.sub_sub_self hle,
      SizeT.toSigned_of_lt (by omega)]
  refine ⟨enough, q, ⟨if buf.l - q = 0 then 0 else -1, q, eof, s'⟩,
    ⟨hacc, hle, ?_, rfl, heof, hflag, hwhy⟩, fun fuel => ?_⟩
  · split
    · exact iff_of_true rfl (by omega)
    · exact iff_of_false (by dsimp only; omega) (by omega)
  · rw [uIo, hloop]
    dsimp only [Option.bind_eq_bind, Option.bind_some]
    rw [hn]

section

variable {fuel l moved : Nat} {x : σ × List Call} {g : Iof (σ × List Call)}
  {io : Exit (σ × List Call)} (h : uIo g fuel x l = some io) (hex : Exact l moved calls io)

include h hex

theorem uRead_eq : uRead g fuel x l =
    some (if moved = l ∨ Ended Call.Eof calls then (moved : Int) else -1, io.state) := by
  rw [uRead, h]
  dsimp only [Option.bind_eq_bind, Option.bind_some]
  by_cases hall : moved = l
  · rw [if_neg (not_not.mpr (hex.ret_iff.mpr hall)), if_pos (.inl hall), hex.n_eq]
  · rw [if_pos (hall ∘ hex.ret_iff.mp)]
    by_cases hend : Ended Call.Eof calls
    · have heof := hex.eof_iff.mpr hend
      rw [if_pos (by omega), if_pos (.inr hend), hex.n_eq]
    · have heof := hex.flag.resolve_right (hend ∘ hex.eof_iff.mp)
      rw [if_neg (not_not.mpr heof), if_neg (not_or.mpr ⟨hall, hend⟩)]

theorem uWrite_eq (hl : l ≤ ssizeMax) :
    uWrite g fuel x l = some (if moved = l then (l : Int) else -1, io.state) := by
  rw [uWrite, h]
  dsimp only [Option.bind_eq_bind, Option.bind_some]
  by_cases hall : moved = l
  · unfold ssizeMax at hl
    rw [if_neg (not_not.mpr (hex.ret_iff.mpr hall)), if_pos hall, SizeT.toSigned_of_lt (by omega)]
  · rw [if_pos (hall ∘ hex.ret_iff.mp), if_neg hall]

end

/-- **What was moved is the first part of the chunk, each byte once and in order, and the callers
are told how much it is and why it is no more.**  The function that moves bytes may do so in any
portions, be interrupted any number of times, end and fail; the loop is shown to end with enough
fuel, and with the same result for any more. -/
theorem io_exact (hf : Obeys f) (s : σ) (buf : Chunk) :
    ∃ enough moved io, Exact buf.l moved io.state.2 io ∧ ∀ fuel,
      uIo (traced f) (enough + fuel) (s, []) buf.l = some io ∧
      uRead (traced f) (enough + fuel) (s, []) buf.l =
        some (if moved = buf.l ∨ Ended Call.Eof io.state.2 then (moved : Int) else -1, io.state) ∧
      uWrite (traced f) (enough + fuel) (s, []) buf.l =
        some (if moved = buf.l then (buf.l : Int) else -1, io.state) := by
  obtain ⟨enough, moved, io, hex, hrun⟩ := uIo_spec hf s buf
  exact ⟨enough, moved, io, hex, fun fuel =>
    ⟨hrun fuel, uRead_eq (hrun fuel) hex, uWrite_eq (hrun fuel) hex buf.le⟩⟩

end

/-- Answers that are read from a list; the file ends with it. -/
def scripted : Iof (List Answer)
  | [], _, _ => (⟨0, 0⟩, [])
  | a :: s, _, want => (if 0 < a.nret ∧ a.nret ≤ want then a else ⟨-1, a.errno⟩, s)

theorem scripted_obeys : Obeys scripted where
  bounded s p want _ := by
    cases s with
    | nil => exact .inr ⟨Int.le_refl 0, Int.natCast_nonneg want⟩
    | cons a s =>
      rw [scripted]
      by_cases hmoves : 0 < a.nret ∧ a.nret ≤ want
      · rw [if_pos hmoves]
        exact .inr ⟨Int.le_of_lt hmoves.1, hmoves.2⟩
      · rw [if_neg hmoves]
        exact .inl rfl
  settles p want := by
    refine Subrelation.wf (r := (measure List.length).rel) ?_ (measure List.length).wf
    rintro s' s ⟨hfail, -, hnext⟩
    cases s with
    | nil => cases hfail
    | cons a s =>
      obtain rfl : s = s' := hnext
      exact Nat.lt_succ_self s.length

/-- Two bytes, an interruption, two more bytes and the end of the file, for a chunk of five. -/
theorem io_exact_short : ∃ enough moved io, Exact 5 moved io.state.2 io ∧ ∀ fuel,
    uIo (traced scripted) (enough + fuel) ([⟨2, 0⟩, ⟨-1, eintr⟩, ⟨2, 0⟩], []) 5 = some io := by
  obtain ⟨enough, moved, io, hex, hrun⟩ :=
    io_exact scripted_obeys [⟨2, 0⟩, ⟨-1, eintr⟩, ⟨2, 0⟩] ⟨5, by decide⟩
  exact ⟨enough, moved, io, hex, fun fuel => (hrun fuel).1⟩

example : uRead scripted 9 [⟨2, 0⟩, ⟨-1, eintr⟩, ⟨2, 0⟩] 5 = some (4, []) := by decide

end Libu.Io
