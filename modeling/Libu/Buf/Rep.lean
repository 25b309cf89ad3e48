/-
# The representation of a buffer

The used length is at most the size, `size + 1` bytes are allocated when there are data, and the
byte behind the used ones is zero (`Rep`).  The comments in `u_buf_reserve` and `u_buf_append`
promise the last of these; `u_buf_clear`, `u_buf_shrink` and `u_buf_load` do not keep it,
`u_buf_reserve` does not for a buffer without data, and `u_buf_set` and `u_buf_printf` do not when
there is no memory.

* §1: the calls that store and grow.
* §2: when a call keeps the representation (`Keeps`), call by call.
* §3: runs (`rep_run_iff`).

The first two parts of `Rep` are kept by every call (`Sound`), so for each call the question is what
the byte at the new length is (`Sound.rep_iff`).  `u_buf_append` asks for memory that is always
enough for its bytes, except where the sum of the lengths does not fit a `size_t`: then the block is
too small and a byte goes out of it, which is what `Room` says.  `u_buf_printf` is a loop; in each
of its rounds the byte behind those in use is the first one of the text that has just been cut, so
it spoils the NUL until the round in which the text fits.
-/
import Libu.Buf.Basic

namespace Libu.Buf

open Verif

/-- The representation of a buffer, as the comments of the source promise it: the sizes fit the
block (`Sound`), and the byte behind those in use is a NUL if there is a block at all, so that
`u_buf_ptr` may always be read as the string of the bytes in use. -/
structure Rep (b : Buf) : Prop extends Sound b where
  nul : b.Zero b.len

section

variable {b b' : Buf} {size off i : Nat} {alloc : Alloc} {junk : Nat → UInt8}
    {data text bs : List UInt8}

/-! ## 1. Storing and growing -/

/-- A new buffer has no byte behind those in use, so there is none that could be wrong. -/
theorem rep_create : Rep create := ⟨sound_create, fun _ h => by cases h⟩

/-- Clearing leaves the sizes as they are. -/
theorem Sound.clear (h : Sound b) : Sound b.clear := h.with_len (Nat.zero_le _)

/-- The buffer with `data` behind what is in use, and a NUL behind them. -/
def appended (b : Buf) (data : List UInt8) : Buf :=
  ({ b.overlaid b.len data with len := b.len + data.length } : Buf).overlaid
  (b.len + data.length) [0]

/-- Where the bytes fit, appending them leaves the representation. -/
theorem Sound.rep_appended (h : Sound b) (hfit : b.len + data.length ≤ b.size) :
    Rep (b.appended data) :=
  ⟨((h.overlaid b.len data).with_len hfit).overlaid _ _, zero_overlaid_nul _ _⟩

/-- The second half of `u_buf_append`, when there is memory enough by its own account: the copy, the
new length, and the NUL. -/
def put (b : Buf) (data : List UInt8) : Option (Int × Buf) := do
  let b ← b.store b.len data
  let b := { b with len := SizeT.add b.len data.length }
  let b ← b.store b.len [0]
  some (0, b)

/-- Bytes that fit behind those in use are appended. -/
theorem Sound.put (h : Sound b) (hne : data ≠ []) (hfit : b.len + data.length ≤ b.size) :
    b.put data = some (0, b.appended data) := by
  have hpos := List.length_pos_of_ne_nil hne
  obtain ⟨d, hd⟩ := h.exists_data (by omega)
  have hdata : b.data ≠ none := by
    rw [hd]
    exact Option.some_ne_none d
  have hstore := h.store b.len data hdata (Nat.le_succ_of_le hfit)
  have hnul := ((h.overlaid b.len data).with_len hfit).store (b.len + data.length) [0]
    (by simpa [Buf.overlaid] using hdata) (Nat.succ_le_succ hfit)
  rw [Buf.put, hstore]
  dsimp only [Option.bind_eq_bind, Option.bind_some, overlaid_len]
  rw [add_len_eq h hfit, hnul]
  rfl

/-- Bytes that do not fit are stored out of the block. -/
theorem Sound.put_out (h : Sound b) (hne : data ≠ []) (hout : b.size < b.len + data.length) :
    b.put data = none := by
  have hbound := h.bound
  have hle := h.le
  by_cases hlong : b.size + 1 < b.len + data.length
  · rw [Buf.put, h.store_out hne hlong]
    rfl
  · have heq : b.len + data.length = b.size + 1 := by omega
    cases hd : b.data with
    | none =>
      rw [Buf.put, Buf.store, hd]
      dsimp only
      rw [if_neg hne]
      rfl
    | some d =>
      have hstore := h.store b.len data (by rw [hd]; exact Option.some_ne_none d) (by omega)
      have hadd : SizeT.add b.len data.length = b.size + 1 := by
        rw [SizeT.add_of_lt (by omega), heq]
      have hnul : ({ b.overlaid b.len data with len := b.size + 1 } : Buf).store
        (b.size + 1) [0] = none := by
        rw [Buf.store, Buf.overlaid, hd]
        dsimp only [Option.map_some]
        rw [Block.store_of_lt (by rw [h.alloc d hd]; exact Nat.lt_succ_self _)]
        rfl
      rw [Buf.put, hstore]
      dsimp only [Option.bind_eq_bind, Option.bind_some, overlaid_len]
      rw [hadd, hnul]
      rfl

/-- The size that `u_buf_append` asks for, when there is not enough space for `n` bytes: what it
has, what is in use, and twice the bytes.  Each sum of these may wrap around. -/
def generous (b : Buf) (n : Nat) : Nat := SizeT.add (SizeT.add b.size b.len) (SizeT.shl1 n)

/-- Bytes that fit are appended without asking for memory. -/
theorem append_fits (h : Sound b) (hne : data ≠ []) (hfit : b.len + data.length ≤ b.size) :
    b.append data alloc = some (0, b.appended data) := by
  have hlen : data.length ≠ 0 := fun hnil => hne (List.length_eq_zero_iff.mp hnil)
  rw [← h.put hne hfit, append, if_neg hlen, if_neg (by rw [sub_eq h]; omega)]
  rfl

/-- Bytes that do not fit make the block grow first, to a generous size. -/
theorem append_grows (h : Sound b) (hne : data ≠ []) (hout : b.size < b.len + data.length) :
    b.append data alloc = b.reserve (b.generous data.length) alloc >>= fun r =>
      if r.1 ≠ 0 then some (-1, r.2) else r.2.put data := by
  have hlen : data.length ≠ 0 := fun hnil => hne (List.length_eq_zero_iff.mp hnil)
  have hle := h.le
  rw [append, if_neg hlen, if_pos (by rw [sub_eq h]; omega)]
  rfl

/-- There is space for `n` bytes, or the block grows to a size that has, or there is no memory and
the call is refused. -/
def Room (b : Buf) (n : Nat) (alloc : Alloc) : Prop :=
  b.len + n ≤ b.size ∨
    b.size < b.generous n ∧ b.Asks (b.generous n) alloc ∧
      (alloc ≠ none → b.len + n ≤ b.generous n)

/-- **With room**, the bytes are put behind the used ones, or nothing changes because there is no
memory. -/
theorem append_room (h : Sound b) (hne : data ≠ []) (hroom : b.Room data.length alloc) :
    (b.size < b.len + data.length ∧ alloc = none ∧ b.append data alloc = some (-1, b)) ∨
      ((b.len + data.length ≤ b.size ∨ alloc ≠ none) ∧ ∃ b', b.append data alloc = some
        (0, b') ∧ Rep b') := by
  by_cases hfit : b.len + data.length ≤ b.size
  · exact .inr ⟨.inl hfit, _, append_fits h hne hfit, h.rep_appended hfit⟩
  · have hout := Nat.not_le.mp hfit
    obtain ⟨hgrow, hasks, hmem⟩ := hroom.resolve_left hfit
    rw [append_grows h hne hout]
    cases alloc with
    | none =>
      rw [reserve_none hgrow hasks]
      exact .inl ⟨hout, rfl, rfl⟩
    | some junk =>
      have hsize : b.generous data.length + 1 < 2 ^ 64 := hasks
      have hfit := hmem (Option.some_ne_none junk)
      have hgrown := h.grown junk hgrow hsize
      rw [reserve_some hgrow hsize]
      exact .inr ⟨.inr (Option.some_ne_none junk), _, hgrown.put hne hfit, hgrown.rep_appended hfit⟩

/-- **Without room**, a byte is stored out of the block: the size that is asked for has wrapped
around. -/
theorem append_out (h : Sound b) (hne : data ≠ []) (hroom : ¬ b.Room data.length alloc) :
    b.append data alloc = none := by
  obtain ⟨hfit, hgrow⟩ := not_or.mp hroom
  have hout := Nat.not_le.mp hfit
  rw [append_grows h hne hout]
  by_cases hle : b.generous data.length ≤ b.size
  · rw [reserve_of_le hle]
    exact h.put_out hne hout
  · have hlt := Nat.not_le.mp hle
    by_cases hasks : b.Asks (b.generous data.length) alloc
    · cases alloc with
      | none => exact absurd ⟨hlt, hasks, fun hne => absurd rfl hne⟩ hgrow
      | some junk =>
        have hsize : b.generous data.length + 1 < 2 ^ 64 := hasks
        have hshort : b.generous data.length < b.len + data.length := by
          by_contra hnot
          exact hgrow ⟨hlt, hasks, fun _ => Nat.not_lt.mp hnot⟩
        rw [reserve_some hlt hsize]
        exact (h.grown junk hlt hsize).put_out hne hshort
    · rw [reserve_wrapped hlt hasks]
      rfl

/-! ## 2. Calls -/

/-- The call returns, and after it the representation holds; a byte that goes out of the block is
not all right. -/
def Ok (r : Option (Int × Buf)) : Prop := ∃ ret b, r = some (ret, b) ∧ Rep b

theorem ok_iff {ret : Int} : Ok (some (ret, b)) ↔ Rep b := by
  constructor
  · rintro ⟨ret', b', heq, hrep⟩
    obtain ⟨-, rfl⟩ := Prod.mk.inj (Option.some.inj heq)
    exact hrep
  · exact fun hrep => ⟨ret, b, rfl, hrep⟩

theorem not_ok : ¬ Ok none := fun ⟨_, _, h, _⟩ => by cases h

/-- What the representation adds to the sizes is the NUL behind the bytes in use. -/
theorem Sound.rep_iff (h : Sound b) : Rep b ↔ b.Zero b.len :=
  ⟨fun hrep => hrep.nul, fun hz => ⟨h, hz⟩⟩

/-- When `u_buf_reserve` keeps the representation: what it is asked for does not wrap around, and a
buffer that gets its first block gets one that starts with a zero, since a NUL is written behind its
last byte only. -/
def ReserveKeeps (b : Buf) (size : Nat) (alloc : Alloc) : Prop :=
  b.size < size → b.Asks size alloc ∧ ∀ junk ∈ alloc, b.data = none → junk 0 = 0

/-- `u_buf_reserve`, exactly. -/
theorem ok_reserve (h : Rep b) : Ok (b.reserve size alloc) ↔ b.ReserveKeeps size alloc := by
  by_cases hle : size ≤ b.size
  · rw [reserve_of_le hle, ok_iff]
    exact iff_of_true h fun hlt => absurd hle (Nat.not_le.mpr hlt)
  · have hlt := Nat.not_le.mp hle
    by_cases hasks : b.Asks size alloc
    · cases alloc with
      | none =>
        rw [reserve_none hlt hasks, ok_iff]
        exact iff_of_true h fun _ => ⟨hasks, fun _ hjunk => by cases hjunk⟩
      | some junk =>
        have hsize : size + 1 < 2 ^ 64 := hasks
        rw [reserve_some hlt hsize, ok_iff, (h.grown junk hlt hsize).rep_iff, grown_len,
          h.zero_grown_iff h.le hlt]
        constructor
        · intro hz _
          refine ⟨hasks, fun junk' hjunk hnone => ?_⟩
          obtain rfl := Option.some.inj hjunk
          have hlen : b.len = 0 := Nat.le_zero.mp (h.null hnone ▸ h.le)
          rw [if_pos hnone, hlen] at hz
          exact hz
        · intro hkeeps
          split
          · next hnone =>
            have hlen : b.len = 0 := Nat.le_zero.mp (h.null hnone ▸ h.le)
            rw [hlen]
            exact (hkeeps hlt).2 junk rfl hnone
          · exact h.nul
    · rw [reserve_wrapped hlt hasks]
      exact iff_of_false not_ok fun hkeeps => hasks (hkeeps hlt).1

/-- `u_buf_append`, exactly: nothing is appended, or the size that is asked for is enough. -/
theorem ok_append (h : Rep b) : Ok (b.append data alloc) ↔ data = [] ∨
    b.Room data.length alloc := by
  by_cases hnil : data = []
  · subst hnil
    exact iff_of_true ⟨-1, b, rfl, h⟩ (.inl rfl)
  · rw [or_iff_right hnil]
    by_cases hroom : b.Room data.length alloc
    · refine iff_of_true ?_ hroom
      rcases append_room h.toSound hnil hroom with ⟨-, -, heq⟩ | ⟨-, b', heq, hrep⟩
      · exact ⟨-1, b, heq, h⟩
      · exact ⟨0, b', heq, hrep⟩
    · rw [append_out h.toSound hnil hroom]
      exact iff_of_false not_ok hroom

/-- Room for the data, and a buffer that is empty, or has a zero in front, if there is no memory. -/
def SetKeeps (b : Buf) (data : List UInt8) (alloc : Alloc) : Prop :=
  data = [] ∨ b.clear.Room data.length alloc ∧ (b.size < data.length → alloc = none → b.Zero 0)

/-- `u_buf_set`, exactly. -/
theorem ok_set (h : Rep b) : Ok (b.set data alloc) ↔ b.SetKeeps data alloc := by
  by_cases hnil : data = []
  · subst hnil
    exact iff_of_true ⟨-1, b, rfl, h⟩ (.inl rfl)
  · have hlen : data.length ≠ 0 := fun hzero => hnil (List.length_eq_zero_iff.mp hzero)
    have hclear := h.toSound.clear
    rw [SetKeeps, or_iff_right hnil, set, if_neg hlen]
    by_cases hroom : b.clear.Room data.length alloc
    · have hadd : b.clear.len + data.length = data.length := Nat.zero_add _
      rcases append_room hclear hnil hroom with ⟨hout, hnone, heq⟩ | ⟨hfit, b', heq, hrep⟩
      · rw [heq, ok_iff, hclear.rep_iff, and_iff_right hroom]
        rw [hadd] at hout
        exact ⟨fun hz _ _ => hz, fun hz => hz hout hnone⟩
      · rw [heq, ok_iff]
        refine iff_of_true hrep ⟨hroom, fun hlt hnone => ?_⟩
        rcases hfit with hfit | hsome
        · rw [hadd] at hfit
          exact absurd hfit (Nat.not_le.mpr hlt)
        · exact absurd hnone hsome
    · rw [append_out hclear hnil hroom]
      exact iff_of_false not_ok fun hkeeps => hroom hkeeps.1

/-- When `u_buf_shrink` keeps the representation: the byte at the new length happens to be zero. -/
def ShrinkKeeps (b : Buf) (newlen : Nat) : Prop := newlen ≤ b.len → b.Zero newlen

/-- `u_buf_clear`, exactly: the first byte happens to be zero. -/
theorem rep_clear (h : Rep b) : Rep b.clear ↔ b.Zero 0 := h.toSound.clear.rep_iff

/-- `u_buf_shrink`, exactly. -/
theorem rep_shrink (h : Rep b) (n : Nat) : Rep (b.shrink n).2 ↔ b.ShrinkKeeps n := by
  rw [shrink]
  split
  · next hlt => exact iff_of_true h fun hle => absurd hlt (Nat.not_lt.mpr hle)
  · next hnot =>
    have hle := Nat.not_lt.mp hnot
    rw [(h.toSound.with_len (Nat.le_trans hle h.le)).rep_iff]
    exact ⟨fun hz _ => hz, fun hkeeps => hkeeps hle⟩

/-- In a block that is new, the first byte is what was in the new memory. -/
def StartsZero (b : Buf) (size : Nat) (alloc : Alloc) : Prop :=
  if b.size < size ∧ b.data = none then ∀ junk ∈ alloc, junk 0 = 0 else b.Zero 0

/-- The first byte that is read of a file, which is none for one that is empty or cannot be opened.
-/
def File.first (f : File) : Option UInt8 := if f.stSize = 0 then none else f.content.bind List.head?

/-- The whole file is read, and there is something in it. -/
def File.Whole (f : File) : Prop := f.stSize ≠ 0 ∧ ∃ content ∈ f.content, f.stSize ≤ content.length

/-- A file that is read is longer than any before it, or there happens to be a zero behind it; of
one that is not read, no byte is left in front, but a zero. -/
structure LoadKeeps (b : Buf) (f : File) (alloc : Alloc) : Prop where
  size : b.size < f.stSize → b.Asks f.stSize alloc
  whole : f.Whole → f.stSize ≤ b.size → b.Zero f.stSize
  refused : b.size < f.stSize → alloc = none → b.Zero 0
  short : ¬ f.Whole → (b.size < f.stSize → alloc ≠ none) → ∀ c ∈ f.first, c = 0
  unread : ¬ f.Whole → f.first = none → b.StartsZero f.stSize alloc

/-- The second half of `u_buf_load`, once there is memory: the bytes that are read go to the front
of the block, and they are in use if they are all of the file. -/
def fill (b : Buf) (f : File) : Option (Int × Buf) :=
  match f.content with
  | none => some (-1, b)
  | some content => do
    let b ← b.store 0 (content.take f.stSize)
    if f.stSize ≠ 0 ∧ f.stSize ≤ content.length then some (0, { b with len := f.stSize })
    else some (-1, b)

/-- When an open file is read whole. -/
theorem File.whole_iff {f : File} {content : List UInt8} (h : f.content = some content) :
    f.Whole ↔ f.stSize ≠ 0 ∧ f.stSize ≤ content.length := by
  rw [File.Whole, h]
  simp

/-- The first byte of what is read, if something is read, and of what was there otherwise. -/
theorem Sound.zero_read_iff (h : Sound b) {f : File} {content : List UInt8}
    (hc : f.content = some content)
    (hsize : f.stSize ≤ b.size) : (b.overlaid 0 (content.take f.stSize)).Zero 0 ↔
      if f.first = none then b.Zero 0 else ∀ c ∈ f.first, c = 0 := by
  rw [File.first, hc]
  by_cases hzero : f.stSize = 0
  · rw [if_pos hzero, if_pos rfl, hzero, List.take_zero]
    exact zero_overlaid_iff (.inr (Nat.le_refl 0))
  · rw [if_neg hzero]
    cases content with
    | nil =>
      rw [List.take_nil]
      exact zero_overlaid_iff (.inr (Nat.le_refl 0))
    | cons c content =>
      obtain ⟨d, hd⟩ := h.exists_data (by omega)
      obtain ⟨n, hn⟩ := Nat.exists_eq_succ_of_ne_zero hzero
      have hbyte : overlay d.byte 0 (c :: content.take n) 0 = c :=
        overlay_of_mem d.byte 0 (i := 0) (by rw [List.length_cons]; exact Nat.succ_pos _)
      have hfirst : (some (c :: content)).bind List.head? = some c := rfl
      rw [hfirst, if_neg (Option.some_ne_none c), hn, List.take_succ_cons]
      constructor
      · intro hz c' hc'
        obtain rfl := Option.some.inj hc'
        exact hbyte.symm.trans (hz _ (by rw [Buf.overlaid, hd]; rfl))
      · intro hz d' hd'
        rw [Buf.overlaid, hd] at hd'
        obtain rfl := Option.some.inj hd'
        exact hbyte.trans (hz c rfl)

/-- Reading into a buffer that is empty and big enough: after a whole file, the byte behind it
counts; otherwise nothing is in use, and it is the first byte that has been read. -/
theorem ok_fill (h : Sound b) (hlen : b.len = 0) (f : File) (hsize : f.stSize ≤ b.size) :
    Ok (b.fill f) ↔ (f.Whole → b.Zero f.stSize) ∧
      (¬ f.Whole → if f.first = none then b.Zero 0 else ∀ c ∈ f.first, c = 0) := by
  rw [fill]
  cases hc : f.content with
  | none =>
    have hpart : ¬ f.Whole := by
      rintro ⟨-, content, hcontent, -⟩
      rw [hc] at hcontent
      cases hcontent
    have hfirst : f.first = none := by
      rw [File.first, hc]
      exact ite_self none
    rw [ok_iff, h.rep_iff, hlen, and_iff_right fun hw => absurd hw hpart, if_pos hfirst]
    exact ⟨fun hz _ => hz, fun hz => hz hpart⟩
  | some content =>
    have hlength : (content.take f.stSize).length ≤ f.stSize := List.length_take_le _ _
    have hstore : b.store 0 (content.take f.stSize) =
      some (b.overlaid 0 (content.take f.stSize)) := by
      by_cases hdata : b.data = none
      · rw [h.null hdata] at hsize
        rw [Nat.le_zero.mp hsize, List.take_zero]
        exact h.store_nil (Nat.zero_le _)
      · exact h.store _ _ hdata (by omega)
    have hsound := h.overlaid 0 (content.take f.stSize)
    dsimp only
    rw [hstore]
    dsimp only [Option.bind_eq_bind, Option.bind_some]
    rw [File.whole_iff hc]
    split
    · next hwhole =>
      rw [ok_iff, (hsound.with_len hsize).rep_iff, and_iff_left fun hnot => absurd hwhole hnot]
      have hbehind : (b.overlaid 0 (content.take f.stSize)).Zero f.stSize ↔ b.Zero f.stSize :=
        zero_overlaid_iff (.inr (by omega))
      exact hbehind.trans ⟨fun hz _ => hz, fun hz => hz hwhole⟩
    · next hnot =>
      rw [ok_iff, hsound.rep_iff, overlaid_len, hlen, h.zero_read_iff hc hsize,
        and_iff_right fun hwhole => absurd hwhole hnot]
      exact ⟨fun hz _ => hz, fun hz => hz hnot⟩

/-- `u_buf_load` clears, reserves and fills. -/
theorem load_eq (b : Buf) (f : File) (alloc : Alloc) : b.load (some f) alloc =
    b.clear.reserve f.stSize alloc >>= fun r => if r.1 ≠ 0 then some (-1, r.2)
    else r.2.fill f := rfl

/-- `u_buf_load`, exactly. -/
theorem ok_load (h : Rep b) (f : File) : Ok (b.load (some f) alloc) ↔ b.LoadKeeps f alloc := by
  have hclear := h.toSound.clear
  rw [load_eq]
  by_cases hle : f.stSize ≤ b.size
  · have hstarts : b.StartsZero f.stSize alloc ↔ b.Zero 0 := by
      rw [StartsZero, if_neg fun hlt => absurd hle (Nat.not_le.mpr hlt.1)]
    have hnlt := Nat.not_lt.mpr hle
    have hfill := ok_fill hclear rfl f hle
    rw [reserve_of_le (b := b.clear) hle]
    refine hfill.trans ⟨fun ⟨hwhole, hpart⟩ => ?_,
      fun hkeeps => ⟨fun hw => hkeeps.whole hw hle, fun hw => ?_⟩⟩
    · refine ⟨fun hlt => absurd hlt hnlt, fun hw _ => hwhole hw, fun hlt => absurd hlt hnlt,
        fun hw _ c hc => ?_, fun hw hnone => ?_⟩
      · have hz := hpart hw
        rw [if_neg (by rw [hc]; exact Option.some_ne_none c)] at hz
        exact hz c hc
      · have hz := hpart hw
        rw [if_pos hnone] at hz
        exact hstarts.mpr hz
    · split
      · next hnone => exact hstarts.mp (hkeeps.unread hw hnone)
      · exact hkeeps.short hw fun hlt => absurd hlt hnlt
  · have hlt := Nat.not_le.mp hle
    by_cases hasks : b.Asks f.stSize alloc
    swap
    · rw [reserve_wrapped (b := b.clear) hlt hasks]
      exact iff_of_false not_ok fun hkeeps => hasks (hkeeps.size hlt)
    cases alloc with
    | none =>
      rw [reserve_none (b := b.clear) hlt hasks]
      have hok : Ok (some (-1, b.clear)) ↔ b.Zero 0 := ok_iff.trans hclear.rep_iff
      refine hok.trans ⟨fun hz => ?_, fun hkeeps => hkeeps.refused hlt rfl⟩
      refine ⟨fun _ => hasks, fun _ hfit => absurd hfit hle, fun _ _ => hz,
        fun _ hne => absurd rfl (hne hlt), fun _ _ => ?_⟩
      rw [StartsZero]
      split
      · exact fun _ hjunk => by cases hjunk
      · exact hz
    | some junk =>
      have hsize : f.stSize + 1 < 2 ^ 64 := hasks
      have hgrown := hclear.grown junk hlt hsize
      have hfill := ok_fill hgrown rfl f (Nat.le_refl _)
      have hlast := zero_grown_last b.clear f.stSize junk
      have hstarts : (b.clear.grown f.stSize junk).Zero 0 ↔
        b.StartsZero f.stSize (some junk) := by
        rw [hclear.zero_grown_iff (Nat.zero_le _) hlt, StartsZero]
        by_cases hnone : b.data = none
        · rw [if_pos (show b.clear.data = none from hnone), if_pos ⟨hlt, hnone⟩]
          exact ⟨fun hz _ hj => by obtain rfl := Option.some.inj hj; exact hz,
            fun hz => hz junk rfl⟩
        · rw [if_neg (show b.clear.data ≠ none from hnone), if_neg fun h => hnone h.2]
          exact Iff.rfl
      rw [reserve_some (b := b.clear) hlt hsize]
      refine hfill.trans ⟨fun ⟨_, hpart⟩ => ?_, fun hkeeps => ⟨fun _ => hlast, fun hw => ?_⟩⟩
      · refine ⟨fun _ => hasks, fun _ hfit => absurd hfit hle, fun _ hnone => (by cases hnone),
          fun hw _ c hc => ?_, fun hw hnone => ?_⟩
        · have hz := hpart hw
          rw [if_neg (by rw [hc]; exact Option.some_ne_none c)] at hz
          exact hz c hc
        · have hz := hpart hw
          rw [if_pos hnone] at hz
          exact hstarts.mp hz
      · split
        · next hnone => exact hstarts.mpr (hkeeps.unread hw hnone)
        · exact hkeeps.short hw fun _ => Option.some_ne_none junk

/-! ### `u_buf_printf` -/

/-- What vsnprintf returns for the space behind the used bytes: the length of the text, unless an
`int` cannot say that or the space. -/
def formatted (b : Buf) (text : List UInt8) : Int :=
  if intMax < b.size - b.len ∨ intMax < text.length then -1 else text.length

/-- The buffer after vsnprintf: the text, or as much of it as fits with its NUL, behind the used
bytes. -/
def formatInto (b : Buf) (text : List UInt8) : Buf :=
  if (intMax < b.size - b.len ∨ intMax < text.length) ∨ b.size - b.len = 0 then b
  else b.overlaid b.len (text.take (b.size - b.len - 1) ++ [0])

/-- vsnprintf stays within the block. -/
theorem Sound.vsnprintf (h : Sound b) :
    b.vsnprintf b.len (SizeT.sub b.size b.len) text = some (b.formatted text,
      b.formatInto text) := by
  have hle := h.le
  rw [sub_eq h, Buf.vsnprintf, formatted, formatInto]
  by_cases hlong : intMax < b.size - b.len ∨ intMax < text.length
  · rw [if_pos hlong, if_pos hlong, if_pos (.inl hlong)]
  · rw [if_neg hlong, if_neg hlong]
    by_cases hzero : b.size - b.len = 0
    · rw [if_pos hzero, if_pos (.inr hzero)]
    · obtain ⟨d, hd⟩ := h.exists_data (by omega)
      have hfit : b.len + (text.take (b.size - b.len - 1) ++ [0]).length ≤ b.size + 1 := by
        have hlen := List.length_take_le (b.size - b.len - 1) text
        rw [List.length_append, List.length_singleton]
        omega
      rw [if_neg hzero, if_neg (not_or.mpr ⟨hlong, hzero⟩),
        h.store _ _ (by rw [hd]; exact Option.some_ne_none d) hfit]
      rfl

@[simp] theorem formatInto_len : (b.formatInto text).len = b.len := by
  rw [formatInto]
  split <;> rfl

@[simp] theorem formatInto_size : (b.formatInto text).size = b.size := by
  rw [formatInto]
  split <;> rfl

/-- Formatting into a buffer does not make a block. -/
theorem formatInto_data : (b.formatInto text).data = none ↔ b.data = none := by
  rw [formatInto]
  split
  · exact Iff.rfl
  · exact Option.map_eq_none_iff

/-- Formatting into a buffer leaves its sizes as they are. -/
theorem Sound.formatInto (h : Sound b) (text : List UInt8) : Sound (b.formatInto text) := by
  rw [Buf.formatInto]
  split
  · exact h
  · exact h.overlaid _ _

/-- The space and the text are no longer than an `int` can say. -/
def Printable (b : Buf) (text : List UInt8) : Prop := b.size - b.len ≤ intMax ∧ text.length ≤ intMax

/-- The size that is asked for, when the text has not been written whole. -/
def wanted (b : Buf) (text : List UInt8) : Nat :=
  SizeT.add b.len (min 128 (SizeT.add (sizeOfInt (b.formatted text)) 1))

/-- A round of `u_buf_printf`: the text is nothing, or does not fit and there is another round after
more memory has been asked for, or fits. -/
theorem printf_succ (h : Sound b) (n : Nat) : printf (n + 1) b text alloc =
    if sizeOfInt (b.formatted text) = 0 then some (some (-1), b.formatInto text)
    else if b.size - b.len ≤ sizeOfInt (b.formatted text) then
      (b.formatInto text).reserve (b.wanted text) alloc >>= fun r =>
        if r.1 ≠ 0 then some (some (-1), r.2)
        else r.2.store r.2.len [0] >>= fun b => printf n b text alloc
    else some (some 0, { b.formatInto text with
      len := SizeT.add b.len (sizeOfInt (b.formatted text)) }) := by
  rw [printf, h.vsnprintf, sub_eq h]
  dsimp only [Option.bind_eq_bind, Option.bind_some]
  rw [formatInto_len]
  rfl

/-- Of a text that is printable the loop sees the length. -/
theorem size_formatted (h : b.Printable text) : sizeOfInt (b.formatted text) = text.length := by
  have hlong : ¬ (intMax < b.size - b.len ∨ intMax < text.length) :=
    not_or.mpr ⟨Nat.not_lt.mpr h.1, Nat.not_lt.mpr h.2⟩
  have hmax : text.length ≤ 2 ^ 31 - 1 := h.2
  rw [formatted, if_neg hlong, sizeOfInt]
  omega

/-- Of a text that is not printable the loop sees the greatest number there is. -/
theorem size_formatted_long (h : ¬ b.Printable text) :
    sizeOfInt (b.formatted text) = 2 ^ 64 - 1 := by
  have hlong : intMax < b.size - b.len ∨ intMax < text.length := by
    rw [Printable, not_and_or] at h
    exact h.imp Nat.not_le.mp Nat.not_le.mp
  rw [formatted, if_pos hlong]
  rfl

/-- The size that is asked for, for a text of `n` bytes that has not been written whole. -/
def enlarged (b : Buf) (n : Nat) : Nat := SizeT.add b.len (min 128 (n + 1))

/-- The size that is asked for: at most 128 bytes more than what is in use, however long the text
is. -/
theorem wanted_eq (h : b.Printable text) : b.wanted text = b.enlarged text.length := by
  have hmax : text.length ≤ 2 ^ 31 - 1 := h.2
  rw [wanted, enlarged, size_formatted h, SizeT.add_of_lt (a := text.length) (b := 1) (by omega)]

/-- For a text that is not printable the sum wraps around to what is in use. -/
theorem wanted_long (hb : Sound b) (h : ¬ b.Printable text) : b.wanted text = b.len := by
  have hle := hb.le
  rw [wanted, size_formatted_long h]
  exact add_len_eq hb (n := 0) hle

/-- What is left in front when the text has not been written whole: its first byte, unless there was
space for no more than a NUL. -/
theorem Rep.zero_formatInto_iff (h : Rep b) (hp : b.Printable text) (hne : text ≠ []) :
    (b.formatInto text).Zero b.len ↔ (1 < b.size - b.len → text.head? = some 0) := by
  have hlong : ¬ (intMax < b.size - b.len ∨ intMax < text.length) :=
    not_or.mpr ⟨Nat.not_lt.mpr hp.1, Nat.not_lt.mpr hp.2⟩
  rw [formatInto]
  by_cases hzero : b.size - b.len = 0
  · rw [if_pos (.inr hzero)]
    exact iff_of_true h.nul fun hlt => absurd hzero (by omega)
  · rw [if_neg (not_or.mpr ⟨hlong, hzero⟩)]
    obtain ⟨c, text, rfl⟩ := List.exists_cons_of_ne_nil hne
    obtain ⟨d, hd⟩ := h.exists_data (by omega)
    by_cases hone : b.size - b.len = 1
    · rw [hone]
      exact iff_of_true (zero_overlaid_nul b b.len) fun hlt => absurd hlt (Nat.lt_irrefl 1)
    · obtain ⟨n, hn⟩ : ∃ n, b.size - b.len - 1 = n + 1 := ⟨b.size - b.len - 2, by omega⟩
      have hbyte : overlay d.byte b.len (c :: (text.take n ++ [0])) b.len = c :=
        overlay_of_mem d.byte b.len (i := 0) (by rw [List.length_cons]; exact Nat.succ_pos _)
      rw [hn, List.take_succ_cons, List.cons_append]
      constructor
      · intro hz _
        have hc := hz _ (by rw [overlaid, hd]; rfl)
        exact congrArg some (hbyte.symm.trans hc)
      · intro hhead d' hd'
        rw [overlaid, hd] at hd'
        obtain rfl := Option.some.inj hd'
        exact hbyte.trans (Option.some.inj (hhead (by omega)))

/-- A text that is written whole leaves the representation: vsnprintf puts a NUL behind it. -/
theorem Sound.rep_printed (h : Sound b) (hp : b.Printable text)
    (hfit : text.length < b.size - b.len) :
    Rep { b.formatInto text with len := b.len + text.length } := by
  have hlong : ¬ ((intMax < b.size - b.len ∨ intMax < text.length) ∨ b.size - b.len = 0) :=
    not_or.mpr ⟨not_or.mpr ⟨Nat.not_lt.mpr hp.1, Nat.not_lt.mpr hp.2⟩, by omega⟩
  have hsound : Sound { b.formatInto text with len := b.len + text.length } :=
    (h.formatInto text).with_len (by rw [formatInto_size]; omega)
  refine hsound.rep_iff.mpr ?_
  have hz : (b.overlaid b.len (text ++ [0])).Zero (b.len + text.length) := by
    intro d hd
    obtain ⟨d', -, rfl⟩ := Option.map_eq_some_iff.mp hd
    have hlast := overlay_of_mem d'.byte b.len (i := text.length)
      (by simp : text.length < (text ++ [(0 : UInt8)]).length)
    simpa using hlast
  have heq : b.formatInto text = b.overlaid b.len (text ++ [0]) := by
    rw [Buf.formatInto, if_neg hlong, List.take_of_length_le (by omega)]
  rw [heq]
  exact hz

/-- Of no text, a NUL is written at most, behind the bytes in use. -/
theorem Rep.formatInto_nil (h : Rep b) : Rep (b.formatInto []) := by
  refine (h.toSound.formatInto []).rep_iff.mpr ?_
  rw [formatInto_len, Buf.formatInto]
  split
  · exact h.nul
  · rw [List.take_nil]
    exact zero_overlaid_nul b b.len

/-- Before it is tried again, there is a NUL behind the used bytes. -/
theorem Sound.rep_again (h : Sound b) : Rep (b.overlaid b.len [0]) :=
  ⟨h.overlaid _ _, zero_overlaid_nul b b.len⟩

/-- No more memory is asked for: there is a block, and it has the size that the loop wants. -/
def Settled (b : Buf) (text : List UInt8) : Prop := b.data ≠ none ∧ b.wanted text ≤ b.size

/-- It is a matter of the sizes and of whether there is a block. -/
theorem settled_congr (hdata : b'.data = none ↔ b.data = none) (hsize : b'.size = b.size)
    (hlen : b'.len = b.len) (h : b.Settled text) : b'.Settled text := by
  refine ⟨fun hnone => h.1 (hdata.mp hnone), ?_⟩
  have hwanted := h.2
  rw [wanted, formatted] at hwanted ⊢
  rw [hsize, hlen]
  exact hwanted

/-- A text that is printable and of length zero is no text. -/
theorem printable_of_nil (h : b.Printable text) (hzero : sizeOfInt (b.formatted text) = 0) :
    text = [] := by
  rw [size_formatted h] at hzero
  exact List.length_eq_zero_iff.mp hzero

/-- **Once no more memory is asked for**, the representation holds in every round. -/
theorem Settled.printf (hs : b.Settled text) (h : Rep b) (n : Nat) :
    ∃ r b', Buf.printf n b text alloc = some (r, b') ∧ Rep b' := by
  induction n generalizing b with
  | zero => exact ⟨none, b, rfl, h⟩
  | succ n ih =>
    rw [printf_succ h.toSound]
    by_cases hzero : sizeOfInt (b.formatted text) = 0
    · have hp : b.Printable text := by
        by_contra hp
        rw [size_formatted_long hp] at hzero
        exact absurd hzero (by decide)
      rw [if_pos hzero, printable_of_nil hp hzero]
      exact ⟨_, _, rfl, h.formatInto_nil⟩
    rw [if_neg hzero]
    split
    · have hreserve : (b.formatInto text).reserve (b.wanted text) alloc =
        some (0, b.formatInto text) :=
        reserve_of_le (Nat.le_trans hs.2 (Nat.le_of_eq formatInto_size.symm))
      have hsound := h.toSound.formatInto text
      have hstore := hsound.store b.len [0] (fun hnone => hs.1 (formatInto_data.mp hnone))
        (Nat.succ_le_succ (by rw [formatInto_size]; exact h.le))
      rw [hreserve]
      dsimp only [Option.bind_eq_bind, Option.bind_some]
      rw [if_neg (not_not.mpr rfl), formatInto_len, hstore]
      have hrep := hsound.rep_again
      rw [formatInto_len] at hrep
      refine ih (settled_congr ?_ ?_ ?_ hs) hrep
      · exact overlaid_data.trans formatInto_data
      · exact formatInto_size
      · exact formatInto_len
    · next hfit =>
      have hp : b.Printable text := by
        by_contra hp
        have hbound := h.bound
        rw [size_formatted_long hp] at hfit
        omega
      rw [size_formatted hp] at hfit ⊢
      rw [add_len_eq h.toSound (by omega)]
      exact ⟨_, _, rfl, h.toSound.rep_printed hp (Nat.not_le.mp hfit)⟩

/-- If more memory is needed and there is none, a text that has been cut short is left behind. -/
structure PrintfKeeps (b : Buf) (text : List UInt8) (alloc : Alloc) : Prop where
  data : b.data = none → text.length ≤ intMax
  refused : b.Printable text → text ≠ [] → b.size - b.len ≤ text.length →
    b.size < b.enlarged text.length →
    alloc = none → 1 < b.size - b.len → text.head? = some 0
  bound : b.Printable text → text ≠ [] → b.size - b.len ≤ text.length →
    b.size < b.enlarged text.length → b.Asks (b.enlarged text.length) alloc

/-- The size that the loop wants, without wrapping around. -/
theorem enlarged_eq (h : Sound b) {n : Nat} (hlt : b.size < b.enlarged n) :
    b.enlarged n = b.len + min 128 (n + 1) := by
  have hle := h.le
  have hbound := h.bound
  rw [enlarged, SizeT.add] at hlt ⊢
  omega

/-- What is asked for is enough, or the loop does not ask for more: it wants the same in each round.
-/
theorem settled_grown (h : Sound b) (hp : b.Printable text)
    (hlt : b.size < b.enlarged text.length) :
    ((b.formatInto text).grown (b.enlarged text.length) junk).Settled text := by
  have heq := enlarged_eq h hlt
  have hp' : ((b.formatInto text).grown (b.enlarged text.length) junk).Printable text := by
    refine ⟨?_, hp.2⟩
    rw [grown_size, grown_len, formatInto_len, heq, intMax]
    omega
  refine ⟨grown_data, Nat.le_of_eq ?_⟩
  rw [wanted_eq hp', enlarged, grown_len, formatInto_len, grown_size]
  rfl

/-- The end of a round in which the text has not been written whole. -/
theorem printf_again (h : Sound b) (hdata : b.data ≠ none) (hs : b.Settled text) (n : Nat) :
    ∃ r b', (b.store b.len [0] >>= fun b => printf n b text alloc) = some (r, b') ∧ Rep b' := by
  have hs' : (b.overlaid b.len [0]).Settled text := settled_congr overlaid_data rfl rfl hs
  rw [h.store b.len [0] hdata (Nat.succ_le_succ h.le)]
  exact hs'.printf h.rep_again n

/-- `u_buf_printf`, exactly, for any number of rounds that it is followed. -/
theorem ok_printf (h : Rep b) (n : Nat) : (∃ r b', printf n b text alloc = some (r, b') ∧ Rep b') ↔
    (n ≠ 0 → b.PrintfKeeps text alloc) := by
  cases n with
  | zero => exact iff_of_true ⟨none, b, rfl, h⟩ fun hne => absurd rfl hne
  | succ n =>
    have hle := h.le
    have hbound := h.bound
    have hsound := h.toSound.formatInto text
    rw [printf_succ h.toSound, forall_prop_of_true (Nat.succ_ne_zero n)]
    by_cases hp : b.Printable text
    · by_cases hnil : text = []
      · subst hnil
        rw [size_formatted hp, if_pos List.length_nil]
        exact iff_of_true ⟨_, _, rfl, h.formatInto_nil⟩
          ⟨fun _ => hp.2, fun _ hne => absurd rfl hne, fun _ hne => absurd rfl hne⟩
      have hlen : text.length ≠ 0 := fun hzero => hnil (List.length_eq_zero_iff.mp hzero)
      rw [size_formatted hp, wanted_eq hp, if_neg hlen]
      by_cases hfit : b.size - b.len ≤ text.length
      · rw [if_pos hfit]
        by_cases hgrow : b.size < b.enlarged text.length
        · have hgrow' : (b.formatInto text).size < b.enlarged
            text.length := by rwa [formatInto_size]
          have hasks' : (b.formatInto text).Asks (b.enlarged text.length) alloc ↔
              b.Asks (b.enlarged text.length) alloc := asks_congr formatInto_data
          by_cases hasks : b.Asks (b.enlarged text.length) alloc
          swap
          · rw [reserve_wrapped hgrow' (mt hasks'.mp hasks)]
            refine iff_of_false (fun ⟨_, _, heq, _⟩ => by cases heq) fun hkeeps => ?_
            exact hasks (hkeeps.bound hp hnil hfit hgrow)
          cases alloc with
          | none =>
            have hrep : Rep (b.formatInto text) ↔ (1 < b.size - b.len → text.head? = some 0) := by
              rw [hsound.rep_iff, formatInto_len, h.zero_formatInto_iff hp hnil]
            rw [reserve_none hgrow' (hasks'.mpr hasks)]
            constructor
            · rintro ⟨r, b', heq, hb⟩
              obtain ⟨-, rfl⟩ := Prod.mk.inj (Option.some.inj heq)
              exact ⟨fun _ => hp.2, fun _ _ _ _ _ => hrep.mp hb, fun _ _ _ _ => hasks⟩
            · exact fun hkeeps => ⟨_, _, rfl, hrep.mpr (hkeeps.refused hp hnil hfit hgrow rfl)⟩
          | some junk =>
            have hsize : b.enlarged text.length + 1 < 2 ^ 64 := hasks
            rw [reserve_some hgrow' hsize]
            exact iff_of_true (printf_again (hsound.grown junk hgrow' hsize) grown_data
              (settled_grown h.toSound hp hgrow) n)
              ⟨fun _ => hp.2, fun _ _ _ _ hnone => (by cases hnone), fun _ _ _ _ => hasks⟩
        · have hstay := Nat.not_lt.mp hgrow
          have hdata : b.data ≠ none := by
            intro hnone
            have hnull := h.null hnone
            rw [enlarged, SizeT.add] at hstay
            omega
          rw [reserve_of_le (Nat.le_trans hstay (Nat.le_of_eq formatInto_size.symm))]
          refine iff_of_true (printf_again hsound (fun hnone => hdata
            (formatInto_data.mp hnone)) ?_ n)
            ⟨fun _ => hp.2, fun _ _ _ hlt => absurd hlt hgrow, fun _ _ _ hlt => absurd hlt hgrow⟩
          exact settled_congr formatInto_data formatInto_size formatInto_len
            ⟨hdata, by rwa [wanted_eq hp]⟩
      · have hlt := Nat.not_le.mp hfit
        rw [if_neg hfit, add_len_eq h.toSound (by omega)]
        exact iff_of_true ⟨_, _, rfl, h.toSound.rep_printed hp hlt⟩
          ⟨fun _ => hp.2, fun _ _ hle => absurd hle hfit, fun _ _ hle => absurd hle hfit⟩
    · rw [size_formatted_long hp, wanted_long h.toSound hp, if_neg (by decide), if_pos (by omega),
        reserve_of_le (Nat.le_trans hle (Nat.le_of_eq formatInto_size.symm))]
      by_cases hdata : b.data = none
      · have hstore : (b.formatInto text).store (b.formatInto text).len [0] = none := by
          rw [Buf.store, formatInto_data.mpr hdata]
          exact if_neg (List.cons_ne_nil _ _)
        have hlong : ¬ text.length ≤ intMax := by
          intro hshort
          refine hp ⟨?_, hshort⟩
          rw [h.null hdata, Nat.zero_sub]
          exact Nat.zero_le _
        refine iff_of_false ?_ fun hkeeps => hlong (hkeeps.data hdata)
        rintro ⟨r, b', heq, -⟩
        dsimp only [Option.bind_eq_bind, Option.bind_some] at heq
        rw [if_neg (not_not.mpr rfl), hstore] at heq
        cases heq
      · refine iff_of_true (printf_again hsound (fun hnone => hdata
          (formatInto_data.mp hnone)) ?_ n)
          ⟨fun hnone => absurd hnone hdata, fun hprint => absurd hprint hp,
            fun hprint => absurd hprint hp⟩
        exact settled_congr formatInto_data formatInto_size formatInto_len
          ⟨hdata, by rw [wanted_long h.toSound hp]; exact hle⟩

/-! ## 3. Runs -/

/-- When a call keeps the representation: a condition on the buffer before it, its arguments and the
memory that it gets. -/
def Keeps (b : Buf) : Op → Prop
  | .reserve size alloc => b.ReserveKeeps size alloc
  | .append data alloc => data = [] ∨ b.Room data.length alloc
  | .set data alloc => b.SetKeeps data alloc
  | .printf rounds text alloc => rounds ≠ 0 → b.PrintfKeeps text alloc
  | .clear => b.Zero 0
  | .shrink newlen => b.ShrinkKeeps newlen
  | .load none _ => True
  | .load (some f) alloc => b.LoadKeeps f alloc
  | .detach => True

theorem returned_iff {r : Option (Int × Buf)} :
    (∃ ret b, r.map (fun r => (some r.1, r.2)) = some (ret, b) ∧ Rep b) ↔ Ok r := by
  constructor
  · rintro ⟨ret, b, heq, hrep⟩
    obtain ⟨r', rfl, hpair⟩ := Option.map_eq_some_iff.mp heq
    obtain ⟨-, rfl⟩ := Prod.mk.inj hpair
    exact ⟨r'.1, r'.2, rfl, hrep⟩
  · rintro ⟨ret, b, rfl, hrep⟩
    exact ⟨some ret, b, rfl, hrep⟩

theorem done_iff {ret : Option Int} : (∃ r b', some (ret, b) = some (r, b') ∧ Rep b') ↔ Rep b := by
  constructor
  · rintro ⟨r, b', heq, hrep⟩
    obtain ⟨-, rfl⟩ := Prod.mk.inj (Option.some.inj heq)
    exact hrep
  · exact fun hrep => ⟨ret, b, rfl, hrep⟩

/-- **A call keeps the representation** exactly under its condition. -/
theorem step_iff (h : Rep b) (op : Op) :
    (∃ r b', step b op = some (r, b') ∧ Rep b') ↔ b.Keeps op := by
  cases op with
  | reserve size alloc => exact returned_iff.trans (ok_reserve h)
  | append data alloc => exact returned_iff.trans (ok_append h)
  | set data alloc => exact returned_iff.trans (ok_set h)
  | printf rounds text alloc => exact ok_printf h rounds
  | clear => exact done_iff.trans (rep_clear h)
  | shrink newlen => exact done_iff.trans (rep_shrink h newlen)
  | load file alloc =>
    cases file with
    | none => exact iff_of_true ⟨some (-1), b, rfl, h⟩ trivial
    | some f => exact returned_iff.trans (ok_load h f)
  | detach => exact iff_of_true ⟨some 0, create, rfl, rep_create⟩ trivial

/-- **The representation holds after every call of a run** exactly when every call keeps it.  The
condition of a call is on the state before it, so that it can be checked without looking at what the
call returns; what breaks the representation is a byte behind the length that is not zero. -/
theorem rep_run_iff (ops : List Op) :
    Always step (fun _ _ _ b => Rep b) create ops ↔ Guarded step Keeps create ops :=
  always_iff_guarded (fun _ _ => True) Rep (fun _ op hrep _ => step_iff hrep op)
    (fun _ _ _ _ _ _ _ hrep => hrep) rep_create (guarded_of_forall (fun _ _ => trivial) ops create)

/-- In a buffer that has been cleared, the string is what was there before. -/
theorem not_rep_clear :
    ¬ Always step (fun _ _ _ b => Rep b) create
      [Op.append [97] (some fun _ => 0), Op.clear] := by
  intro h
  obtain ⟨rs, b, hrun, -, -, hrep⟩ := Always.run_last Op.clear [Op.append [97] (some fun _ => 0)] h
  have hbyte : (run step create [.append [97] (some fun _ => 0), .clear]).map
      (fun p => p.2.data.map fun d => d.byte p.2.len) = some (some 97) := by decide
  have hrun' : run step create [.append [97] (some fun _ => 0), .clear] = some (rs, b) := hrun
  rw [hrun'] at hbyte
  obtain ⟨d, hd, hc⟩ := Option.map_eq_some_iff.mp (Option.some.inj hbyte)
  exact absurd (hc.symm.trans (hrep.nul d hd)) (by decide)

end

end Libu.Buf
