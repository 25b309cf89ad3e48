/-
# Bounded strings (`missing/strlcpy.c`, `missing/strlcat.c`, `misc.c`)

`u_strlcpy` and `u_strlcat` put strings into a buffer of a given size and say whether they fit.
Most of the program builds its strings with them.

* §1 is the code, on blocks of memory.  An access outside of a block has no result.
* §2: each function is one store of the part that fits, with its NUL.
* §3: a bounded string, which is what a buffer stands for, with its bound as a field.
* §4: every run of the two functions on a buffer is one of a bounded string (`strl_tracks`): it
  stays in the buffer, and what the functions say is whether anything was cut off.
* §5: `Uri.strlcat` and `Json.strlcpy`, which do without memory, say what these functions do.
-/
import Libu.Json.Basic
import Libu.Uri.Basic
import Libu.Verif.CStr
import Libu.Verif.Run

namespace Libu.Strl

open Verif

/-! ## 1. The code -/

/-- `do { if ((*d++ = *s++) == 0) break; } while (--n != 0);`, with what becomes of `b`, `s` and
`n`. -/
def copyLoop (src : Block UInt8) : Nat → Block UInt8 → Nat → Nat →
    Option (Block UInt8 × Nat × Nat × Nat)
  | 0, b, d, s => some (b, d, s, 0)
  | n + 1, b, d, s => do
    let c ← src.read s
    let b ← b.store d [c]
    if c = 0 then some (b, d + 1, s + 1, n + 1) else copyLoop src n b (d + 1) (s + 1)

/-- `while (*s++) ;`.  A block has no more bytes than the fuel. -/
def skipLoop (src : Block UInt8) : Nat → Nat → Option Nat
  | 0, _ => none
  | fuel + 1, s => do
    let c ← src.read s
    if c = 0 then some (s + 1) else skipLoop src fuel (s + 1)

/-- `strlcpy` -/
def strlcpy (b : Block UInt8) (dst : Nat) (src : Block UInt8) (s₀ siz : Nat) :
    Option (Nat × Block UInt8) := do
  let (b, d, s, n) ← if siz ≠ 0 then copyLoop src (siz - 1) b dst s₀ else some (b, dst, s₀, 0)
  if n = 0 then
    let b ← if siz ≠ 0 then b.store d [0] else some b
    let s ← skipLoop src src.size s
    some (s - s₀ - 1, b)
  else some (s - s₀ - 1, b)

/-- `while (n-- != 0 && *d != '\0') d++;` -/
def endLoop (b : Block UInt8) : Nat → Nat → Option Nat
  | 0, d => some d
  | n + 1, d => do
    let c ← b.read d
    if c = 0 then some d else endLoop b n (d + 1)

/-- `while (*s != '\0') { if (n != 1) { *d++ = *s; n--; } s++; }` -/
def catLoop (src : Block UInt8) : Nat → Nat → Block UInt8 → Nat → Nat →
    Option (Block UInt8 × Nat × Nat)
  | 0, _, _, _, _ => none
  | fuel + 1, n, b, d, s => do
    let c ← src.read s
    if c = 0 then some (b, d, s)
    else if n ≠ 1 then
      let b ← b.store d [c]
      catLoop src fuel (n - 1) b (d + 1) (s + 1)
    else catLoop src fuel n b d (s + 1)

/-- `strlcat` -/
def strlcat (b : Block UInt8) (dst : Nat) (src : Block UInt8) (s₀ siz : Nat) :
    Option (Nat × Block UInt8) := do
  let d ← endLoop b siz dst
  let dlen := d - dst
  if siz - dlen = 0 then
    let len ← src.strlen s₀
    some (SizeT.add dlen len, b)
  else
    let (b, d, s) ← catLoop src src.size (siz - dlen) b d s₀
    let b ← b.store d [0]
    some (SizeT.add dlen (s - s₀), b)

/-- `u_strlcpy`: whether it returns 0, and the buffer. -/
def uStrlcpy (b : Block UInt8) (dst : Nat) (src : Block UInt8) (s₀ siz : Nat) :
    Option (Bool × Block UInt8) :=
  (strlcpy b dst src s₀ siz).map fun r => (!decide (siz ≤ r.1), r.2)

/-- `u_strlcat` -/
def uStrlcat (b : Block UInt8) (dst : Nat) (src : Block UInt8) (s₀ siz : Nat) :
    Option (Bool × Block UInt8) :=
  (strlcat b dst src s₀ siz).map fun r => (!decide (siz ≤ r.1), r.2)

/-! ## 2. What is stored -/

section

variable {b b' src : Block UInt8} {dst d s siz : Nat} {c : UInt8} {t u : List UInt8}

theorem read_cons (h : CStr src s (c :: t)) : src.read s = some c ∧ c ≠ 0 ∧ CStr src (s + 1) t := by
  have hroom := h.room
  have hbyte : src.byte s = c := h.byte_eq (i := 0) (by simp)
  refine ⟨by rw [Block.read_of_lt (by omega), hbyte], ?_, h.drop (u := [c])⟩
  rintro rfl
  exact h.nul_free List.mem_cons_self

theorem read_nil (h : CStr src s []) : src.read s = some 0 := by
  have hroom := h.room
  have hnul : src.byte s = 0 := h.nul
  rw [Block.read_of_lt (by simpa using hroom), hnul]

theorem copyLoop_eq (n : Nat) (h : CStr src s t) (hroom : d + n ≤ b.size) :
    copyLoop src n b d s = some (b.put d ((t ++ [0]).take n), d + min n (t.length + 1),
      s + min n (t.length + 1), n - t.length) := by
  induction n generalizing b d s t with
  | zero => simp [copyLoop]
  | succ n ih =>
    cases t with
    | nil =>
      have hstore : b.store d [0] = some (b.put d [0]) :=
        Block.store_eq_put (by simp; omega)
      simp [copyLoop, read_nil h, hstore]
    | cons c t =>
      obtain ⟨hread, hc, htail⟩ := read_cons h
      have hstore : b.store d [c] = some (b.put d [c]) :=
        Block.store_eq_put (by simp; omega)
      rw [copyLoop, hread]
      simp only [Option.bind_eq_bind, Option.bind_some, hstore, if_neg hc]
      rw [ih htail (by simp; omega), ← List.length_singleton (a := c), Block.put_put]
      simp
      omega

theorem skipLoop_eq (fuel : Nat) (h : CStr src s t) (hfuel : t.length < fuel) :
    skipLoop src fuel s = some (s + t.length + 1) := by
  induction fuel generalizing s t with
  | zero => omega
  | succ fuel ih =>
    cases t with
    | nil => simp [skipLoop, read_nil h]
    | cons c t =>
      obtain ⟨hread, hc, htail⟩ := read_cons h
      have hskip := ih htail (by simpa using hfuel)
      simp [skipLoop, hread, hc, hskip]
      omega

/-- **strlcpy is one store** of what fits, with a NUL behind it. -/
theorem strlcpy_eq (h : CStr src s t) (hroom : dst + siz ≤ b.size) :
    strlcpy b dst src s siz = some (t.length,
      if siz = 0 then b else b.put dst (t.take (siz - 1) ++ [0])) := by
  have hlt : t.length < src.size := Nat.lt_of_le_of_lt (Nat.le_add_left _ s) h.room
  rcases Nat.eq_zero_or_pos siz with rfl | hpos
  · have hskip := skipLoop_eq src.size h hlt
    simp [strlcpy, hskip]
    omega
  have hne : siz ≠ 0 := by omega
  have hloop := copyLoop_eq (siz - 1) h (b := b) (d := dst) (by omega)
  rw [strlcpy, if_pos hne, hloop, if_neg hne]
  simp only [Option.bind_eq_bind, Option.bind_some]
  by_cases hfit : t.length < siz - 1
  · -- the NUL was copied
    have hcopied : (t ++ [0]).take (siz - 1) = t.take (siz - 1) ++ [0] := by
      rw [List.take_of_length_le (by simp; omega), List.take_of_length_le (by omega)]
    rw [if_neg (by omega), hcopied]
    exact congrArg (fun i => some (i, _)) (by omega)
  · obtain ⟨pre, post, rfl, hpre⟩ : ∃ pre post, t = pre ++ post ∧ pre.length = siz - 1 :=
      ⟨t.take (siz - 1), t.drop (siz - 1), (List.take_append_drop _ t).symm, by simp; omega⟩
    have hcopied : (pre ++ post ++ [0]).take (siz - 1) = pre := by
      rw [List.append_assoc, List.take_left' hpre]
    have hskip := skipLoop_eq src.size h.drop (by simp at hlt; omega)
    have hstore : (b.put dst pre).store (dst + pre.length) [0] =
        some ((b.put dst pre).put (dst + pre.length) [0]) :=
      Block.store_eq_put (by simp; omega)
    have hmin : min (siz - 1) ((pre ++ post).length + 1) = pre.length := by
      rw [List.length_append]
      omega
    rw [if_pos (by omega), if_pos hne, hcopied, hmin, hstore, Option.bind_some, hskip,
      Option.bind_some, Block.put_put, List.take_left' hpre]
    exact congrArg (fun i => some (i, _)) (by rw [List.length_append]; omega)

theorem endLoop_eq (n : Nat) (h : CStr b d u) (hlen : u.length < n) :
    endLoop b n d = some (d + u.length) := by
  induction n generalizing d u with
  | zero => omega
  | succ n ih =>
    cases u with
    | nil => simp [endLoop, read_nil h]
    | cons c u =>
      obtain ⟨hread, hc, htail⟩ := read_cons h
      have hend := ih htail (by simpa using hlen)
      simp [endLoop, hread, hc, hend]
      omega

/-- A buffer without a NUL. -/
theorem endLoop_full (n : Nat) (h : ∀ i < n, b.byte (d + i) ≠ 0) (hroom : d + n ≤ b.size) :
    endLoop b n d = some (d + n) := by
  induction n generalizing d with
  | zero => rfl
  | succ n ih =>
    have hc : b.byte d ≠ 0 := h 0 (Nat.succ_pos n)
    have hend := ih (d := d + 1) (fun i hi => by
      rw [Nat.add_assoc, Nat.add_comm 1]
      exact h (i + 1) (Nat.succ_lt_succ hi)) (by omega)
    rw [endLoop, Block.read_of_lt (by omega)]
    simp only [Option.bind_eq_bind, Option.bind_some, if_neg hc, hend]
    exact congrArg some (by omega)

theorem catLoop_eq (fuel n : Nat) (h : CStr src s t) (hn : 0 < n) (hroom : d + n ≤ b.size)
    (hfuel : t.length < fuel) : catLoop src fuel n b d s =
      some (b.put d (t.take (n - 1)), d + min t.length (n - 1), s + t.length) := by
  induction fuel generalizing n b d s t with
  | zero => omega
  | succ fuel ih =>
    cases t with
    | nil => simp [catLoop, read_nil h]
    | cons c t =>
      obtain ⟨hread, hc, htail⟩ := read_cons h
      rw [catLoop, hread]
      simp only [Option.bind_eq_bind, Option.bind_some, if_neg hc]
      split
      · next hn1 =>
        have hstore : b.store d [c] = some (b.put d [c]) :=
          Block.store_eq_put (by simp; omega)
        obtain ⟨k, rfl⟩ : ∃ k, n = k + 2 := ⟨n - 2, by omega⟩
        rw [hstore, Option.bind_some, ih (k + 2 - 1) htail (by omega) (by simp; omega)
          (by simpa using hfuel), ← List.length_singleton (a := c), Block.put_put]
        simp
        omega
      · next hn1 =>
        obtain rfl : n = 1 := not_not.mp hn1
        rw [ih 1 htail hn hroom (by simpa using hfuel)]
        simp
        omega

/-- **strlcat is one store** behind the string that is there. -/
theorem strlcat_eq (hdst : CStr b dst u) (h : CStr src s t) (hlen : u.length < siz)
    (hroom : dst + siz ≤ b.size) (hsize : b.size + src.size < 2 ^ 64) :
    strlcat b dst src s siz = some (u.length + t.length,
      b.put (dst + u.length) (t.take (siz - 1 - u.length) ++ [0])) := by
  have hlt : t.length < src.size := Nat.lt_of_le_of_lt (Nat.le_add_left _ s) h.room
  have hend := endLoop_eq siz hdst hlen
  have hloop := catLoop_eq src.size (siz - u.length) h (b := b) (d := dst + u.length) (by omega)
    (by omega) hlt
  have hstore : (b.put (dst + u.length) (t.take (siz - u.length - 1))).store
      (dst + u.length + (t.take (siz - u.length - 1)).length) [0] =
      some ((b.put (dst + u.length) (t.take (siz - u.length - 1))).put
        (dst + u.length + (t.take (siz - u.length - 1)).length) [0]) :=
    Block.store_eq_put (by simp; omega)
  have hlength : (t.take (siz - u.length - 1)).length = min t.length (siz - u.length - 1) := by
    rw [List.length_take, Nat.min_comm]
  rw [hlength] at hstore
  rw [strlcat, hend]
  simp only [Option.bind_eq_bind, Option.bind_some, Nat.add_sub_cancel_left,
    if_neg (show siz - u.length ≠ 0 by omega), hloop, hstore]
  rw [SizeT.add_of_lt (by omega), ← hlength, Block.put_put, Nat.sub_right_comm]

theorem strlcat_full (hdst : ∀ i < siz, b.byte (dst + i) ≠ 0) (h : CStr src s t)
    (hroom : dst + siz ≤ b.size) (hsize : b.size + src.size < 2 ^ 64) :
    strlcat b dst src s siz = some (siz + t.length, b) := by
  have hlt : t.length < src.size := Nat.lt_of_le_of_lt (Nat.le_add_left _ s) h.room
  rw [strlcat, endLoop_full siz hdst hroom]
  simp only [Option.bind_eq_bind, Option.bind_some, Nat.add_sub_cancel_left, Nat.sub_self,
    if_pos, h.strlen]
  rw [SizeT.add_of_lt (by omega)]

end

/-! ## 3. Bounded strings -/

/-- A string that fits a buffer of `siz` bytes with its NUL. -/
structure Text (siz : Nat) where
  bytes : List UInt8
  nul_free : 0 ∉ bytes
  lt : bytes.length < siz

/-- What fits of a string. -/
def Text.cut (siz : Nat) (t : List UInt8) (hnul : 0 ∉ t) : Option (Text siz) :=
  if h : 0 < siz then
    some ⟨t.take (siz - 1), fun hmem => hnul (List.mem_of_mem_take hmem), by simp; omega⟩
  else none

theorem cut_of_lt {siz : Nat} {t : List UInt8} {hnul : 0 ∉ t} (h : t.length < siz) :
    Text.cut siz t hnul = some ⟨t, hnul, h⟩ := by
  have htake : t.take (siz - 1) = t := List.take_of_length_le (by omega)
  rw [Text.cut, dif_pos (by omega)]
  simp only [htake]

/-- A string to copy from, outside of the buffer. -/
structure Str where
  block : Block UInt8
  off : Nat
  bytes : List UInt8
  holds : CStr block off bytes
  small : block.size < 2 ^ 63

/-- The calls. -/
inductive Op
  | cpy (src : Str)
  | cat (src : Str)

namespace Op

/-- What a call does to the buffer. -/
def exec (dst siz : Nat) (b : Block UInt8) : Op → Option (Bool × Block UInt8)
  | cpy src => uStrlcpy b dst src.block src.off siz
  | cat src => uStrlcat b dst src.block src.off siz

/-- What it does to a bounded string, which is none while the buffer has no NUL. -/
def bounded {siz : Nat} (o : Option (Text siz)) : Op → Bool × Option (Text siz)
  | cpy src => (decide (src.bytes.length < siz), Text.cut siz src.bytes src.holds.nul_free)
  | cat src =>
    match o with
    | none => (false, none)
    | some u => (decide (u.bytes.length + src.bytes.length < siz),
        Text.cut siz (u.bytes ++ src.bytes) fun hmem =>
          (List.mem_append.mp hmem).elim u.nul_free src.holds.nul_free)

/-- What it does to a string without a bound. -/
def whole (u : List UInt8) : Op → List UInt8
  | cpy src => src.bytes
  | cat src => u ++ src.bytes

end Op

/-! ## 4. Runs -/

/-- What a buffer stands for. -/
def Holds {siz : Nat} (b : Block UInt8) (dst : Nat) : Option (Text siz) → Prop
  | some u => CStr b dst u.bytes
  | none => ∀ i < siz, b.byte (dst + i) ≠ 0

/-- Nothing outside of the buffer has changed. -/
def Framed (b : Block UInt8) (dst siz : Nat) (b' : Block UInt8) : Prop :=
  b'.size = b.size ∧ ∀ i, i < dst ∨ dst + siz ≤ i → b'.byte i = b.byte i

section

variable {b b' b₀ : Block UInt8} {dst siz : Nat}

theorem Framed.refl (b : Block UInt8) (dst siz : Nat) : Framed b dst siz b := ⟨rfl, fun _ _ => rfl⟩

theorem Framed.trans (h : Framed b dst siz b') (h' : Framed b' dst siz b₀) : Framed b dst siz b₀ :=
  ⟨h'.1.trans h.1, fun i hi => (h'.2 i hi).trans (h.2 i hi)⟩

theorem framed_put {k : Nat} {bs : List UInt8} (hfit : k + bs.length ≤ siz) :
    Framed b dst siz (b.put (dst + k) bs) :=
  ⟨rfl, fun i hi => overlay_of_not_mem _ _ (by omega)⟩

/-- Every buffer stands for something. -/
theorem exists_holds (b : Block UInt8) (dst siz : Nat) (hroom : dst + siz ≤ b.size) :
    ∃ o : Option (Text siz), Holds b dst o := by
  by_cases hnul : (0 : UInt8) ∈ slice b.byte dst siz
  · obtain ⟨u, rest, heq, hu⟩ := List.eq_append_cons_of_mem hnul
    have hlen : u.length + (rest.length + 1) = siz := by
      simpa using (congrArg List.length heq).symm
    refine ⟨some ⟨u, hu, by omega⟩, hu, show dst + u.length < b.size by omega, ?_, ?_⟩
    · have htake := take_slice b.byte dst (show u.length ≤ siz by omega)
      rw [heq, List.take_left] at htake
      exact htake.symm
    · have hget := getElem?_slice b.byte dst siz u.length
      rw [heq, List.getElem?_append_right Nat.le.refl, Nat.sub_self, if_pos (by omega)] at hget
      exact (Option.some.inj hget).symm
  · refine ⟨none, fun i hi h0 => hnul (List.mem_iff_getElem?.mpr ⟨i, ?_⟩)⟩
    rw [getElem?_slice, if_pos hi, h0]

/-- A string with a NUL is put behind what is there. -/
theorem holds_put {u t : List UInt8} (hu : slice b.byte dst u.length = u) (hnul : 0 ∉ u ++ t)
    (hfit : dst + u.length + (t.length + 1) ≤ b.size) :
    CStr (b.put (dst + u.length) (t ++ [0])) dst (u ++ t) :=
  CStr.of_slice hu hnul (Block.store_eq_put (by simpa using hfit))

theorem not_decide_le (m n : Nat) : (!decide (m ≤ n)) = decide (n < m) := by
  rw [← decide_not]
  exact decide_eq_decide.mpr Nat.not_le

theorem exec_cpy (src : Str) (hroom : dst + siz ≤ b.size) :
    ∃ b', uStrlcpy b dst src.block src.off siz = some (decide (src.bytes.length < siz), b') ∧
      Holds b' dst (Text.cut siz src.bytes src.holds.nul_free) ∧ Framed b dst siz b' := by
  have hcpy := strlcpy_eq src.holds hroom
  refine ⟨_, by rw [uStrlcpy, hcpy, Option.map_some, not_decide_le], ?_⟩
  rcases Nat.eq_zero_or_pos siz with rfl | hpos
  · exact ⟨fun i hi => absurd hi (Nat.not_lt_zero i), Framed.refl b dst 0⟩
  · rw [if_neg (by omega), Text.cut, dif_pos hpos]
    have hnul : 0 ∉ ([] : List UInt8) ++ src.bytes.take (siz - 1) := fun hmem =>
      src.holds.nul_free (List.mem_of_mem_take hmem)
    exact ⟨holds_put (u := []) rfl hnul (by simp; omega),
      framed_put (k := 0) (by simp; omega)⟩

theorem exec_cat {o : Option (Text siz)} (h : Holds b dst o) (src : Str)
    (hroom : dst + siz ≤ b.size) (hsmall : b.size < 2 ^ 63) :
    ∃ b', uStrlcat b dst src.block src.off siz = some ((Op.bounded o (.cat src)).1, b') ∧
      Holds b' dst (Op.bounded o (.cat src)).2 ∧ Framed b dst siz b' := by
  have hsize : b.size + src.block.size < 2 ^ 64 := by
    have := src.small
    omega
  cases o with
  | none =>
    have hcat := strlcat_full h src.holds hroom hsize
    refine ⟨b, ?_, h, Framed.refl b dst siz⟩
    rw [uStrlcat, hcat, Option.map_some, not_decide_le,
      decide_eq_false (show ¬ siz + src.bytes.length < siz by omega)]
    rfl
  | some u =>
    have hlt := u.lt
    have hu : CStr b dst u.bytes := h
    have hcat := strlcat_eq hu src.holds hlt hroom hsize
    have hcut : (u.bytes ++ src.bytes).take (siz - 1) =
        u.bytes ++ src.bytes.take (siz - 1 - u.bytes.length) := by
      rw [List.take_append, List.take_of_length_le (by omega)]
    have hnul : 0 ∉ u.bytes ++ src.bytes.take (siz - 1 - u.bytes.length) := fun hmem =>
      (List.mem_append.mp hmem).elim u.nul_free fun hmem =>
        src.holds.nul_free (List.mem_of_mem_take hmem)
    refine ⟨_, by rw [uStrlcat, hcat, Option.map_some, not_decide_le]; rfl, ?_,
      framed_put (by simp; omega)⟩
    rw [Op.bounded, Text.cut, dif_pos (by omega)]
    change CStr _ dst ((u.bytes ++ src.bytes).take (siz - 1))
    rw [hcut]
    exact holds_put hu.bytes hnul (by simp; omega)

/-- **What one call does**: what it would do to a bounded string, inside of the buffer. -/
theorem exec_bounded {o : Option (Text siz)} (h : Holds b dst o) (op : Op)
    (hroom : dst + siz ≤ b.size) (hsmall : b.size < 2 ^ 63) :
    ∃ b', op.exec dst siz b = some ((op.bounded o).1, b') ∧ Holds b' dst (op.bounded o).2 ∧
      Framed b dst siz b' := by
  cases op with
  | cpy src => exact exec_cpy src hroom
  | cat src => exact exec_cat h src hroom hsmall

/-- What fits is there as a whole. -/
theorem bounded_whole {u : Text siz} {op : Op} (h : (op.bounded (some u)).1 = true) :
    ∃ u', (op.bounded (some u)).2 = some u' ∧ u'.bytes = op.whole u.bytes := by
  cases op with
  | cpy src =>
    have hlt : src.bytes.length < siz := of_decide_eq_true h
    exact ⟨⟨src.bytes, src.holds.nul_free, hlt⟩, cut_of_lt hlt, rfl⟩
  | cat src =>
    have hlt : (u.bytes ++ src.bytes).length < siz := by
      rw [List.length_append]
      exact of_decide_eq_true h
    have hnul : 0 ∉ u.bytes ++ src.bytes := fun hmem =>
      (List.mem_append.mp hmem).elim u.nul_free src.holds.nul_free
    exact ⟨⟨u.bytes ++ src.bytes, hnul, hlt⟩, cut_of_lt hlt, rfl⟩

/-- The run of a bounded string. -/
def Bounded {siz : Nat} (o : Option (Text siz)) (op : Op) (ok : Bool) (o' : Option (Text siz)) :
    Prop := (ok, o') = op.bounded o

/-- What a buffer stands for, with the memory around it. -/
def Stands (b₀ : Block UInt8) (dst : Nat) {siz : Nat} (b : Block UInt8) (o : Option (Text siz)) :
    Prop := Holds b dst o ∧ Framed b₀ dst siz b

theorem tracks {o : Option (Text siz)} (hroom : dst + siz ≤ b₀.size) (hsmall : b₀.size < 2 ^ 63)
    (h : Stands b₀ dst b o) (ops : List Op) :
    Tracks (Op.exec dst siz) Bounded (Stands b₀ dst) b o ops := by
  refine tracks_of_guarded (C := fun _ _ => True) (Stands b₀ dst) (fun b o op h _ => ?_) h
    (guarded_of_forall (fun _ _ => trivial) ops b)
  have hsize : b.size = b₀.size := h.2.1
  obtain ⟨b', hexec, hholds, hframed⟩ := exec_bounded h.1 op (hsize ▸ hroom) (hsize ▸ hsmall)
  have hstands : Stands b₀ dst b' (op.bounded o).2 := ⟨hholds, h.2.trans hframed⟩
  exact ⟨_, b', _, hexec, rfl, hstands, hstands⟩

/-- When every call says that it fits, nothing is lost. -/
theorem whole_of_tracks {b₁ : Block UInt8} {rs : List Bool} {u : Text siz} {ops : List Op}
    (h : Tracks (Op.exec dst siz) Bounded (Stands b₀ dst) b (some u) ops)
    (hb : Holds b dst (some u)) (hrun : run (Op.exec dst siz) b ops = some (rs, b₁))
    (hok : ∀ ok ∈ rs, ok = true) : CStr b₁ dst (ops.foldl Op.whole u.bytes) := by
  induction ops generalizing b u rs with
  | nil =>
    obtain ⟨rfl, rfl⟩ : [] = rs ∧ b = b₁ := by simpa [run] using hrun
    exact hb
  | cons op ops ih =>
    obtain ⟨ok, b', o', hexec, hbounded, hstands, hrest⟩ := h
    simp only [run, hexec, Option.bind_eq_bind, Option.bind_some, Option.bind_eq_some_iff] at hrun
    obtain ⟨⟨rs', b''⟩, hrun', heq⟩ := hrun
    obtain ⟨rfl, rfl⟩ : ok :: rs' = rs ∧ b'' = b₁ := by simpa using heq
    obtain ⟨hok', ho'⟩ := Prod.mk.inj hbounded
    obtain ⟨u', hu', hwhole⟩ := bounded_whole (hok'.symm.trans (hok ok List.mem_cons_self))
    obtain rfl := ho'.trans hu'
    rw [List.foldl_cons, ← hwhole]
    exact ih hrest hstands.1 hrun' fun r hr => hok r (List.mem_cons_of_mem ok hr)

/-- **Every run of `u_strlcpy` and `u_strlcat` on a buffer is one of a bounded string**, whatever is
in the buffer at first.  It stays in the buffer, what holds a string goes on holding one, and a call
returns 0 just when nothing is cut off: when all calls of a run that begins with a copy return 0,
the buffer holds all that was put there. -/
theorem strl_tracks (b : Block UInt8) (dst siz : Nat) (hroom : dst + siz ≤ b.size)
    (hsmall : b.size < 2 ^ 63) (ops : List Op) :
    (∃ o : Option (Text siz), Holds b dst o ∧
      Tracks (Op.exec dst siz) Bounded (Stands b dst) b o ops) ∧
    ∀ src rs b₁, run (Op.exec dst siz) b (.cpy src :: ops) = some (rs, b₁) →
      (∀ ok ∈ rs, ok = true) → CStr b₁ dst (ops.foldl Op.whole src.bytes) := by
  obtain ⟨o, ho⟩ := exists_holds b dst siz hroom
  have hstands : Stands b dst b o := ⟨ho, Framed.refl b dst siz⟩
  refine ⟨⟨o, ho, tracks hroom hsmall hstands ops⟩, fun src rs b₁ hrun hok => ?_⟩
  obtain ⟨b', hexec, hholds, hframed⟩ := exec_bounded ho (.cpy src) hroom hsmall
  simp only [run, hexec, Option.bind_eq_bind, Option.bind_some, Option.bind_eq_some_iff] at hrun
  obtain ⟨⟨rs', b''⟩, hrun', heq⟩ := hrun
  obtain ⟨rfl, rfl⟩ : _ :: rs' = rs ∧ b'' = b₁ := by simpa using heq
  have hlt : src.bytes.length < siz := of_decide_eq_true (hok _ List.mem_cons_self)
  rw [Op.bounded, cut_of_lt hlt] at hholds
  exact whole_of_tracks (tracks hroom hsmall ⟨hholds, hframed⟩ ops) hholds hrun' fun ok hmem =>
    hok ok (List.mem_cons_of_mem _ hmem)

/-- `aaa` -/
def threeA : Str where
  block := ⟨4, fun i => if i < 3 then 0x61 else 0⟩
  off := 0
  bytes := [0x61, 0x61, 0x61]
  holds := ⟨by decide, by decide, by decide, by decide⟩
  small := by decide

/-- Eight bytes from the third one on, in memory full of `x`. -/
theorem strl_tracks_full : ∃ o : Option (Text 8), Holds ⟨16, fun _ => 0x78⟩ 2 o ∧
    Tracks (Op.exec 2 8) Bounded (Stands ⟨16, fun _ => 0x78⟩ 2) ⟨16, fun _ => 0x78⟩ o
      [.cat threeA, .cpy threeA, .cat threeA, .cat threeA] :=
  (strl_tracks ⟨16, fun _ => 0x78⟩ 2 8 (by decide) (by decide) _).1

/-! ## 5. The strings of the other modules -/

/-- `Uri.strlcat` is `u_strlcat` to a buffer of `U_URI_STRMAX` bytes, for any way to write
characters as bytes. -/
theorem uStrlcat_uri {enc : Char → UInt8} {s chars : List Char} {src : Str}
    (hdst : CStr b dst (s.map enc)) (hlt : s.length < uriStrMax)
    (hsrc : src.bytes = chars.map enc) (hroom : dst + uriStrMax ≤ b.size)
    (hsmall : b.size < 2 ^ 63) :
    ∃ b', uStrlcat b dst src.block src.off uriStrMax = some ((Uri.strlcat s chars).isSome, b') ∧
      ∀ t, Uri.strlcat s chars = some t → CStr b' dst (t.map enc) := by
  let u : Text uriStrMax := ⟨s.map enc, hdst.nul_free, by rwa [List.length_map]⟩
  obtain ⟨b', hcat, hholds, -⟩ := exec_cat (o := some u) hdst src hroom hsmall
  have hbytes : u.bytes.length + src.bytes.length = s.length + chars.length := by
    rw [hsrc, List.length_map, List.length_map]
  have hret : (Op.bounded (some u) (.cat src)).1 = (Uri.strlcat s chars).isSome := by
    rw [Op.bounded, Uri.strlcat, hbytes]
    split <;> simp [*]
  refine ⟨b', hret ▸ hcat, fun t ht => ?_⟩
  obtain ⟨u', hu', hwhole⟩ := bounded_whole (hret.trans (by rw [ht, Option.isSome_some]))
  rw [hu'] at hholds
  obtain ⟨-, rfl⟩ : s.length + chars.length < uriStrMax ∧ s ++ chars = t := by
    simpa [Uri.strlcat] using ht
  have htext : u'.bytes = (s ++ chars).map enc := by
    rw [hwhole, Op.whole, hsrc, List.map_append]
  exact htext ▸ hholds

/-- `Json.strlcpy` is `u_strlcpy` to a buffer of `U_TOKEN_SZ` bytes. -/
theorem uStrlcpy_json {enc : Char → UInt8} {chars : List Char} {src : Str}
    (hsrc : src.bytes = chars.map enc) (hroom : dst + tokenSz ≤ b.size) :
    ∃ b', uStrlcpy b dst src.block src.off tokenSz = some ((Json.strlcpy chars).isSome, b') ∧
      ∀ t, Json.strlcpy chars = some t → CStr b' dst (t.map enc) := by
  obtain ⟨b', hcpy, hholds, -⟩ := exec_cpy src hroom
  have hret : decide (src.bytes.length < tokenSz) = (Json.strlcpy chars).isSome := by
    rw [Json.strlcpy, hsrc, List.length_map]
    split <;> simp [*]
  refine ⟨b', hret ▸ hcpy, fun t ht => ?_⟩
  obtain ⟨hlt, rfl⟩ : chars.length < tokenSz ∧ chars = t := by simpa [Json.strlcpy] using ht
  rw [cut_of_lt (by rwa [hsrc, List.length_map])] at hholds
  exact hsrc ▸ hholds

end

end Libu.Strl
