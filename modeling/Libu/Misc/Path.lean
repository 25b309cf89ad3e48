/-
# Building path names (`u_path_snprintf` of `toolbox/misc.c`)

Separators behind separators are taken out of the buffer from its end on, each with a `memmove` of
the rest of the string and its NUL.

* §1 is the code.  What `vsnprintf` makes of its arguments is up to them; a store out of the buffer
  has no result.
* §2 is the purpose: runs of separators become one (`Squeezed`), which determines the result.
* §3: the loop makes one step of `squeeze` in each turn, and the string stays one
  (`pathLoop_spec`).
* §4: what is left in the buffer, and that it stays as it is when it goes through again
  (`path_snprintf_spec`).
-/
import Mathlib.Data.List.Induction
import Mathlib.Data.List.TakeWhile
import Libu.Verif.CStr

namespace Libu.Path

open Verif

/-! ## 1. The code -/

/-- `INT_MAX` -/
def intMax : Nat := 2 ^ 31 - 1

/-- A text that `vsnprintf` prints: its length, which it returns, is an `int`. -/
structure Printed where
  text : List UInt8
  le : text.length ≤ intMax

/-- `vsnprintf`: what it returns, and the buffer.  Nothing is printed (`out` is `none`) on an output
error and, where the platform has this limit, for an `sz` above `INT_MAX` (`EOVERFLOW`). -/
def vsnprintf (buf : Block UInt8) (sz : Nat) (out : Option Printed) :
    Option (Option Nat × Block UInt8) :=
  match out with
  | none => some (none, buf)
  | some p =>
    if sz = 0 then some (some p.text.length, buf)
    else do
      let buf ← buf.store 0 (p.text.take (sz - 1) ++ [0])
      some (some p.text.length, buf)

/-- `memmove(buf + i, buf + i + 1, n)` -/
def memmove (buf : Block UInt8) (i n : Nat) : Option (Block UInt8) := do
  let bs ← buf.load (i + 1) n
  buf.store i bs

/-- The loop from `i` on, over a string of length `len`. -/
def pathLoop (sep : UInt8) : Nat → Nat → Block UInt8 → Option (Block UInt8)
  | 0, _, buf => some buf
  | i + 1, len, buf => do
    let c ← buf.read (i + 1)
    let d ← buf.read i
    if c = sep ∧ d = sep then
      -- as a `size_t`, `len - i` is out of bounds when it is negative
      if len < i + 1 then none
      else do
        let buf ← memmove buf (i + 1) (len - (i + 1))
        pathLoop sep i (len - 1) buf
    else pathLoop sep i len buf

/-- `u_path_snprintf`: whether it returns 0, and the buffer. -/
def uPathSnprintf (buf : Block UInt8) (sz : Nat) (sep : UInt8) (out : Option Printed) :
    Option (Bool × Block UInt8) := do
  let (wr, buf) ← vsnprintf buf sz out
  match wr with
  | none => some (false, buf)
  | some wr =>
    if sz ≤ wr then some (false, buf)
    else do
      let len ← buf.strlen 0
      let buf ← pathLoop sep len len buf
      some (true, buf)

/-! ## 2. Runs of separators -/

section

variable {α : Type} {sep : α}

/-- In `t`, every longest run of separators of `s` is a single one, and all else is as it is. -/
inductive Squeezed (sep : α) : List α → List α → Prop
  | nil : Squeezed sep [] []
  | char {c : α} {s t : List α} : c ≠ sep → Squeezed sep s t → Squeezed sep (c :: s) (c :: t)
  | run {n : Nat} {s t : List α} : s.head? ≠ some sep → Squeezed sep s t →
      Squeezed sep (List.replicate (n + 1) sep ++ s) (sep :: t)

/-- A run is not followed by a separator, so it is the same in any reading. -/
theorem run_inj : ∀ {n m : Nat} {s s' : List α}, s.head? ≠ some sep → s'.head? ≠ some sep →
    List.replicate n sep ++ s = List.replicate m sep ++ s' → s = s'
  | 0, 0, _, _, _, _, heq => heq
  | 0, m + 1, _, _, hs, _, heq => by
    rw [List.replicate_zero, List.nil_append] at heq
    exact absurd (congrArg List.head? heq) hs
  | n + 1, 0, _, _, _, hs', heq => by
    rw [List.replicate_zero, List.nil_append] at heq
    exact absurd (congrArg List.head? heq.symm) hs'
  | n + 1, m + 1, _, _, hs, hs', heq => run_inj hs hs' (List.cons.inj heq).2

/-- **There is one way to squeeze a string.** -/
theorem Squeezed.unique {s t t' : List α} (h : Squeezed sep s t) (h' : Squeezed sep s t') :
    t = t' := by
  induction h generalizing t' with
  | nil =>
    generalize hs : ([] : List α) = s at h'
    cases h' with
    | nil => rfl
    | char => cases hs
    | run => cases hs
  | @char c s t hc hrest ih =>
    generalize hs : c :: s = s' at h'
    cases h' with
    | nil => cases hs
    | char _ hrest' =>
      obtain ⟨rfl, rfl⟩ := List.cons.inj hs
      rw [ih hrest']
    | run => exact absurd (List.cons.inj hs).1 hc
  | @run n s t hs hrest ih =>
    generalize heq : List.replicate (n + 1) sep ++ s = s' at h'
    cases h' with
    | nil => cases heq
    | char hc => exact absurd (List.cons.inj heq).1.symm hc
    | run hs' hrest' =>
      obtain rfl := run_inj hs hs' heq
      rw [ih hrest']

theorem Squeezed.head_eq {s t : List α} (h : Squeezed sep s t) : s.head? = t.head? := by
  cases h <;> rfl

/-- **A string that is squeezed stays as it is.** -/
theorem Squeezed.again {s t : List α} (h : Squeezed sep s t) : Squeezed sep t t := by
  induction h with
  | nil => exact .nil
  | char hc _ ih => exact .char hc ih
  | run hs hrest ih =>
    rw [hrest.head_eq] at hs
    exact .run (n := 0) hs ih

variable [DecidableEq α]

/-- One character in front of a string that is squeezed. -/
def squeezeCons (sep c : α) (v : List α) : List α :=
  if c = sep ∧ v.head? = some sep then v else c :: v

def squeeze (sep : α) (s : List α) : List α := s.foldr (squeezeCons sep) []

theorem Squeezed.squeezeCons {s t : List α} (c : α) (h : Squeezed sep s t) :
    Squeezed sep (c :: s) (squeezeCons sep c t) := by
  rw [Path.squeezeCons]
  by_cases hc : c = sep
  · subst hc
    by_cases ht : t.head? = some c
    · rw [if_pos ⟨rfl, ht⟩]
      cases h with
      | nil => cases ht
      | char hc => exact absurd (Option.some.inj ht) hc
      | run hs hrest => exact .run hs hrest
    · rw [if_neg fun hboth => ht hboth.2]
      rw [← h.head_eq] at ht
      exact .run (n := 0) ht h
  · rw [if_neg fun hboth => hc hboth.1]
    exact .char hc h

theorem squeezed_squeeze (sep : α) (s : List α) : Squeezed sep s (squeeze sep s) := by
  induction s with
  | nil => exact .nil
  | cons c s ih => exact ih.squeezeCons c

end

/-! ## 3. The loop -/

section

variable {sep : UInt8} {b : Block UInt8} {u v : List UInt8} {c : UInt8}

/-- What is at the cursor: the first character of the rest, or the NUL. -/
theorem read_rest (h : CStr b 0 (u ++ v)) : b.read u.length = some (v.head?.getD 0) := by
  have hroom := h.room
  rw [Nat.zero_add, List.length_append] at hroom
  rw [Block.read_of_lt (by omega)]
  cases v with
  | nil =>
    have hnul := h.nul
    rw [List.append_nil, Nat.zero_add] at hnul
    rw [hnul]
    rfl
  | cons d w =>
    have hbyte := h.byte_eq (i := u.length) (by simp)
    rw [Nat.zero_add] at hbyte
    rw [hbyte, List.getElem_append_right (Nat.le_refl _)]
    simp

/-- **A `memmove` takes out the character at the cursor.** -/
theorem memmove_rest (h : CStr b 0 (u ++ c :: v)) :
    ∃ b', memmove b u.length (v.length + 1) = some b' ∧ b'.size = b.size ∧ CStr b' 0 (u ++ v) := by
  have hroom := h.room
  rw [Nat.zero_add, List.length_append, List.length_cons] at hroom
  have hrest : CStr b (0 + (u ++ [c]).length) v := by
    refine CStr.drop ?_
    rw [List.append_assoc]
    exact h
  have hload := hrest.load
  rw [Nat.zero_add, List.length_append, List.length_singleton, Nat.add_comm 1] at hload
  have hstore : b.store (0 + u.length) (v ++ [0]) =
      some ⟨b.size, overlay b.byte (0 + u.length) (v ++ [0])⟩ := by
    refine Block.store_of_le ?_
    rw [Nat.zero_add, List.length_append, List.length_singleton]
    omega
  refine ⟨⟨b.size, overlay b.byte (0 + u.length) (v ++ [0])⟩, ?_, rfl, ?_⟩
  · rw [memmove, hload, ← hstore, Nat.zero_add]
    rfl
  · refine CStr.of_slice ?_ ?_ hstore
    · have htake := take_slice b.byte 0
        (List.length_append ▸ Nat.le_add_right u.length (c :: v).length)
      rw [h.bytes, List.take_left] at htake
      exact htake.symm
    · intro hmem
      refine h.nul_free ?_
      rw [List.mem_append] at hmem ⊢
      exact hmem.imp_right (List.mem_cons_of_mem c)

/-- What the code compares tells whether `squeezeCons` drops the character. -/
theorem both_sep_iff (h : CStr b 0 (u ++ c :: v)) :
    v.head?.getD 0 = sep ∧ c = sep ↔ c = sep ∧ v.head? = some sep := by
  cases v with
  | nil =>
    constructor
    · rintro ⟨hd, hc⟩
      -- the NUL is no character of the string
      have hc0 : c = 0 := hc.trans hd.symm
      exact absurd (List.mem_append_right u (hc0 ▸ List.mem_singleton_self c)) h.nul_free
    · rintro ⟨_, hd⟩
      cases hd
  | cons d w =>
    rw [List.head?_cons, Option.getD_some, Option.some_inj]
    exact And.comm

/-- **The loop squeezes what is before the cursor.** -/
theorem pathLoop_spec (sep : UInt8) (h : CStr b 0 (u ++ v)) :
    ∃ b', pathLoop sep u.length (u ++ v).length b = some b' ∧ b'.size = b.size ∧
      CStr b' 0 (u.foldr (squeezeCons sep) v) := by
  induction u using List.reverseRecOn generalizing v b with
  | nil => exact ⟨b, rfl, rfl, h⟩
  | append_singleton u c ih =>
    have hd := read_rest h
    rw [List.append_assoc, List.singleton_append] at h
    have hc := read_rest h
    rw [List.head?_cons, Option.getD_some] at hc
    rw [List.length_append, List.length_singleton] at hd
    rw [List.foldr_append, List.foldr_cons, List.foldr_nil, List.append_assoc,
      List.singleton_append, List.length_append, List.length_singleton, pathLoop, hd, hc]
    dsimp only [Option.bind_eq_bind, Option.bind_some]
    rw [squeezeCons]
    by_cases hboth : c = sep ∧ v.head? = some sep
    · rw [if_pos ((both_sep_iff h).mpr hboth), if_pos hboth]
      obtain ⟨rfl, hhead⟩ := hboth
      obtain ⟨w, rfl⟩ : ∃ w, v = c :: w := by
        cases v with
        | nil => cases hhead
        | cons d w => exact ⟨w, congrArg (· :: w) (Option.some.inj hhead)⟩
      have hlen : (u ++ c :: c :: w).length = u.length + 1 + (w.length + 1) := by
        simp only [List.length_append, List.length_cons]
        omega
      have hmove := memmove_rest (u := u ++ [c]) (c := c) (v := w)
        (by rw [List.append_assoc]; exact h)
      rw [List.length_append, List.length_singleton, List.append_assoc] at hmove
      obtain ⟨b₁, hmove, hsize₁, h₁⟩ := hmove
      obtain ⟨b₂, hloop, hsize₂, h₂⟩ := ih h₁
      refine ⟨b₂, ?_, hsize₂.trans hsize₁, h₂⟩
      have hone : u.length + 1 + (w.length + 1) - 1 = (u ++ c :: w).length := by
        simp only [List.length_append, List.length_cons]
        omega
      rw [hlen, if_neg (by omega), Nat.add_sub_cancel_left, hmove, Option.bind_some, hone]
      exact hloop
    · rw [if_neg ((both_sep_iff h).not.mpr hboth), if_neg hboth]
      exact ih h

end

/-! ## 4. What is left in the buffer -/

/-- Behind the characters before the first NUL there is one. -/
theorem takeWhile_nul : ∀ t : List UInt8, ∃ r, t ++ [0] = t.takeWhile (· ≠ 0) ++ 0 :: r
  | [] => ⟨[], rfl⟩
  | c :: t => by
    obtain ⟨r, hr⟩ := takeWhile_nul t
    by_cases hc : c = 0
    · subst hc
      exact ⟨t ++ [0], rfl⟩
    · refine ⟨r, ?_⟩
      rw [List.takeWhile_cons_of_pos (by simpa using hc), List.cons_append, hr, List.cons_append]

theorem Squeezed.length_le {α : Type} {sep : α} {s t : List α} (h : Squeezed sep s t) :
    t.length ≤ s.length := by
  induction h with
  | nil => exact Nat.le_refl 0
  | char _ _ ih => exact Nat.succ_le_succ ih
  | run _ _ ih =>
    rw [List.length_append, List.length_replicate, List.length_cons]
    omega

section

variable {buf : Block UInt8} {sz : Nat} {p : Printed}

/-- What was stored is a string up to its first NUL. -/
theorem cstr_overlay {b : Block UInt8} {t : List UInt8} (hfit : t.length < b.size) :
    CStr ⟨b.size, overlay b.byte 0 (t ++ [0])⟩ 0 (t.takeWhile (· ≠ 0)) := by
  obtain ⟨r, hr⟩ := takeWhile_nul t
  have hall := slice_overlay_self b.byte 0 (t ++ [0])
  have hlen := congrArg List.length hr
  rw [List.length_append, List.length_singleton, List.length_append, List.length_cons] at hlen
  refine ⟨fun hmem => ?_, by dsimp only; omega, ?_, ?_⟩
  · have hne := List.mem_takeWhile_imp hmem
    exact absurd hne (by decide)
  · have htake := take_slice (overlay b.byte 0 (t ++ [0])) 0
      (t := (t.takeWhile (· ≠ 0)).length) (n := (t ++ [0]).length)
      (by rw [List.length_append, List.length_singleton]; omega)
    rw [hall, hr, List.take_left] at htake
    rw [hr]
    exact htake.symm
  · have hmem : (t.takeWhile (· ≠ 0)).length < (t ++ [0]).length := by
      rw [List.length_append, List.length_singleton]
      omega
    refine (overlay_of_mem b.byte 0 hmem).trans ?_
    simp only [hr, List.getElem_append_right (Nat.le_refl _), Nat.sub_self, List.getElem_cons_zero]

/-- A text that fits is squeezed in the buffer, up to its first NUL. -/
theorem path_snprintf_spec (sep : UInt8) (hsz : sz ≤ buf.size) (hfit : p.text.length < sz) :
    ∃ buf', uPathSnprintf buf sz sep (some p) = some (true, buf') ∧
      CStr buf' 0 (squeeze sep (p.text.takeWhile (· ≠ 0))) := by
  have htake : p.text.take (sz - 1) = p.text := List.take_of_length_le (by omega)
  have hstore : buf.store 0 (p.text ++ [0]) = some
    ⟨buf.size, overlay buf.byte 0 (p.text ++ [0])⟩ := by
    refine Block.store_of_le ?_
    rw [List.length_append, List.length_singleton]
    omega
  have hstr := cstr_overlay (b := buf) (t := p.text) (by omega)
  rw [← List.append_nil (p.text.takeWhile _)] at hstr
  have hloop := pathLoop_spec sep hstr
  rw [List.append_nil] at hloop hstr
  obtain ⟨buf', hloop, -, h'⟩ := hloop
  refine ⟨buf', ?_, h'⟩
  rw [uPathSnprintf, vsnprintf, if_neg (by omega), htake, hstore]
  dsimp only [Option.bind_eq_bind, Option.bind_some]
  rw [if_neg (by omega), hstr.strlen, Option.bind_some, hloop, Option.bind_some]

/-- **What fits the buffer is left there with single separators for runs of them, and such a string,
printed again, stays as it is.**  The loop goes from the end of the string to its front, and where a
separator has another one before it, all that follows moves down by one, the NUL included. -/
theorem path_snprintf (sep : UInt8) (hsz : sz ≤ buf.size) (hfit : p.text.length < sz) :
    ∃ buf' t, uPathSnprintf buf sz sep (some p) = some (true, buf') ∧
      Squeezed sep (p.text.takeWhile (· ≠ 0)) t ∧ CStr buf' 0 t ∧ t.length < sz ∧
      ∀ (again : Block UInt8) (sz' : Nat) (p' : Printed), sz' ≤ again.size → p'.text = t →
        p'.text.length < sz' →
        ∃ again', uPathSnprintf again sz' sep (some p') = some (true, again') ∧
          CStr again' 0 t := by
  obtain ⟨buf', hrun, hstr⟩ := path_snprintf_spec sep hsz hfit
  have hsq := squeezed_squeeze sep (p.text.takeWhile (· ≠ 0))
  have hshort := hsq.length_le
  have hcut : (p.text.takeWhile (· ≠ 0)).length ≤ p.text.length :=
    (List.takeWhile_sublist _).length_le
  refine ⟨buf', _, hrun, hsq, hstr, by omega, ?_⟩
  intro again sz' p' hsz' htext hfit'
  obtain ⟨again', hrun', hstr'⟩ := path_snprintf_spec sep hsz' hfit'
  refine ⟨again', hrun', ?_⟩
  have hall : p'.text.takeWhile (· ≠ 0) = p'.text := by
    rw [List.takeWhile_eq_self_iff]
    intro c hc
    rw [htext] at hc
    exact decide_eq_true fun h0 => hstr.nul_free (h0 ▸ hc)
  rw [hall, htext, (squeezed_squeeze _ _).unique hsq.again] at hstr'
  exact hstr'

/-- `"//a///b//"` -/
theorem path_snprintf_slashes :
    ∃ buf' t, uPathSnprintf ⟨12, fun _ => 7⟩ 12 47
        (some ⟨[47, 47, 97, 47, 47, 47, 98, 47, 47], by decide⟩) = some (true, buf') ∧
      Squeezed 47 [47, 47, 97, 47, 47, 47, 98, 47, 47] t ∧ CStr buf' 0 t ∧ t.length < 12 := by
  obtain ⟨buf', t, hrun, hsq, hstr, hlt, -⟩ := @path_snprintf ⟨12, fun _ => 7⟩ 12
    ⟨[47, 47, 97, 47, 47, 47, 98, 47, 47], by decide⟩ 47 (by decide) (by decide)
  exact ⟨buf', t, hrun, hsq, hstr, hlt⟩

end

end Libu.Path
