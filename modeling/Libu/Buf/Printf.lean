/-
# `u_buf_printf` and its retries

When the text has not been written whole, the buffer is made bigger by `U_MIN(128, sz + 1)` bytes.
That is enough for a text of less than 128 bytes, and for a longer one it is 128 bytes: the next
round finds no more space than that, asks for the size that the buffer has, and prints again.

* §1: the sizes fit the block in every state that is reached.
* §2: the bytes in use.
* §3: when the call returns (`printed_iff`).

A call that does not return is shown by an invariant of its rounds (`Stuck`): the text does not fit,
and the size that is asked for is one that the buffer has.  Each round keeps this, as all that it
changes is bytes behind those in use.  In the other states one round is enough, or two with more
memory between them.
-/
import Libu.Buf.Rep

namespace Libu.Buf

open Verif

section

variable {b b' : Buf} {size off : Nat} {alloc : Alloc} {junk : Nat → UInt8}
    {data text bs : List UInt8}

/-! ## 1. States that are reached -/

/-- What is reserved when `u_buf_reserve` succeeds is at least what was asked for. -/
theorem sound_reserve (h : Sound b) {ret : Int} (hr : b.reserve size alloc = some (ret, b')) :
    Sound b' ∧ (ret = 0 → size ≤ b'.size) := by
  by_cases hle : size ≤ b.size
  · rw [reserve_of_le hle] at hr
    obtain ⟨-, rfl⟩ := Prod.mk.inj (Option.some.inj hr)
    exact ⟨h, fun _ => hle⟩
  · have hlt := Nat.not_le.mp hle
    by_cases hasks : b.Asks size alloc
    · cases alloc with
      | none =>
        rw [reserve_none hlt hasks] at hr
        obtain ⟨rfl, rfl⟩ := Prod.mk.inj (Option.some.inj hr)
        exact ⟨h, fun hret => absurd hret (by decide)⟩
      | some junk =>
        have hsize : size + 1 < 2 ^ 64 := hasks
        rw [reserve_some hlt hsize] at hr
        obtain ⟨-, rfl⟩ := Prod.mk.inj (Option.some.inj hr)
        exact ⟨h.grown junk hlt hsize, fun _ => Nat.le_refl _⟩
    · rw [reserve_wrapped hlt hasks] at hr
      cases hr

/-- No outcome of an append spoils the sizes. -/
theorem sound_append (h : Sound b) {ret : Int} (hr : b.append data alloc = some (ret, b')) :
    Sound b' := by
  by_cases hnil : data = []
  · subst hnil
    obtain ⟨-, rfl⟩ := Prod.mk.inj (Option.some.inj hr)
    exact h
  by_cases hroom : b.Room data.length alloc
  · rcases append_room h hnil hroom with ⟨-, -, heq⟩ | ⟨-, b₁, heq, hrep⟩
    · obtain ⟨-, rfl⟩ := Prod.mk.inj (Option.some.inj (heq.symm.trans hr))
      exact h
    · obtain ⟨-, rfl⟩ := Prod.mk.inj (Option.some.inj (heq.symm.trans hr))
      exact hrep.toSound
  · rw [append_out h hnil hroom] at hr
    cases hr

/-- A store that has a result has changed bytes of the block only. -/
theorem store_eq (hr : b.store off bs = some b') : b' = b.overlaid off bs := by
  unfold Buf.store at hr
  unfold Buf.overlaid
  cases hd : b.data with
  | none =>
    rw [hd] at hr
    dsimp only at hr
    split at hr
    · obtain rfl := Option.some.inj hr
      rw [Option.map_none, ← hd]
    · cases hr
  | some d =>
    rw [hd] at hr
    obtain ⟨d', hd', rfl⟩ := Option.map_eq_some_iff.mp hr
    unfold Block.store at hd'
    split at hd'
    · obtain rfl := Option.some.inj hd'
      rfl
    · cases hd'

/-- A load does not spoil the sizes, however much of the file is read. -/
theorem sound_load (h : Sound b) {file : Option File} {ret : Int}
    (hr : b.load file alloc = some (ret, b')) : Sound b' := by
  cases file with
  | none =>
    obtain ⟨-, rfl⟩ := Prod.mk.inj (Option.some.inj hr)
    exact h
  | some f =>
    rw [load_eq] at hr
    obtain ⟨⟨ret₁, b₁⟩, hreserve, hr⟩ := Option.bind_eq_some_iff.mp hr
    obtain ⟨hsound, hsize⟩ := sound_reserve h.clear hreserve
    dsimp only at hr
    split at hr
    · obtain ⟨-, rfl⟩ := Prod.mk.inj (Option.some.inj hr)
      exact hsound
    · next hret =>
      rw [fill] at hr
      split at hr
      · obtain ⟨-, rfl⟩ := Prod.mk.inj (Option.some.inj hr)
        exact hsound
      · obtain ⟨b₂, hstore, hr⟩ := Option.bind_eq_some_iff.mp hr
        obtain rfl := store_eq hstore
        split at hr
        · obtain ⟨-, rfl⟩ := Prod.mk.inj (Option.some.inj hr)
          exact (hsound.overlaid _ _).with_len (hsize (not_not.mp hret))
        · obtain ⟨-, rfl⟩ := Prod.mk.inj (Option.some.inj hr)
          exact hsound.overlaid _ _

/-- A `u_buf_printf` does not spoil the sizes in any of its rounds. -/
theorem sound_printf (h : Sound b) {n : Nat} {ret : Option Int}
    (hr : printf n b text alloc = some (ret, b')) : Sound b' := by
  induction n generalizing b with
  | zero =>
    obtain ⟨-, rfl⟩ := Prod.mk.inj (Option.some.inj hr)
    exact h
  | succ n ih =>
    rw [printf_succ h] at hr
    split at hr
    · obtain ⟨-, rfl⟩ := Prod.mk.inj (Option.some.inj hr)
      exact h.formatInto text
    split at hr
    · obtain ⟨⟨ret₁, b₁⟩, hreserve, hr⟩ := Option.bind_eq_some_iff.mp hr
      obtain ⟨hsound, -⟩ := sound_reserve (h.formatInto text) hreserve
      dsimp only at hr
      split at hr
      · obtain ⟨-, rfl⟩ := Prod.mk.inj (Option.some.inj hr)
        exact hsound
      · obtain ⟨b₂, hstore, hr⟩ := Option.bind_eq_some_iff.mp hr
        obtain rfl := store_eq hstore
        exact ih (hsound.overlaid _ _) hr
    · next hfit =>
      obtain ⟨-, rfl⟩ := Prod.mk.inj (Option.some.inj hr)
      have hle := h.le
      rw [add_len_eq h (by omega)]
      exact (h.formatInto text).with_len (by rw [formatInto_size]; omega)

/-- No call spoils the sizes. -/
theorem sound_step (h : Sound b) {op : Op} {ret : Option Int}
    (hr : step b op = some (ret, b')) : Sound b' := by
  cases op with
  | reserve size alloc =>
    obtain ⟨r, hreserve, heq⟩ := Option.map_eq_some_iff.mp hr
    obtain ⟨-, rfl⟩ := Prod.mk.inj heq
    exact (sound_reserve h hreserve).1
  | append data alloc =>
    obtain ⟨r, happend, heq⟩ := Option.map_eq_some_iff.mp hr
    obtain ⟨-, rfl⟩ := Prod.mk.inj heq
    exact sound_append h happend
  | set data alloc =>
    obtain ⟨r, hset, heq⟩ := Option.map_eq_some_iff.mp hr
    obtain ⟨-, rfl⟩ := Prod.mk.inj heq
    rw [set] at hset
    split at hset
    · obtain rfl := Option.some.inj hset
      exact h
    · exact sound_append h.clear hset
  | printf rounds text alloc => exact sound_printf h hr
  | clear =>
    obtain ⟨-, rfl⟩ := Prod.mk.inj (Option.some.inj hr)
    exact h.clear
  | shrink newlen =>
    obtain ⟨-, rfl⟩ := Prod.mk.inj (Option.some.inj hr)
    rw [shrink]
    split
    · exact h
    · next hle => exact h.with_len (Nat.le_trans (Nat.not_lt.mp hle) h.le)
  | load file alloc =>
    obtain ⟨r, hload, heq⟩ := Option.map_eq_some_iff.mp hr
    obtain ⟨-, rfl⟩ := Prod.mk.inj heq
    exact sound_load h hload
  | detach =>
    obtain ⟨-, rfl⟩ := Prod.mk.inj (Option.some.inj hr)
    exact sound_create

/-- **In every state that is reached**, the sizes fit the block. -/
theorem sound_run {ops : List Op} {rs : List (Option Int)}
    (hrun : run step create ops = some (rs, b)) : Sound b :=
  Guarded.run_induct (C := fun _ _ => True) (fun _ _ _ _ h _ hst => sound_step h hst)
    (guarded_of_forall (fun _ _ => trivial) ops create) sound_create hrun

/-! ## 2. The bytes in use -/

/-- What is stored behind the bytes in use does not change them. -/
theorem contents_overlaid (hoff : b.len ≤ off) : (b.overlaid off bs).contents = b.contents := by
  unfold contents Buf.overlaid
  cases b.data with
  | none => rfl
  | some d =>
    exact slice_overlay_of_disjoint d.byte
      (.inl (Nat.le_trans (Nat.le_of_eq (Nat.zero_add _)) hoff))

/-- Growing keeps the bytes in use. -/
theorem Sound.contents_grown (h : Sound b) (hlt : b.size < size) :
    (b.grown size junk).contents = b.contents := by
  have hle := h.le
  have hfit : 0 + b.len ≤ size := by omega
  have hbytes : (b.grown size junk).contents = slice (b.bytes junk) 0 b.len :=
    slice_overlay_of_disjoint (b.bytes junk) (.inl hfit)
  rw [hbytes]
  unfold contents bytes
  cases hd : b.data with
  | none =>
    rw [h.null hd] at hle
    rw [Nat.le_zero.mp hle]
    rfl
  | some d =>
    have hsize := h.alloc d hd
    refine slice_congr fun i hi => ?_
    dsimp only
    rw [if_pos (by omega)]

/-- vsnprintf writes behind the bytes in use. -/
theorem contents_formatInto : (b.formatInto text).contents = b.contents := by
  rw [formatInto]
  split
  · rfl
  · exact contents_overlaid (Nat.le_refl _)

/-- A text that is written whole is behind the bytes in use. -/
theorem Sound.contents_printed (h : Sound b) (hp : b.Printable text)
    (hfit : text.length < b.size - b.len) :
    ({ b.formatInto text with len := b.len + text.length } : Buf).contents =
    b.contents ++ text := by
  have hlong : ¬ ((intMax < b.size - b.len ∨ intMax < text.length) ∨ b.size - b.len = 0) :=
    not_or.mpr ⟨not_or.mpr ⟨Nat.not_lt.mpr hp.1, Nat.not_lt.mpr hp.2⟩, by omega⟩
  obtain ⟨d, hd⟩ := h.exists_data (by omega)
  have heq : b.formatInto text = b.overlaid b.len (text ++ [0]) := by
    rw [Buf.formatInto, if_neg hlong, List.take_of_length_le (by omega)]
  have hfront : slice (overlay d.byte b.len (text ++ [0])) 0 b.len = slice d.byte 0 b.len :=
    slice_overlay_of_disjoint d.byte (.inl (Nat.le_of_eq (Nat.zero_add _)))
  have hself := slice_overlay_self d.byte b.len (text ++ [0])
  have hback : slice (overlay d.byte b.len (text ++ [0])) b.len text.length = text := by
    rw [← take_slice (n := (text ++ [0]).length) _ _ (by simp), hself, List.take_left' rfl]
  rw [heq]
  unfold contents Buf.overlaid
  rw [hd]
  dsimp only [Option.map_some]
  rw [slice_add, hfront, Nat.zero_add, hback]

/-! ## 3. Rounds -/

/-- What has not been written whole is not written whole in the next round either. -/
structure Stuck (b : Buf) (text : List UInt8) : Prop where
  settled : b.Settled text
  short : b.size - b.len ≤ sizeOfInt (b.formatted text)
  nonzero : sizeOfInt (b.formatted text) ≠ 0

/-- Being stuck is a matter of the sizes and of whether there is a block. -/
theorem stuck_congr (hdata : b'.data = none ↔ b.data = none) (hsize : b'.size = b.size)
    (hlen : b'.len = b.len) (h : b.Stuck text) : b'.Stuck text := by
  have hformatted : b'.formatted text = b.formatted text := by
    rw [formatted, formatted, hsize, hlen]
  refine ⟨settled_congr hdata hsize hlen h.settled, ?_, ?_⟩
  · rw [hformatted, hsize, hlen]
    exact h.short
  · rw [hformatted]
    exact h.nonzero

/-- No store makes a difference to a call that is stuck. -/
theorem Stuck.overlaid (h : b.Stuck text) (off : Nat) (bs : List UInt8) :
    (b.overlaid off bs).Stuck text :=
  stuck_congr overlaid_data rfl rfl h

/-- The rest of a round that does not end the call: a NUL behind the bytes in use, and the next
round. -/
theorem Stuck.again (hs : b.Stuck text) (h : Sound b) (n : Nat)
    (ih : ∀ {b}, Stuck b text → Sound b → ∃ b', printf n b text alloc = some (none, b')) :
    ∃ b', (b.store b.len [0] >>= fun b => printf n b text alloc) = some (none, b') := by
  rw [h.store b.len [0] hs.settled.1 (Nat.succ_le_succ h.le)]
  exact ih (hs.overlaid b.len [0]) (h.overlaid _ _)

/-- **A call that is stuck** never returns: however many rounds it is followed, it has not. -/
theorem Stuck.printf (hs : b.Stuck text) (h : Sound b) (alloc : Alloc) (n : Nat) :
    ∃ b', Buf.printf n b text alloc = some (none, b') := by
  induction n generalizing b with
  | zero => exact ⟨b, rfl⟩
  | succ n ih =>
    have hreserve : (b.formatInto text).reserve (b.wanted text) alloc =
      some (0, b.formatInto text) :=
      reserve_of_le (Nat.le_trans hs.settled.2 (Nat.le_of_eq formatInto_size.symm))
    rw [printf_succ h, if_neg hs.nonzero, if_pos hs.short, hreserve]
    exact (stuck_congr formatInto_data formatInto_size formatInto_len hs).again
      (h.formatInto text) n ih

/-- The call returns 0 after some number of rounds, and the text is behind what was in use. -/
def Printed (b : Buf) (text : List UInt8) (junk : Nat → UInt8) : Prop :=
  ∃ n b', printf n b text (some junk) = some (some 0, b') ∧ b'.contents = b.contents ++ text

/-- What is stuck does not get to print the text. -/
theorem Stuck.not_printed (hs : b.Stuck text) (h : Sound b) : ¬ b.Printed text junk := by
  rintro ⟨n, b', heq, -⟩
  obtain ⟨b'', hstuck⟩ := hs.printf h (some junk) n
  rw [hstuck] at heq
  cases heq

/-- There is room for the text, or less than 128 bytes are to be written, so that one enlargement is
enough. -/
structure Prints (b : Buf) (text : List UInt8) : Prop where
  printable : b.Printable text
  room : text.length < b.size - b.len ∨ text.length < 128 ∧ b.len + text.length + 2 < 2 ^ 64

/-- A text for which there is room is printed in the first round. -/
theorem printf_of_fits (h : Sound b) (hp : b.Printable text) (hne : text ≠ [])
    (hfit : text.length < b.size - b.len) (n : Nat) : printf (n + 1) b text alloc =
      some (some 0, { b.formatInto text with len := b.len + text.length }) := by
  have hlen : text.length ≠ 0 := fun hzero => hne (List.length_eq_zero_iff.mp hzero)
  rw [printf_succ h, size_formatted hp, if_neg hlen, if_neg (Nat.not_le.mpr hfit),
    add_len_eq h (by omega)]

/-- A round that makes the buffer bigger, and tries again. -/
theorem printf_grows (h : Sound b) (hp : b.Printable text) (hne : text ≠ [])
    (hfit : b.size - b.len ≤ text.length) (hgrow : b.size < b.enlarged text.length)
    (hsize : b.enlarged text.length + 1 < 2 ^ 64) (n : Nat) : printf (n + 1) b text (some junk) =
      printf n (((b.formatInto text).grown (b.enlarged text.length) junk).overlaid b.len [0]) text
        (some junk) := by
  have hlen : text.length ≠ 0 := fun hzero => hne (List.length_eq_zero_iff.mp hzero)
  have hgrow' : (b.formatInto text).size < b.enlarged text.length := by rwa [formatInto_size]
  have hgrown := (h.formatInto text).grown junk hgrow' hsize
  have hstore := hgrown.store b.len [0] grown_data
    (Nat.succ_le_succ (Nat.le_trans h.le (Nat.le_of_lt hgrow)))
  rw [printf_succ h, size_formatted hp, wanted_eq hp, if_neg hlen, if_pos hfit,
    reserve_some hgrow' hsize]
  dsimp only [Option.bind_eq_bind, Option.bind_some]
  rw [if_neg (not_not.mpr rfl), grown_len, formatInto_len, hstore]
  rfl

/-- Where there is room, or the text is short, the call prints it. -/
theorem printed_of_prints (h : Sound b) (hne : text ≠ []) (hok : b.Prints text) :
    b.Printed text junk := by
  have hp := hok.printable
  by_cases hfit : text.length < b.size - b.len
  · exact ⟨1, _, printf_of_fits h hp hne hfit 0, h.contents_printed hp hfit⟩
  · obtain ⟨hshort, hbound⟩ := hok.room.resolve_left hfit
    have hle := h.le
    have heq : b.enlarged text.length = b.len + text.length + 1 := by
      rw [enlarged, SizeT.add]
      omega
    have hgrow : b.size < b.enlarged text.length := by omega
    have hgrow' : (b.formatInto text).size < b.enlarged text.length := by rwa [formatInto_size]
    -- the buffer for the second round, which is the last
    let b₁ := ((b.formatInto text).grown (b.enlarged text.length) junk).overlaid b.len [0]
    have hsound : Sound b₁ := ((h.formatInto text).grown junk hgrow' (by omega)).overlaid _ _
    have hlen : b₁.len = b.len := formatInto_len
    have hsize : b₁.size = b.enlarged text.length := rfl
    have hroom : text.length < b₁.size - b₁.len := by
      rw [hlen, hsize]
      omega
    have hp₁ : b₁.Printable text := by
      refine ⟨?_, hp.2⟩
      rw [hlen, hsize, intMax]
      omega
    have hcontents : b₁.contents = b.contents :=
      (contents_overlaid (b := (b.formatInto text).grown _ junk)
        (Nat.le_of_eq formatInto_len)).trans
        (((h.formatInto text).contents_grown hgrow').trans contents_formatInto)
    refine ⟨2, { b₁.formatInto text with len := b₁.len + text.length }, ?_, ?_⟩
    · rw [printf_grows h hp hne (Nat.not_lt.mp hfit) hgrow (by omega)]
      exact printf_of_fits hsound hp₁ hne hroom 0
    · rw [hsound.contents_printed hp₁ hroom, hcontents]

/-- A space or a text that is longer than an `int` can say makes vsnprintf fail in each round. -/
theorem not_printed_long (h : Sound b) (hp : ¬ b.Printable text) : ¬ b.Printed text junk := by
  have hle := h.le
  have hbound := h.bound
  by_cases hdata : b.data = none
  · have hstore : (b.formatInto text).store (b.formatInto text).len [0] = none := by
      rw [Buf.store, formatInto_data.mpr hdata]
      exact if_neg (List.cons_ne_nil _ _)
    rintro ⟨n, b', heq, -⟩
    cases n with
    | zero => cases heq
    | succ n =>
      rw [printf_succ h, size_formatted_long hp, wanted_long h hp, if_neg (by decide),
        if_pos (by omega), reserve_of_le (Nat.le_trans hle
          (Nat.le_of_eq formatInto_size.symm))] at heq
      dsimp only [Option.bind_eq_bind, Option.bind_some] at heq
      rw [if_neg (not_not.mpr rfl), hstore] at heq
      cases heq
  · refine Stuck.not_printed ⟨⟨hdata, ?_⟩, ?_, ?_⟩ h
    · rw [wanted_long h hp]
      exact hle
    · rw [size_formatted_long hp]
      omega
    · rw [size_formatted_long hp]
      decide

/-- A text that the retries do not make room for: 128 bytes or more, and not enough space for them.
-/
theorem not_printed_short (h : Sound b) (hp : b.Printable text) (hne : text ≠ [])
    (hfit : b.size - b.len ≤ text.length) (hlong : ¬ (text.length < 128 ∧
      b.len + text.length + 2 < 2 ^ 64)) :
    ¬ b.Printed text junk := by
  have hle := h.le
  have hbound := h.bound
  have hlen : text.length ≠ 0 := fun hzero => hne (List.length_eq_zero_iff.mp hzero)
  by_cases hgrow : b.size < b.enlarged text.length
  · have hgrow' : (b.formatInto text).size < b.enlarged text.length := by rwa [formatInto_size]
    by_cases hsize : b.enlarged text.length + 1 < 2 ^ 64
    · -- the second round and all that follow find 128 bytes
      have heq := enlarged_eq h hgrow
      have hsound := (h.formatInto text).grown junk hgrow' hsize
      have hp₁ : ((b.formatInto text).grown (b.enlarged text.length) junk).Printable text := by
        refine ⟨?_, hp.2⟩
        rw [grown_size, grown_len, formatInto_len, heq, intMax]
        omega
      have hstuck : ((b.formatInto text).grown (b.enlarged text.length) junk).Stuck text := by
        refine ⟨settled_grown h hp hgrow, ?_, ?_⟩
        · rw [size_formatted hp₁, grown_size, grown_len, formatInto_len, heq]
          omega
        · rw [size_formatted hp₁]
          exact hlen
      rintro ⟨n, b', hprintf, -⟩
      cases n with
      | zero => cases hprintf
      | succ n =>
        rw [printf_grows h hp hne hfit hgrow hsize] at hprintf
        obtain ⟨b'', hnone⟩ := (hstuck.overlaid b.len [0]).printf
          (hsound.overlaid _ _) (some junk) n
        rw [hnone] at hprintf
        cases hprintf
    · rintro ⟨n, b', hprintf, -⟩
      cases n with
      | zero => cases hprintf
      | succ n =>
        rw [printf_succ h, size_formatted hp, wanted_eq hp, if_neg hlen, if_pos hfit,
          @reserve_wrapped _ _ (some junk) hgrow' hsize] at hprintf
        cases hprintf
  · have hdata : b.data ≠ none := by
      intro hnone
      have hnull := h.null hnone
      rw [enlarged, SizeT.add] at hgrow
      omega
    refine Stuck.not_printed ⟨⟨hdata, ?_⟩, ?_, ?_⟩ h
    · rw [wanted_eq hp]
      exact Nat.not_lt.mp hgrow
    · rw [size_formatted hp]
      exact hfit
    · rw [size_formatted hp]
      exact hlen

/-- **In every state that is reached**, a text is put behind the bytes in use and the call returns 0
exactly when it fits, or is shorter than 128 bytes.  A longer one that does not fit makes the call
try again for ever, since each time it reserves what it has already. -/
theorem printed_iff {ops : List Op} {rs : List (Option Int)}
    (hrun : run step create ops = some (rs, b))
    (hne : text ≠ []) (junk : Nat → UInt8) : b.Printed text junk ↔ b.Prints text := by
  have h := sound_run hrun
  constructor
  · intro hprinted
    have hp : b.Printable text := by
      by_contra hp
      exact not_printed_long h hp hprinted
    refine ⟨hp, ?_⟩
    by_contra hroom
    obtain ⟨hfit, hlong⟩ := not_or.mp hroom
    exact not_printed_short h hp hne (Nat.not_lt.mp hfit) hlong hprinted
  · exact printed_of_prints h hne

end

/-- 120 bytes behind two that are in use: they do not fit, and are printed in the second round. -/
theorem printed_after_retry :
    ∃ rs b, run step create [Op.append [104, 105] (some fun _ => 0)] = some (rs, b) ∧
      b.size - b.len < 120 ∧ b.Prints (List.replicate 120 97) ∧
      b.Printed (List.replicate 120 97) fun _ => 0 := by
  have hrun : ∃ rs b, run step create [Op.append [104, 105] (some fun _ => 0)] = some (rs, b) ∧
      b.size = 4 ∧ b.len = 2 := ⟨_, _, rfl, rfl, rfl⟩
  obtain ⟨rs, b, hrun, hsize, hlen⟩ := hrun
  have hprints : b.Prints (List.replicate 120 97) := by
    refine ⟨⟨?_, ?_⟩, .inr ⟨?_, ?_⟩⟩
    · rw [hsize, hlen]
      decide
    · rw [List.length_replicate]
      decide
    · rw [List.length_replicate]
      decide
    · rw [hlen, List.length_replicate]
      decide
  have hne : List.replicate 120 (97 : UInt8) ≠ [] := List.cons_ne_nil _ _
  refine ⟨rs, b, hrun, ?_, hprints, (printed_iff hrun hne _).mpr hprints⟩
  rw [hsize, hlen]
  decide

/-- 128 bytes, in a new buffer. -/
theorem not_printed_block : run step create [] = some ([], create) ∧
    ¬ create.Printed (List.replicate 128 97) fun _ => 0 := by
  refine ⟨rfl, fun hprinted => ?_⟩
  have hlen : (List.replicate 128 (97 : UInt8)).length = 128 := List.length_replicate
  have hne : List.replicate 128 (97 : UInt8) ≠ [] := List.cons_ne_nil _ _
  refine not_printed_short sound_create ⟨?_, ?_⟩ hne ?_ ?_ hprinted
  · decide
  · rw [hlen]
    decide
  · rw [hlen]
    decide
  · rw [hlen]
    decide

end Libu.Buf
