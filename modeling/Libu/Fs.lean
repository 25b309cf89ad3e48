/-
# Copying and moving files (`toolbox/fs.c`)

`u_copy` goes through a file in chunks, and `u_move` links the file under its new name, or copies it
when the name is on another device, and removes the old name.

* §1 is the code, on the calls of `Verif.Disk`.
* §2: the loop of `u_copy`.  What waits in the stream of the copy is what has been read as long as
  no write took only a part of its chunk.
* §3: when `u_copy` returns 0, the copy is exact unless a read stopped early or a write took only a
  part of its chunk, which nobody looks at; it is undefined when one of the streams fails to close,
  which is closed again (`uCopy_exact`).
* §4: what is lost by `u_move` (`uMove_keeps`).
-/
import Libu.Verif.Disk

namespace Libu.Fs

open Verif

/-! ## 1. The code -/

/-- `EXDEV` -/
def exdev : Nat := 18

/-- The size of the buffer of `u_copy`. -/
def bufSize : Nat := 4096

section

variable {N : Type} (o : Faults)

/-- The loop: whether it gets to its end. -/
def copyLoop (sfp dfp : Nat) : Nat → Files N Bool
  | 0 => Logged.fail .noFuel
  | fuel + 1 => do
    let buf ← fread o sfp bufSize
    if 0 < buf.length then
      let c ← fwrite o dfp buf
      if c = 0 then pure false else copyLoop sfp dfp fuel
    else pure true

/-- Closing at `err`, where the pointer is not NULL. -/
def closeIf : Option Nat → Files N Unit
  | none => pure ()
  | some fp => do
    let _ ← fclose o fp
    pure ()

/-- The label `err` of `u_copy`. -/
def copyErr (sfp dfp : Option Nat) : Files N Int := do
  closeIf o sfp
  closeIf o dfp
  pure (-1)

variable [DecidableEq N]

/-- `u_copy` -/
def uCopy (fuel : Nat) (src dst : N) : Files N Int := do
  match ← fopenRead o src with
  | none => copyErr o none none
  | some sfp =>
    match ← fopenWrite o dst with
    | none => copyErr o (some sfp) none
    | some dfp =>
      if ← copyLoop o sfp dfp fuel then
        if ← fclose o sfp then
          if ← fclose o dfp then pure 0 else copyErr o none (some dfp)
        else copyErr o (some sfp) (some dfp)
      else copyErr o (some sfp) (some dfp)

/-- `u_remove` -/
def uRemove (file : N) : Files N Int := do
  if ← unlinkFile o file then pure 0 else pure (-1)

/-- The end of `u_move`. -/
def moveEnd (src : N) : Files N Int := do
  let _ ← uRemove o src
  pure 0

/-- The deep copy of `u_move`. -/
def moveCopy (fuel : Nat) (src dst : N) : Files N Int := do
  if (← uCopy o fuel src dst) ≠ 0 then pure (-1) else moveEnd o src

/-- `u_move`, with `HAVE_LINK` or without. -/
def uMove (haveLink : Bool) (fuel : Nat) (src dst : N) : Files N Int :=
  if haveLink then do
    match ← linkFile o src dst with
    | none => moveEnd o src
    | some errno => if errno ≠ exdev then pure (-1) else moveCopy o fuel src dst
  else moveCopy o fuel src dst

end

/-! ## 2. The loop -/

/-- `pending` is what has been taken of the first `pos` bytes of `data`: all of them, unless some
were cut. -/
structure Taken (data : List UInt8) (pos : Nat) (pending : List UInt8) (cut : Bool) : Prop where
  pos_le : pos ≤ data.length
  sublist : pending.Sublist (data.take pos)
  whole : cut = false → pending = data.take pos
  short : cut = true → pending.length < pos

section

variable {N : Type} {o : Faults} {st st₀ : FileSys N} {p : Flags} {sfp dfp i j pos : Nat}
  {data pending : List UInt8}

theorem Taken.length_le {cut : Bool} (h : Taken data pos pending cut) : pending.length ≤ pos := by
  have hlen := h.sublist.length_le
  rw [List.length_take] at hlen
  omega

/-- A chunk of which some bytes are written. -/
theorem Taken.step {cut : Bool} (h : Taken data pos pending cut) {got taken : Nat}
    (hgot : got ≤ (data.drop pos).length) (htaken : taken ≤ got) :
    Taken data (pos + got) (pending ++ ((data.drop pos).take got).take taken)
      (cut || decide (taken < got)) := by
  have hlen : (((data.drop pos).take got).take taken).length = taken := by
    simp only [List.length_take] at hgot ⊢
    omega
  have hpos := h.pos_le
  have hpending := h.length_le
  rw [List.length_drop] at hgot
  refine ⟨by omega, ?_, fun hwhole => ?_, fun hshort => ?_⟩
  · rw [List.take_add]
    exact h.sublist.append (List.take_sublist _ _)
  · obtain ⟨hcut, hall⟩ := Bool.or_eq_false_iff.mp hwhole
    have hall : taken = got := by
      have := of_decide_eq_false hall
      omega
    rw [h.whole hcut, hall, List.take_take, Nat.min_self, List.take_add]
  · rw [List.length_append, hlen]
    rcases (Bool.or_eq_true _ _).mp hshort with hcut | hpart
    · have := h.short hcut
      omega
    · have := of_decide_eq_true hpart
      omega

/-- What has been taken is everything, exactly when nothing has been cut and nothing is left. -/
theorem Taken.eq_iff {cut : Bool} (h : Taken data pos pending cut) :
    pending = data ↔ (cut || decide ((data.drop pos).length ≠ 0)) = false := by
  have hpos := h.pos_le
  have hlength := h.length_le
  rw [Bool.or_eq_false_iff, decide_eq_false_iff_not, not_not, List.length_drop]
  constructor
  · intro hall
    rw [hall] at hlength
    refine ⟨Bool.eq_false_iff.mpr fun hcut => ?_, by omega⟩
    have := h.short hcut
    rw [hall] at this
    omega
  · rintro ⟨hcut, hleft⟩
    rw [h.whole hcut]
    exact List.take_of_length_le (by omega)

/-- Where the loop is: the streams of the file `i` and of its copy `j`, and nothing else has
changed since `st₀`. -/
structure At (st₀ : FileSys N) (sfp dfp i j pos : Nat) (pending : List UInt8) (st : FileSys N) :
    Prop where
  disk : st.disk = st₀.disk
  others : ∀ x, x ≠ sfp → x ≠ dfp → st.streams x = st₀.streams x
  sfp : st.streams sfp = some ⟨i, pos, []⟩
  dfp : st.streams dfp = some ⟨j, 0, pending⟩

/-- What the loop leaves.  At its end, the copy is waiting, and is exact if nothing was cut. -/
def LoopDone (st₀ : FileSys N) (sfp dfp i j : Nat) (ok : Bool) (st : FileSys N) (q : Flags) :
    Prop :=
  q.refused = !ok ∧ q.unclosed = false ∧ ∃ pos pending, At st₀ sfp dfp i j pos pending st ∧
    (ok = true → pending.Sublist (st₀.disk.data i) ∧
      (pending = st₀.disk.data i ↔ q.cut = false))

theorem At.read (h : At st₀ sfp dfp i j pos pending st) (hne : sfp ≠ dfp) (got : Nat) :
    At st₀ sfp dfp i j (pos + got) pending (st.tick.set sfp (some ⟨i, pos + got, []⟩)) where
  disk := h.disk
  others x hs hd := (FileSys.set_of_ne hs _ _).trans (h.others x hs hd)
  sfp := FileSys.set_self _ _ _
  dfp := (FileSys.set_of_ne hne.symm _ _).trans h.dfp

theorem At.write (h : At st₀ sfp dfp i j pos pending st) (hne : sfp ≠ dfp) (bs : List UInt8) :
    At st₀ sfp dfp i j pos (pending ++ bs) (st.tick.set dfp (some ⟨j, 0, pending ++ bs⟩)) where
  disk := h.disk
  others x hs hd := (FileSys.set_of_ne hd _ _).trans (h.others x hs hd)
  sfp := (FileSys.set_of_ne hne _ _).trans h.sfp
  dfp := FileSys.set_self _ _ _

theorem At.left_eq (h : At st₀ sfp dfp i j pos pending st) :
    st.left ⟨i, pos, []⟩ = (st₀.disk.data i).drop pos := by
  rw [FileSys.left, h.disk]

/-- **The loop of `u_copy`**, by induction on the fuel, which is more than what is left to read. -/
theorem copyLoop_typed (hne : sfp ≠ dfp) (fuel : Nat) (hat : At st₀ sfp dfp i j pos pending st)
    (htaken : Taken (st₀.disk.data i) pos pending p.cut) (hrefused : p.refused = false)
    (hunclosed : p.unclosed = false) (hfuel : (st₀.disk.data i).length < pos + fuel) :
    Typed Flags.next p st (copyLoop o sfp dfp fuel) (LoopDone st₀ sfp dfp i j)
      fun _ _ => False := by
  induction fuel generalizing st p pos pending with
  | zero =>
    have := htaken.pos_le
    omega
  | succ fuel ih =>
    refine Typed.bind (fread_typed (Q := fun buf st' q => ∃ got,
      got ≤ ((st₀.disk.data i).drop pos).length ∧ buf = ((st₀.disk.data i).drop pos).take got ∧
        q = p.after (.fread ((st₀.disk.data i).drop pos).length got) ∧
        At st₀ sfp dfp i j (pos + got) pending st') hat.sfp fun got hgot _ => ?_) ?_
    · rw [hat.left_eq] at hgot ⊢
      exact ⟨got, (Nat.le_min.mp hgot).2, rfl, rfl, hat.read hne got⟩
    · rintro buf st₁ q ⟨got, hgot, rfl, rfl, hat₁⟩
      have hlen : (((st₀.disk.data i).drop pos).take got).length = got := by
        rw [List.length_take]
        omega
      rw [hlen]
      by_cases h0 : 0 < got
      · rw [if_pos h0]
        refine Typed.bind (fwrite_typed (Q := fun c st' q => c ≤ got ∧
          q = (p.after (.fread ((st₀.disk.data i).drop pos).length got)).after (.fwrite got c) ∧
          At st₀ sfp dfp i j (pos + got)
            (pending ++ (((st₀.disk.data i).drop pos).take got).take c) st')
          hat₁.dfp fun c hc _ => ?_) ?_
        · rw [hlen] at hc ⊢
          exact ⟨hc, rfl, hat₁.write hne _⟩
        · rintro c st₂ q ⟨hc, rfl, hat₂⟩
          by_cases hc0 : c = 0
          · rw [if_pos hc0]
            refine typed_pure ⟨?_, ?_, _, _, hat₂, fun h => nomatch h⟩
            · simp [Flags.after, FileEv.refused, hc0]
            · simp [Flags.after, FileEv.unclosed, hunclosed]
          · rw [if_neg hc0]
            refine ih hat₂ ?_ ?_ ?_ (by omega)
            · have hnot : (decide (got = 0) && decide (((st₀.disk.data i).drop pos).length ≠ 0)) =
                  false := by
                rw [decide_eq_false (by omega), Bool.false_and]
              have hstep := htaken.step hgot hc
              simpa only [Flags.after, FileEv.cut, hnot, Bool.or_false] using hstep
            · simp [Flags.after, FileEv.refused, hrefused, hc0]
            · simp [Flags.after, FileEv.unclosed, hunclosed]
      · rw [if_neg h0]
        obtain rfl : got = 0 := by omega
        refine typed_pure ⟨?_, ?_, _, _, hat₁, fun _ => ?_⟩
        · simp [Flags.after, FileEv.refused, hrefused]
        · simp [Flags.after, FileEv.unclosed, hunclosed]
        · refine ⟨htaken.sublist.trans (List.take_sublist _ _), ?_⟩
          rw [htaken.eq_iff]
          simp [Flags.after, FileEv.cut]

end

/-! ## 3. Copying -/

section

variable {N : Type} {o : Faults} {st st' : FileSys N} {p q : Flags}
  {sfp dfp i j : Nat} {src dst : N} {d pending : List UInt8}

/-- What `u_copy` does when it returns. -/
structure Copied (src dst : N) (d : List UInt8) (st : FileSys N) (rc : Int) (st' : FileSys N)
    (cut refused : Bool) : Prop where
  frame : Frame dst st st'
  ret : rc = if refused then -1 else 0
  copy : rc = 0 → ∃ bytes, st'.disk.content dst = some bytes ∧ bytes.Sublist d ∧
    if st.disk.dir src = st.disk.dir dst then bytes = [] else (bytes = d ↔ cut = false)

/-- Why it does not return: a stream that failed to close is closed again. -/
def ClosedTwice (e : Stop) (q : Flags) : Prop :=
  e = .undefined ∧ q.unclosed = true ∧ q.refused = false

/-- Closing at `err`. -/
theorem closeIf_typed {E : Stop → Flags → Prop} {Q : Bool → FileSys N → Flags → Prop} {fp : Nat}
    (h : Typed Flags.next p st (fclose o fp) Q E) :
    Typed Flags.next p st (closeIf o (some fp)) (fun _ st' q => ∃ ok, Q ok st' q) E :=
  h.bind fun ok _ _ hq => typed_pure ⟨ok, hq⟩

/-- Closing a stream once more. -/
theorem closeIf_undefined {E : Stop → Flags → Prop} {Q : Unit → FileSys N → Flags → Prop} {fp : Nat}
    (hs : st.streams fp = none) (hE : E .undefined p) :
    Typed Flags.next p st (closeIf o (some fp)) Q E :=
  Typed.bind (Q := fun _ _ _ => False) (fclose_undefined hs hE) fun _ _ _ h => h.elim

end

section

variable {N : Type} [DecidableEq N] {o : Faults} {st st' : FileSys N} {p q : Flags}
  {sfp dfp i j : Nat} {src dst : N} {d pending : List UInt8}

/-- The state in which the loop starts. -/
def opened (src : Nat) (dst : N) (st : FileSys N) : FileSys N :=
  let st₁ := st.tick.set st.time (some ⟨src, 0, []⟩)
  { st₁.tick with disk := st₁.disk.create dst }.set st₁.time (some ⟨st₁.disk.target dst, 0, []⟩)

/-- The source is closed. -/
theorem closeSrc_typed {E : Stop → Flags → Prop} {st₁ : FileSys N} {pos : Nat}
    (hidle : ∀ x, st.streams x = none)
    (h : At (opened i dst st) st.time (st.time + 1) i (st.disk.target dst) pos pending st₁) :
    Typed Flags.next p st₁ (fclose o st.time) (fun ok st' q =>
      Waiting dst (st.time + 1) pending st st' ∧ st'.streams st.time = none ∧
      q.refused = p.refused ∧ q.unclosed = (p.unclosed || !ok) ∧ q.cut = p.cut) E := by
  refine fclose_typed h.sfp fun ok flushed _ hall _ => ?_
  have hdisk : st₁.disk.extend i (([] : List UInt8).take flushed) = st.disk.create dst := by
    rw [List.take_nil, Disk.extend_nil, h.disk]
    rfl
  simp only [FileSys.set_self, hdisk]
  refine ⟨⟨fun n hn => Disk.create_dir_of_ne hn, Disk.create_dir_self _ _,
    fun k hk => Disk.create_data_of_ne hk, Disk.create_data_self _ _, ?_,
      fun x hx => ?_⟩, trivial, ?_⟩
  · exact (FileSys.set_of_ne (by omega) _ _).trans h.dfp
  · by_cases hs : x = st.time
    · rw [hs, FileSys.set_self]
    · refine (FileSys.set_of_ne hs _ _).trans ((h.others x hs hx).trans ?_)
      exact (FileSys.set_of_ne hx _ _).trans ((FileSys.set_of_ne hs _ _).trans (hidle x))
  · simp [Flags.after, FileEv.refused, FileEv.unclosed, FileEv.cut]

/-- Both streams are closed at `err`. -/
theorem copyErr_typed {E : Stop → Flags → Prop} {st₁ : FileSys N} {pos : Nat}
    (hidle : ∀ x, st.streams x = none)
    (h : At (opened i dst st) st.time (st.time + 1) i (st.disk.target dst) pos pending st₁) :
    Typed Flags.next p st₁ (copyErr o (some st.time) (some (st.time + 1)))
      (fun rc st' q => rc = -1 ∧ Frame dst st st' ∧ q.refused = p.refused) E := by
  refine Typed.bind (closeIf_typed (closeSrc_typed hidle h)) ?_
  rintro - st₂ q ⟨-, hwaiting, -, hrefused, -⟩
  refine Typed.bind (closeIf_typed hwaiting.close) ?_
  rintro - st₃ q' ⟨-, hframe, hrefused', -⟩
  exact typed_pure ⟨rfl, hframe, hrefused'.trans hrefused⟩

/-- `u_copy` from its loop on. -/
theorem copyBody_typed (hidle : ∀ x, st.streams x = none) (hi : st.disk.dir src = some i)
    (hdata : st.disk.data i = d) (fuel : Nat) (hfuel : d.length < fuel) :
    Typed Flags.next Flags.none (opened i dst st)
      (do
        if ← copyLoop o st.time (st.time + 1) fuel then
          if ← fclose o st.time then
            if ← fclose o (st.time + 1) then pure 0 else copyErr o none (some (st.time + 1))
          else copyErr o (some st.time) (some (st.time + 1))
        else copyErr o (some st.time) (some (st.time + 1)))
      (fun rc st' q => Copied src dst d st rc st' q.cut q.refused ∧
        (rc = 0 → q.unclosed = false)) ClosedTwice := by
  have hsource : (opened i dst st).disk.data i =
      if st.disk.dir src = st.disk.dir dst then [] else d := by
    split
    · next hsame =>
      have htarget : st.disk.target dst = i := Disk.target_eq (hsame.symm.trans hi)
      rw [← htarget]
      exact Disk.create_data_self _ _
    · next hne =>
      rw [← hdata]
      exact Disk.create_data_of_ne (Disk.ne_target hi hne)
  have hlen : ((opened i dst st).disk.data i).length < fuel := by
    rw [hsource]
    split
    · exact Nat.zero_lt_of_lt hfuel
    · exact hfuel
  have hat : At (opened i dst st) st.time (st.time + 1) i (st.disk.target dst) 0 []
      (opened i dst st) := by
    refine ⟨rfl, fun _ _ _ => rfl, ?_, FileSys.set_self _ _ _⟩
    exact (FileSys.set_of_ne (by simp [FileSys.tick, FileSys.set]) _ _).trans
      (FileSys.set_self _ _ _)
  have hstart : Taken ((opened i dst st).disk.data i) 0 [] Flags.none.cut :=
    ⟨Nat.zero_le _, List.nil_sublist _, fun _ => rfl, fun h => absurd h (by decide)⟩
  refine Typed.bind ((copyLoop_typed (by omega) fuel hat hstart rfl rfl (by omega)).mono
    (fun _ _ _ h => h) fun _ _ h => h.elim) ?_
  rintro ok st₁ q ⟨hrefused, hunclosed, pos, pending, hat, hcopy⟩
  cases ok with
  | false =>
    refine (copyErr_typed hidle hat).weaken ?_
    rintro rc st' q' ⟨rfl, hframe, hq'⟩
    have hq' : q'.refused = true := hq'.trans hrefused
    exact ⟨⟨hframe, by rw [hq']; rfl, fun h => nomatch h⟩, fun h => nomatch h⟩
  | true =>
    obtain ⟨hsub, hexact⟩ := hcopy rfl
    refine Typed.bind (closeSrc_typed hidle hat) ?_
    rintro ok st₂ q₂ ⟨hwaiting, hclosed, hrefused₂, hunclosed₂, hcut₂⟩
    cases ok with
    | false =>
      refine Typed.bind (Q := fun _ _ _ => False)
          (closeIf_undefined (E := ClosedTwice) hclosed ⟨rfl, ?_, ?_⟩)
        fun _ _ _ h => h.elim
      · rw [hunclosed₂, hunclosed]
        rfl
      · exact hrefused₂.trans hrefused
    | true =>
      refine Typed.bind hwaiting.close ?_
      rintro ok st₃ q₃ ⟨hframe, hrefused₃, hunclosed₃, -, bytes, hcontent, hall, hcut⟩
      have hrefused₃ : q₃.refused = false := hrefused₃.trans (hrefused₂.trans hrefused)
      cases ok with
      | false =>
        refine Typed.bind (Q := fun _ st' q' => st' = st₃ ∧ q' = q₃) (typed_pure ⟨rfl, rfl⟩) ?_
        rintro - _ _ ⟨rfl, rfl⟩
        refine Typed.bind (Q := fun _ _ _ => False)
          (closeIf_undefined (E := ClosedTwice) (hframe.streams _) ⟨rfl, ?_, hrefused₃⟩)
          fun _ _ _ h => h.elim
        rw [hunclosed₃]
        exact Bool.or_true _
      | true =>
        obtain rfl : bytes = pending := hall rfl
        have hcut₃ : q₃.cut = q₂.cut := hcut.elim And.right fun h => absurd h.1 (Nat.lt_irrefl _)
        have hunclosed₃ : q₃.unclosed = false := by
          rw [hunclosed₃, hunclosed₂, hunclosed]
          rfl
        refine typed_pure ⟨⟨hframe, by rw [hrefused₃]; rfl, fun _ => ⟨bytes, hcontent, ?_⟩⟩,
          fun _ => hunclosed₃⟩
        rw [hsource] at hsub hexact
        by_cases hsame : st.disk.dir src = st.disk.dir dst
        · rw [if_pos hsame] at hsub ⊢
          obtain rfl := List.sublist_nil.mp hsub
          exact ⟨List.nil_sublist d, rfl⟩
        · rw [if_neg hsame] at hsub hexact ⊢
          exact ⟨hsub, by rw [hexact, hcut₃, hcut₂]⟩

/-- **`u_copy`**, call by call. -/
theorem uCopy_typed (hidle : ∀ x, st.streams x = none) (hd : st.disk.content src = some d)
    (fuel : Nat) (hfuel : d.length < fuel) :
    Typed Flags.next Flags.none st (uCopy o fuel src dst)
      (fun rc st' q => Copied src dst d st rc st' q.cut q.refused ∧
        (rc = 0 → q.unclosed = false)) ClosedTwice := by
  obtain ⟨i, hi, hdata⟩ := Disk.content_eq_some.mp hd
  have hsame : ∀ {st' : FileSys N}, st'.disk = st.disk → (∀ x, st'.streams x = none) →
      Frame dst st st' := by
    intro st' hdisk hstreams
    refine ⟨fun n _ => ?_, fun k _ => ?_, hstreams⟩ <;> rw [hdisk]
  have hfailed : ∀ {st' : FileSys N} {rc : Int} {q : Flags}, Frame dst st st' → rc = -1 →
      q.refused = true → Copied src dst d st rc st' q.cut q.refused ∧
        (rc = 0 → q.unclosed = false) := by
    rintro st' rc q hframe rfl hq
    exact ⟨⟨hframe, by rw [hq]; rfl, fun h => nomatch h⟩, fun h => nomatch h⟩
  refine Typed.bind (Q := fun sfp st₁ q => match sfp with
    | none => st₁ = st.tick ∧ q.refused = true
    | some sfp => sfp = st.time ∧ st₁ = st.tick.set st.time (some ⟨i, 0, []⟩) ∧ q = Flags.none)
    (fopenRead_typed (fun k hk => ?_) fun _ => ⟨rfl, rfl⟩) ?_
  · rw [hi] at hk
    obtain rfl := Option.some.inj hk
    exact ⟨rfl, rfl, rfl⟩
  · intro sfp st₁ q hq
    cases sfp with
    | none =>
      obtain ⟨rfl, hrefused⟩ := hq
      exact typed_pure (hfailed (hsame rfl hidle) rfl hrefused)
    | some sfp =>
      obtain ⟨rfl, rfl, rfl⟩ := hq
      refine Typed.bind (Q := fun dfp st₂ q => match dfp with
        | none => st₂ = (st.tick.set st.time (some ⟨i, 0, []⟩)).tick ∧ q.refused = true
        | some dfp => dfp = st.time + 1 ∧ st₂ = opened i dst st ∧ q = Flags.none)
        (fopenWrite_typed ⟨rfl, rfl, rfl⟩ fun _ => ⟨rfl, rfl⟩) ?_
      intro dfp st₂ q hq
      cases dfp with
      | none =>
        obtain ⟨rfl, hrefused⟩ := hq
        have hs : (st.tick.set st.time (some ⟨i, 0, []⟩)).tick.streams st.time = some ⟨i, 0, []⟩ :=
          FileSys.set_self _ _ _
        refine Typed.bind (closeIf_typed (fclose_typed (Q := fun _ st' q' => Frame dst st st' ∧
          q'.refused = true) hs fun ok flushed _ _ _ => ⟨?_, ?_⟩)) ?_
        · refine hsame ?_ fun x => ?_
          · rw [FileSys.set_disk, List.take_nil, Disk.extend_nil]
            rfl
          · by_cases hx : x = st.time
            · rw [hx, FileSys.set_self]
            · exact (FileSys.set_of_ne hx _ _).trans
                ((FileSys.set_of_ne hx _ _).trans (hidle x))
        · simp [Flags.after, hrefused]
        · rintro - st₃ q' ⟨-, hframe, hrefused'⟩
          exact typed_pure (hfailed hframe rfl hrefused')
      | some dfp =>
        obtain ⟨rfl, rfl, rfl⟩ := hq
        exact copyBody_typed hidle hi hdata fuel hfuel

/-- A stream that failed to close was closed again. -/
def Slip (log : List FileEv) : Prop :=
  log.any FileEv.unclosed = true ∧ log.any FileEv.refused = false

/-- **`u_copy`.**  Whatever the calls come to, when it returns it has closed its streams and changed
nothing but the destination; it returns -1 just when a file could not be opened or a write took
nothing.  When it returns 0, what it has written are bytes of the source in their order: all of
them, unless a read stopped before the end or a write took only a part, and none when the two names
are of one file.  It is undefined just when it has come to the end and a stream fails to close. -/
theorem uCopy_exact (o : Faults) (st : FileSys N) (hidle : ∀ x, st.streams x = none) (src dst : N)
    (d : List UInt8) (hd : st.disk.content src = some d) (fuel : Nat) (hfuel : d.length < fuel) :
    let run := uCopy o fuel src dst st
    (∀ e, run.2 = .error e → e = .undefined ∧ Slip run.1) ∧
      ∀ st' rc, run.2 = .ok (st', rc) → ¬ Slip run.1 ∧
        Copied src dst d st rc st' (run.1.any FileEv.cut) (run.1.any FileEv.refused) := by
  intro run
  have htyped : Typed Flags.next Flags.none st (uCopy o fuel src dst) _ _ :=
    uCopy_typed hidle hd fuel hfuel
  refine ⟨fun e he => ?_, fun st' rc hok => ?_⟩
  · obtain ⟨q, hq, herr, hunclosed, hrefused⟩ := htyped.error e he
    obtain rfl := Flags.follows_eq.mp hq
    exact ⟨herr, hunclosed, hrefused⟩
  · obtain ⟨q, hq, hcopied, hunclosed⟩ := htyped.ok st' rc hok
    obtain rfl := Flags.follows_eq.mp hq
    refine ⟨fun ⟨hslip, hrefused⟩ => ?_, hcopied⟩
    have hrc : rc = 0 := hcopied.ret.trans (if_neg (by simpa [Flags.none] using hrefused))
    have hno := hunclosed hrc
    rw [show (Flags.none.unclosed || run.1.any FileEv.unclosed) = true from hslip] at hno
    cases hno

/-- A disk with a file of three bytes under the name `false`. -/
def sampleSys : FileSys Bool where
  disk := {
    dir := fun n => if n then none else some 0
    data := fun _ => [1, 2, 3]
    fresh := 1
    lt_fresh := by
      intro n i h
      cases n with
      | false =>
        obtain rfl := Option.some.inj h
        exact Nat.one_pos
      | true => cases h }
  streams := fun _ => none
  time := 0

/-- The `n`-th call fails, a write after its first byte. -/
def faultAt (n : Nat) : Faults := ⟨fun t => t = n, fun _ => 1, fun _ => exdev⟩

/-- A write that takes one byte of three: `u_copy` returns 0. -/
theorem uCopy_exact_short :
    let run := uCopy (faultAt 3) 4 false true sampleSys
    (∀ e, run.2 = .error e → e = .undefined ∧ Slip run.1) ∧
      ∀ st' rc, run.2 = .ok (st', rc) → ¬ Slip run.1 ∧
        Copied false true [1, 2, 3] sampleSys rc st' (run.1.any FileEv.cut)
          (run.1.any FileEv.refused) :=
  uCopy_exact (faultAt 3) sampleSys (fun _ => rfl) false true [1, 2, 3] rfl 4 (by decide)

/-! ## 4. Moving -/

/-- What was under `src` is still there. -/
def Kept (src dst : N) (d : List UInt8) (st : FileSys N) : Prop :=
  st.disk.content src = some d ∨ st.disk.content dst = some d

/-- What `u_move` does when it returns. -/
structure Moved (src dst : N) (d : List UInt8) (st : FileSys N) (rc : Int) (st' : FileSys N)
    (cut : Bool) : Prop where
  kept : Kept src dst d st' ↔ ¬ (rc = 0 ∧ st'.disk.dir src = none ∧ cut = true)
  rest : ∀ n, n ≠ src → n ≠ dst → st.disk.dir n ≠ some (st.disk.target dst) →
    st'.disk.content n = st.disk.content n
  streams : ∀ fp, st'.streams fp = none

/-- The end of `u_move`, with the content under both names. -/
theorem moveEnd_typed {E : Stop → Flags → Prop} {st₁ : FileSys N} {bytes : List UInt8}
    (hsrc : st₁.disk.content src = some d) (hdst : st₁.disk.content dst = some bytes)
    (hne : src ≠ dst) (hbytes : bytes = d ↔ p.cut = false)
    (hrest : ∀ n, n ≠ src → n ≠ dst → st.disk.dir n ≠ some (st.disk.target dst) →
      st₁.disk.content n = st.disk.content n) (hstreams : ∀ fp, st₁.streams fp = none) :
    Typed Flags.next p st₁ (moveEnd o src) (fun rc st' q => Moved src dst d st rc st' q.cut) E := by
  have hdir : st₁.disk.dir src ≠ none := by
    obtain ⟨i, hi, -⟩ := Disk.content_eq_some.mp hsrc
    simp [hi]
  refine Typed.bind (Q := fun _ st' q => q = p ∧ st'.streams = st₁.streams ∧
    (st'.disk = st₁.disk ∨ st'.disk = st₁.disk.unlink src)) ?_ ?_
  · refine Typed.bind (unlinkFile_typed (Q := fun _ st' q => q = p ∧ st'.streams = st₁.streams ∧
      (st'.disk = st₁.disk ∨ st'.disk = st₁.disk.unlink src)) ⟨rfl, rfl, .inl rfl⟩
      ⟨rfl, rfl, .inr rfl⟩) fun ok st' q hq => ?_
    cases ok <;> exact typed_pure hq
  · rintro - st' q ⟨rfl, hsame, hdisk⟩
    refine typed_pure ⟨?_, fun n hsrc' hdst' hlinked => ?_, fun fp => ?_⟩
    · rcases hdisk with hdisk | hdisk
      · refine iff_of_true (.inl (by rw [hdisk, hsrc])) ?_
        rintro ⟨-, hgone, -⟩
        rw [hdisk] at hgone
        exact hdir hgone
      · have hgone : st'.disk.dir src = none := by rw [hdisk, Disk.unlink_self]
        have hcopy : st'.disk.content dst = some bytes := by
          rw [hdisk, Disk.content_unlink_of_ne hne.symm, hdst]
        have hlost : st'.disk.content src = none := by rw [Disk.content, hgone, Option.map_none]
        simp [Kept, hlost, hcopy, hgone, hbytes]
    · rcases hdisk with hdisk | hdisk
      · rw [hdisk, hrest n hsrc' hdst' hlinked]
      · rw [hdisk, Disk.content_unlink_of_ne hsrc', hrest n hsrc' hdst' hlinked]
    · rw [hsame, hstreams]

/-- The deep copy. -/
theorem moveCopy_typed (hidle : ∀ x, st.streams x = none) (hd : st.disk.content src = some d)
    (hdiff : st.disk.dir src ≠ st.disk.dir dst) (fuel : Nat) (hfuel : d.length < fuel) :
    Typed Flags.next Flags.none st (moveCopy o fuel src dst)
      (fun rc st' q => Moved src dst d st rc st' q.cut) ClosedTwice := by
  have hne : src ≠ dst := fun h => hdiff (congrArg st.disk.dir h)
  refine Typed.bind (uCopy_typed hidle hd fuel hfuel) ?_
  rintro rc st₁ q ⟨⟨hframe, hret, hcopy⟩, -⟩
  have hrest : ∀ n, n ≠ dst → st.disk.dir n ≠ some (st.disk.target dst) →
      st₁.disk.content n = st.disk.content n := by
    intro n hn hlinked
    rw [Disk.content, Disk.content, hframe.dir n hn]
    cases hdir : st.disk.dir n with
    | none => rfl
    | some k => exact congrArg some (hframe.data k fun hk => hlinked (by rw [hdir, hk]))
  have hsrc : st₁.disk.content src = some d := by
    obtain ⟨i, hi, -⟩ := Disk.content_eq_some.mp hd
    refine (hrest src hne fun h => ?_).trans hd
    rw [hi] at h
    exact Disk.ne_target hi hdiff (Option.some.inj h)
  by_cases hrc : rc = 0
  · obtain ⟨bytes, hdst, -, hexact⟩ := hcopy hrc
    rw [if_neg hdiff] at hexact
    rw [if_neg (not_not.mpr hrc)]
    exact moveEnd_typed hsrc hdst hne hexact (fun n _ hn => hrest n hn) hframe.streams
  · rw [if_pos hrc]
    refine typed_pure ⟨iff_of_true (.inl hsrc) ?_, fun n _ hn => hrest n hn, hframe.streams⟩
    rintro ⟨h, -⟩
    cases h

theorem uMove_typed (hidle : ∀ x, st.streams x = none) (hd : st.disk.content src = some d)
    (haveLink : Bool) (hdiff : haveLink = false → st.disk.dir src ≠ st.disk.dir dst) (fuel : Nat)
    (hfuel : d.length < fuel) :
    Typed Flags.next Flags.none st (uMove o haveLink fuel src dst)
      (fun rc st' q => Moved src dst d st rc st' q.cut) ClosedTwice := by
  cases haveLink with
  | false => exact moveCopy_typed hidle hd (hdiff rfl) fuel hfuel
  | true =>
    have hsome : (st.disk.dir src).isSome := by
      obtain ⟨i, hi, -⟩ := Disk.content_eq_some.mp hd
      simp [hi]
    refine Typed.bind (Q := fun err st₁ q => q = Flags.none ∧ st₁.streams = st.streams ∧
      match err with
      | none => st.disk.dir dst = none ∧ st₁.disk = st.disk.link src dst
      | some e => st₁.disk = st.disk ∧ (st.disk.dir src = st.disk.dir dst → e = eexist))
      (linkFile_typed (fun hnone => ⟨rfl, rfl, hnone, rfl⟩) fun e he =>
        ⟨rfl, rfl, rfl, fun hsame => he hsame hsome⟩) ?_
    rintro err st₁ q ⟨rfl, hstreams, herr⟩
    have hidle₁ : ∀ x, st₁.streams x = none := fun x => by rw [hstreams, hidle x]
    cases err with
    | none =>
      obtain ⟨hnone, hdisk⟩ := herr
      have hne : src ≠ dst := by
        rintro rfl
        rw [hnone] at hsome
        cases hsome
      refine moveEnd_typed ?_ ?_ hne (iff_of_true rfl rfl) ?_ hidle₁
      · rw [hdisk, Disk.content_link_of_ne hne, hd]
      · rw [hdisk, Disk.content_link_dst, hd]
      · intro n _ hn _
        rw [hdisk, Disk.content_link_of_ne hn]
    | some e =>
      obtain ⟨hdisk, hsame⟩ := herr
      rw [← hdisk] at hd
      dsimp only
      by_cases he : e = exdev
      · have hdiff : st₁.disk.dir src ≠ st₁.disk.dir dst := by
          rw [hdisk]
          exact fun h => absurd (he.symm.trans (hsame h)) (by decide)
        have hcopy := moveCopy_typed (o := o) hidle₁ hd hdiff fuel hfuel
        rw [if_neg (not_not.mpr he)]
        refine hcopy.weaken fun rc st' q hmoved => ⟨hmoved.kept, ?_, hmoved.streams⟩
        rw [← hdisk]
        exact hmoved.rest
      · rw [if_pos he]
        refine typed_pure ⟨iff_of_true (.inl hd) ?_, fun n _ _ _ => by rw [hdisk], hidle₁⟩
        rintro ⟨h, -⟩
        cases h

/-- **`u_move` loses a file in one way only.**  Whatever the calls come to, when it returns, what
was under the old name is still under one of the two, unless the copy it has made was cut (a read
that stopped early, a write that took only a part) and the old name is removed all the same.
Nothing under another name changes, but for other names of a file that is copied over, and no stream
is left open. -/
theorem uMove_keeps (o : Faults) (st : FileSys N) (hidle : ∀ x, st.streams x = none) (src dst : N)
    (d : List UInt8) (hd : st.disk.content src = some d) (haveLink : Bool)
    (hdiff : haveLink = false → st.disk.dir src ≠ st.disk.dir dst) (fuel : Nat)
    (hfuel : d.length < fuel) (st' : FileSys N) (rc : Int) :
    let run := uMove o haveLink fuel src dst st
    run.2 = .ok (st', rc) → Moved src dst d st rc st' (run.1.any FileEv.cut) := by
  intro run hok
  have htyped : Typed Flags.next Flags.none st (uMove o haveLink fuel src dst) _ _ :=
    uMove_typed hidle hd haveLink hdiff fuel hfuel
  obtain ⟨q, hq, hmoved⟩ := htyped.ok st' rc hok
  obtain rfl := Flags.follows_eq.mp hq
  exact hmoved

/-- The other name is on another device, and a write takes one byte of three. -/
def farAway : Faults := ⟨fun t => t = 0 || t = 4, fun _ => 1, fun _ => exdev⟩

theorem uMove_keeps_short : ∃ st', (uMove farAway true 4 false true sampleSys).2 = .ok (st', 0) ∧
    ¬ Kept false true [1, 2, 3] st' := by
  refine ⟨_, rfl, fun hkept => ?_⟩
  exact (uMove_keeps farAway sampleSys (fun _ => rfl) false true [1, 2, 3] rfl true
    (fun h => nomatch h) 4
    (by decide) _ 0 rfl).kept.mp hkept ⟨rfl, rfl, rfl⟩

end

end Libu.Fs
