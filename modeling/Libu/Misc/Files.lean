/-
# Saving and loading (`u_data_dump` and `u_load_file` of `toolbox/misc.c`)

* §1 is the code, on the calls of `Verif.Disk`.
* §2: `u_data_dump` does not look at what `fclose` says, by which time nothing may have been
  written.
* §3: `u_load_file` gives the whole file or nothing, and never an empty one.
* §4: one after the other (`dump_load`).

Each call may fail, and may move less than it was asked to; all of that is one parameter of the
model, and every theorem is about all of its values.  The two routines are then run on one disk,
with a choice of its own for each: what comes back is what was saved, or nothing does and somebody
has been told, apart from the one case that `u_data_dump` does not look at.
-/
import Libu.Verif.Disk

namespace Libu.Files

open Verif

/-! ## 1. The code -/

section

variable {N : Type} (o : Faults)

/-- `u_zalloc`: whether there is memory. -/
def uZalloc : Files N Bool := fun st => ([], .ok (st.tick, !(o.fails st.time)))

/-- The items of `size` bytes that `fread` and `fwrite` tell of, when they have moved `got` bytes.
-/
def items (got size : Nat) : Nat := got / size

/-- `u_data_dump` -/
def uDataDump [DecidableEq N] (data : List UInt8) (file : N) : Files N Int := do
  match ← fopenWrite o file with
  | none => pure (-1)
  | some fp =>
    let got ← fwrite o fp data
    let _ ← fclose o fp
    if items got data.length < 1 then pure (-1) else pure 0

/-- `u_load_file` from `fstat` on: what is in `buf` when it is all there. -/
def loadOpened (fp szMax : Nat) : Files N (Option (List UInt8)) := do
  match ← fstatSize o fp with
  | none => pure none
  | some sz =>
    if 0 < szMax ∧ szMax < sz then pure none
    else if ← uZalloc o then
      let buf ← fread o fp sz
      if items buf.length sz ≠ 1 then pure none else pure (some buf)
    else pure none

/-- `u_load_file`: `*pbuf`, of `*psz` bytes, when it returns 0. -/
def uLoadFile (path : N) (szMax : Nat) : Files N (Option (List UInt8)) := do
  match ← fopenRead o path with
  | none => pure none
  | some fp =>
    let buf ← loadOpened o fp szMax
    let _ ← fclose o fp
    pure buf

end

/-! ## 2. Saving -/

theorem items_eq_one {got size : Nat} (h : got ≤ size) :
    items got size = 1 ↔ got = size ∧ 0 < size := by
  rw [items]
  constructor
  · intro hone
    have hsize : 0 < size := by
      refine Nat.pos_of_ne_zero fun h0 => ?_
      rw [h0, Nat.div_zero] at hone
      cases hone
    have hle : size ≤ got := by
      refine Nat.le_of_not_lt fun hlt => ?_
      rw [Nat.div_eq_of_lt hlt] at hone
      cases hone
    exact ⟨Nat.le_antisymm h hle, hsize⟩
  · rintro ⟨rfl, hsize⟩
    exact Nat.div_self hsize

theorem items_le_one {got size : Nat} (h : got ≤ size) : items got size ≤ 1 :=
  Nat.div_le_of_le_mul (by omega)

/-- What `u_data_dump` does. -/
structure Dumped {N : Type} (o : Faults) (data : List UInt8) (file : N) (st : FileSys N) (rc : Int)
    (st' : FileSys N) (cut : Bool) : Prop where
  frame : Frame file st st'
  ret : rc = 0 ∨ rc = -1
  saved : rc = 0 → data ≠ [] ∧ ∃ bytes, st'.disk.content file = some bytes ∧
    (bytes = data ∧ cut = false ∨ bytes.length < data.length ∧ cut = true)
  fine : (∀ t, o.fails t = false) →
    st'.disk.content file = some data ∧ (rc = 0 ↔ data ≠ []) ∧ cut = false

section

variable {N : Type} [DecidableEq N] {o : Faults} {st : FileSys N} {file : N} {data : List UInt8}

/-- **`u_data_dump`**, call by call. -/
theorem uDataDump_typed (hidle : ∀ x, st.streams x = none) :
    Typed Flags.next Flags.none st (uDataDump o data file)
      (fun rc st' q => Dumped o data file st rc st' q.cut) fun _ _ => False := by
  refine Typed.bind (fopenWrite_waiting hidle) ?_
  rintro fp st₁ q hopen
  cases fp with
  | none =>
    obtain ⟨hf, rfl, -⟩ := hopen
    refine typed_pure ⟨⟨fun _ _ => rfl, fun _ _ => rfl, hidle⟩, .inr rfl, fun h => (nomatch h),
      fun hfine => ?_⟩
    rw [hfine] at hf
    cases hf
  | some fp =>
    obtain ⟨hwaiting, -, rfl⟩ := hopen
    refine Typed.bind (Q := fun got st₂ q => got ≤ data.length ∧
      (o.fails st₁.time = false → got = data.length) ∧ Waiting file fp (data.take got) st st₂ ∧
      (got = data.length → q.cut = false)) (fwrite_typed hwaiting.stream fun got hgot hfine =>
        ⟨hgot, hfine, hwaiting.write _, fun hall => ?_⟩) ?_
    · simp [Flags.after, Flags.none, FileEv.cut, hall]
    rintro got st₂ q ⟨hgot, hfine, hwaiting, hcut⟩
    refine Typed.bind hwaiting.close ?_
    rintro ok st₃ q' ⟨hframe, -, -, hok, bytes, hcontent, hall, hbytes⟩
    have hle := items_le_one hgot
    have hone := items_eq_one hgot
    by_cases hitems : items got data.length < 1
    · rw [if_pos hitems]
      refine typed_pure ⟨hframe, .inr rfl, fun h => (nomatch h), fun hnever => ?_⟩
      obtain rfl := hfine (hnever _)
      have hnil : data = [] := List.length_eq_zero_iff.mp (by omega)
      obtain rfl := hall (hok (hnever _))
      rw [List.take_length] at hcontent hbytes
      refine ⟨hcontent, ⟨fun h => (nomatch h), fun h => absurd hnil h⟩, ?_⟩
      rcases hbytes with ⟨-, hq⟩ | ⟨hlt, -⟩
      · exact hq.trans (hcut rfl)
      · exact absurd hlt (Nat.lt_irrefl _)
    · rw [if_neg hitems]
      obtain ⟨rfl, hpos⟩ := hone.mp (by omega)
      have hne : data ≠ [] := List.ne_nil_of_length_pos hpos
      rw [List.take_length] at hall hbytes
      have hsaved : bytes = data ∧ q'.cut = false ∨ bytes.length < data.length ∧ q'.cut = true :=
        hbytes.imp (fun h => ⟨h.1, h.2.trans (hcut rfl)⟩) id
      refine typed_pure ⟨hframe, .inl rfl, fun _ => ⟨hne, bytes, hcontent, hsaved⟩,
        fun hnever => ?_⟩
      obtain rfl := hall (hok (hnever _))
      refine ⟨hcontent, iff_of_true rfl hne, ?_⟩
      exact hsaved.elim And.right fun h => absurd h.1 (Nat.lt_irrefl _)

end

/-! ## 3. Loading -/

/-- What `u_load_file` does: it gives the whole file or nothing. -/
structure Loaded {N : Type} (o : Faults) (path : N) (szMax : Nat) (st : FileSys N)
    (res : Option (List UInt8)) (st' : FileSys N) : Prop where
  disk : st'.disk = st.disk
  streams : ∀ fp, st'.streams fp = none
  whole : ∀ buf, res = some buf → st.disk.content path = some buf ∧ buf ≠ [] ∧
    (0 < szMax → buf.length ≤ szMax)
  fine : (∀ t, o.fails t = false) → ∀ bs, st.disk.content path = some bs → bs ≠ [] →
    (0 < szMax → bs.length ≤ szMax) → res = some bs

section

variable {N : Type} {o : Faults} {st st₁ : FileSys N} {p : Flags} {path : N} {szMax fp i : Nat}

theorem uZalloc_typed {Q : Bool → FileSys N → Flags → Prop} {E : Stop → Flags → Prop}
    (h : ∀ ok, (o.fails st.time = false → ok = true) → Q ok st.tick p) :
    Typed Flags.next p st (uZalloc o) Q E :=
  typed_silent (by rw [uZalloc]) (h _ fun hf => by rw [hf]; rfl)

/-- What is loaded from the file `i`, open at its start. -/
structure Read (o : Faults) (i fp szMax : Nat) (st : FileSys N) (res : Option (List UInt8))
    (st' : FileSys N) : Prop where
  disk : st'.disk = st.disk
  others : ∀ x, x ≠ fp → st'.streams x = st.streams x
  stream : ∃ pos, st'.streams fp = some ⟨i, pos, []⟩
  whole : ∀ buf, res = some buf → buf = st.disk.data i ∧ buf ≠ [] ∧
    (0 < szMax → buf.length ≤ szMax)
  fine : (∀ t, o.fails t = false) → st.disk.data i ≠ [] →
    (0 < szMax → (st.disk.data i).length ≤ szMax) → res = some (st.disk.data i)

theorem loadOpened_typed (hs : st.streams fp = some ⟨i, 0, []⟩) :
    Typed Flags.next p st (loadOpened o fp szMax) (fun res st' _ => Read o i fp szMax st res st')
      fun _ _ => False := by
  have hstay : ∀ {st' : FileSys N}, st'.disk = st.disk → st'.streams = st.streams →
      ((∀ t, o.fails t = false) → st.disk.data i ≠ [] →
        (0 < szMax → (st.disk.data i).length ≤ szMax) → False) → Read o i fp szMax st none st' := by
    intro st' hdisk hstreams hnever
    refine ⟨hdisk, fun x _ => by rw [hstreams], ⟨0, by rw [hstreams, hs]⟩, fun buf h => (nomatch h),
      fun hfine hne hmax => (hnever hfine hne hmax).elim⟩
  refine Typed.bind (Q := fun sz st' _ => st'.disk = st.disk ∧ st'.streams = st.streams ∧
    (sz = none ∧ o.fails st.time = true ∨ sz = some (st.disk.data i).length))
    (fstatSize_typed hs (fun hf => ⟨rfl, rfl, .inl ⟨rfl, hf⟩⟩) ⟨rfl, rfl, .inr rfl⟩) ?_
  rintro sz st₁ q ⟨hdisk, hstreams, ⟨rfl, hf⟩ | rfl⟩
  · refine typed_pure (hstay hdisk hstreams fun hfine => ?_)
    rw [hfine] at hf
    cases hf
  · dsimp only
    by_cases hbig : 0 < szMax ∧ szMax < (st.disk.data i).length
    · rw [if_pos hbig]
      refine typed_pure (hstay hdisk hstreams fun _ _ hmax => ?_)
      have := hmax hbig.1
      omega
    · rw [if_neg hbig]
      refine Typed.bind (Q := fun ok st' _ => st'.disk = st.disk ∧ st'.streams = st.streams ∧
        (o.fails st₁.time = false → ok = true)) (uZalloc_typed fun ok hok =>
          ⟨hdisk, hstreams, hok⟩) ?_
      rintro ok st₂ q₂ ⟨hdisk₂, hstreams₂, hok⟩
      cases ok with
      | false =>
        refine typed_pure (hstay hdisk₂ hstreams₂ fun hfine _ _ => ?_)
        exact nomatch hok (hfine _)
      | true =>
        have hs₂ : st₂.streams fp = some ⟨i, 0, []⟩ := by rw [hstreams₂, hs]
        have hleft : st₂.left ⟨i, 0, []⟩ = st.disk.data i := by
          rw [FileSys.left, hdisk₂]
          rfl
        refine Typed.bind (Q := fun buf st' _ => ∃ got, got ≤ (st.disk.data i).length ∧
          (o.fails st₂.time = false → got = (st.disk.data i).length) ∧
          buf = (st.disk.data i).take got ∧ st'.disk = st.disk ∧
          (∀ x, x ≠ fp → st'.streams x = st.streams x) ∧ st'.streams fp = some ⟨i, 0 + got, []⟩)
          (fread_typed hs₂ fun got hgot hfine => ?_) ?_
        · rw [hleft, Nat.min_self] at hgot hfine
          rw [hleft]
          refine ⟨got, hgot, hfine, rfl, hdisk₂, fun x hx => ?_, FileSys.set_self _ _ _⟩
          rw [← hstreams₂]
          exact FileSys.set_of_ne hx _ _
        · rintro buf st₃ q₃ ⟨got, hgot, hfine, rfl, hdisk₃, hothers, hs₃⟩
          have hlen : ((st.disk.data i).take got).length = got := by
            rw [List.length_take]
            omega
          have hone := items_eq_one hgot
          rw [hlen]
          by_cases hall : got = (st.disk.data i).length ∧ 0 < (st.disk.data i).length
          · rw [if_neg (not_not.mpr (hone.mpr hall)), hall.1, List.take_length]
            refine typed_pure ⟨hdisk₃, hothers, ⟨_, hs₃⟩, ?_, fun _ _ _ => rfl⟩
            rintro _ ⟨⟩
            exact ⟨rfl, List.ne_nil_of_length_pos hall.2, fun hmax => by omega⟩
          · rw [if_pos (mt hone.mp hall)]
            refine typed_pure ⟨hdisk₃, hothers, ⟨_, hs₃⟩, fun buf h => (nomatch h),
              fun hnever hne _ => ?_⟩
            exact absurd ⟨hfine (hnever _), List.length_pos_iff.mpr hne⟩ hall

/-- **`u_load_file`**, call by call. -/
theorem uLoadFile_typed (hidle : ∀ x, st.streams x = none) :
    Typed Flags.next p st (uLoadFile o path szMax)
      (fun res st' _ => Loaded o path szMax st res st') fun _ _ => False := by
  have hothers : ∀ (s : Stream) (x : Nat), x ≠ st.time →
      (st.tick.set st.time (some s)).streams x = none :=
    fun s x hx => (FileSys.set_of_ne hx _ _).trans (hidle x)
  refine Typed.bind (Q := fun fp st' _ => match fp with
    | none => st'.disk = st.disk ∧ st'.streams = st.streams ∧
        (o.fails st.time = true ∨ st.disk.dir path = none)
    | some fp => ∃ i, st.disk.dir path = some i ∧ st'.disk = st.disk ∧
        st'.streams fp = some ⟨i, 0, []⟩ ∧ ∀ x, x ≠ fp → st'.streams x = none)
    (fopenRead_typed (fun i hi => ⟨i, hi, rfl, FileSys.set_self _ _ _, hothers _⟩)
      fun hf => ⟨rfl, rfl, hf⟩) ?_
  rintro fp st₁ q hopen
  cases fp with
  | none =>
    obtain ⟨hdisk, hstreams, hf⟩ := hopen
    refine typed_pure ⟨hdisk, fun x => by rw [hstreams, hidle], fun buf h => (nomatch h),
      fun hfine bs hbs _ _ => ?_⟩
    rcases hf with hf | hnone
    · rw [hfine] at hf
      cases hf
    · rw [Disk.content, hnone] at hbs
      cases hbs
  | some fp =>
    obtain ⟨i, hi, hdisk, hs, hothers⟩ := hopen
    refine Typed.bind (loadOpened_typed hs) ?_
    rintro res st₂ q₂ ⟨hdisk₂, hothers₂, ⟨pos, hs₂⟩, hwhole, hfine⟩
    refine Typed.bind (Q := fun _ st' _ => st'.disk = st.disk ∧ ∀ x, st'.streams x = none)
      (fclose_typed hs₂ fun ok flushed _ _ _ => ⟨?_, fun x => ?_⟩) ?_
    · rw [FileSys.set_disk, List.take_nil, Disk.extend_nil, hdisk₂, hdisk]
    · by_cases hx : x = fp
      · rw [hx, FileSys.set_self]
      · exact (FileSys.set_of_ne hx _ _).trans ((hothers₂ x hx).trans (hothers x hx))
    · rintro - st₃ q₃ ⟨hdisk₃, hstreams₃⟩
      rw [hdisk] at hwhole hfine
      refine typed_pure ⟨hdisk₃, hstreams₃, fun buf hbuf => ?_, fun hnever bs hbs hne hmax => ?_⟩
      · obtain ⟨rfl, hne, hmax⟩ := hwhole buf hbuf
        exact ⟨Disk.content_eq_some.mpr ⟨i, hi, rfl⟩, hne, hmax⟩
      · obtain ⟨j, hj, rfl⟩ := Disk.content_eq_some.mp hbs
        rw [hi] at hj
        obtain rfl := Option.some.inj hj
        exact hfine hnever hne hmax

end

/-! ## 4. Saving and loading -/

/-- What comes of `data` that are saved, and of the file when it is loaded: what was saved unless it
was cut, and never something empty.  No data are not saved, and the file that this has emptied is
not loaded; where no call fails, all other data within the limit come back. -/
structure RoundTrip (o o' : Faults) (data : List UInt8) (szMax : Nat) (rc : Int)
    (log : List FileEv) (res : Option (List UInt8)) : Prop where
  same : rc = 0 → ∀ buf, res = some buf → (buf = data ↔ log.any FileEv.cut = false)
  solid : res ≠ some []
  empty : data = [] → rc = -1 ∧ ((∀ t, o.fails t = false) → res = none)
  fine : data ≠ [] → (∀ t, o.fails t = false) → (∀ t, o'.fails t = false) →
    rc = 0 ∧ (res = some data ↔ (0 < szMax → data.length ≤ szMax))

/-- **A file that is saved and loaded again.**  Whatever the calls come to, both return, close their
streams and change no other file.  Nothing empty is saved, and nothing empty is loaded; when
`u_data_dump` returns 0, what `u_load_file` gives is what was saved, unless `fclose` has lost some
of it, which `u_data_dump` does not look at.  When no call fails, what is not empty and within the
limit comes back. -/
theorem dump_load {N : Type} [DecidableEq N] (o o' : Faults) (st : FileSys N)
    (hidle : ∀ x, st.streams x = none) (file : N) (data : List UInt8) (szMax : Nat) :
    ∃ st₁ rc st₂ res, (uDataDump o data file st).2 = .ok (st₁, rc) ∧
      (uLoadFile o' file szMax st₁).2 = .ok (st₂, res) ∧ Frame file st st₂ ∧
      RoundTrip o o' data szMax rc (uDataDump o data file st).1 res := by
  have hdump : Typed Flags.next Flags.none st (uDataDump o data file) _ _ := uDataDump_typed hidle
  cases hrun : (uDataDump o data file st).2 with
  | error e =>
    obtain ⟨-, -, h⟩ := hdump.error e hrun
    exact h.elim
  | ok r =>
    obtain ⟨st₁, rc⟩ := r
    obtain ⟨q, hq, hframe, hret, hsaved, hfine⟩ := hdump.ok st₁ rc hrun
    obtain rfl := Flags.follows_eq.mp hq
    have hload : Typed Flags.next Flags.none st₁ (uLoadFile o' file szMax) _ _ :=
      uLoadFile_typed hframe.streams
    cases hrun' : (uLoadFile o' file szMax st₁).2 with
    | error e =>
      obtain ⟨-, -, h⟩ := hload.error e hrun'
      exact h.elim
    | ok r =>
      obtain ⟨st₂, res⟩ := r
      obtain ⟨-, -, hdisk, hstreams, hwhole, hfine'⟩ := hload.ok st₂ res hrun'
      refine ⟨st₁, rc, st₂, res, rfl, hrun', ⟨?_, ?_, hstreams⟩, fun hrc buf hbuf => ?_,
        fun hres => (hwhole [] hres).2.1 rfl, fun hnil => ⟨?_, fun hnever => ?_⟩,
        fun hne hnever hnever' => ⟨?_, ?_, fun hmax => ?_⟩⟩
      · rw [hdisk]
        exact hframe.dir
      · rw [hdisk]
        exact hframe.data
      · obtain ⟨-, bytes, hbytes, hcut⟩ := hsaved hrc
        have hsame : some bytes = some buf := hbytes.symm.trans (hwhole buf hbuf).1
        obtain rfl := Option.some.inj hsame
        rcases hcut with ⟨rfl, hcut⟩ | ⟨hlt, hcut⟩
        · exact iff_of_true rfl hcut
        · refine iff_of_false (fun h => ?_) (fun h => ?_)
          · rw [h] at hlt
            exact Nat.lt_irrefl _ hlt
          · rw [show (uDataDump o data file st).1.any FileEv.cut = true from hcut] at h
            cases h
      · exact hret.resolve_left fun hrc => (hsaved hrc).1 hnil
      · refine Option.eq_none_iff_forall_not_mem.mpr fun buf hbuf => ?_
        obtain ⟨hbytes, hne, -⟩ := hwhole buf hbuf
        rw [(hfine hnever).1] at hbytes
        exact hne ((Option.some.inj hbytes).symm.trans hnil)
      · exact (hfine hnever).2.1.mpr hne
      · exact fun hres => (hwhole data hres).2.2
      · exact hfine' hnever' data (hfine hnever).1 hne hmax

/-- The disk is full when the file is closed: all but the first byte is lost. -/
def diskFull : Faults := ⟨fun t => t = 2, fun _ => 1, fun _ => 28⟩

/-- A disk without files. -/
def emptySys : FileSys Unit where
  disk := ⟨fun _ => none, fun _ => [], 0, fun _ _ h => nomatch h⟩
  streams := fun _ => none
  time := 0

theorem dump_load_full : ∃ st₁ rc st₂ res,
    (uDataDump diskFull [1, 2, 3] () emptySys).2 = .ok (st₁, rc) ∧
      (uLoadFile ⟨fun _ => false, fun _ => 0, fun _ => 0⟩ () 0 st₁).2 = .ok (st₂, res) ∧
      Frame () emptySys st₂ ∧
      RoundTrip diskFull ⟨fun _ => false, fun _ => 0, fun _ => 0⟩ [1, 2, 3] 0 rc
        (uDataDump diskFull [1, 2, 3] () emptySys).1 res :=
  dump_load diskFull ⟨fun _ => false, fun _ => 0, fun _ => 0⟩ emptySys (fun _ => rfl) () [1, 2, 3] 0

end Libu.Files
