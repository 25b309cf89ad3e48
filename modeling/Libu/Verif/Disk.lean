/-
# Files and streams

A disk with names, of which several can stand for one file, and the streams of ISO C on it.

A program that copies or links files is checked against more than one run of the system: any call
may fail, and a read or a write may move less than it was asked to.  `Faults` is a choice of all of
that, by the number of the call, and a result for every such choice is a result for every behaviour
of the system.  What a program is asked is then not only what the disk is like at the end, but also
what it has been told: whether bytes were lost without a word, whether a call that failed was heard,
and whether a stream was left open.  These are three flags over the log.

* §1: the disk.  A file is known by its number; the numbers in use are below the next one.
* §2: the calls, each with all that it can come to: `Faults` says, by the number of the call,
  whether it fails and how much it moves first.  What is written waits in the stream until it is
  closed.  A call on a stream that is not open is undefined.
* §3: what is seen in a log: bytes that got lost (`cut`), a call that told of a failure (`refused`),
  and a stream that failed to close (`unclosed`).  The three are flags that the events raise, a
  protocol that allows everything.
* §4: one rule for each call.
* §5: a file that is created and written through one stream.
-/
import Mathlib.Logic.Function.Basic
import Libu.Verif.Protocol

namespace Verif

/-! ## 1. The disk -/

/-- Names, and the files they stand for. -/
structure Disk (N : Type) where
  dir : N → Option Nat
  data : Nat → List UInt8
  fresh : Nat
  lt_fresh : ∀ n i, dir n = some i → i < fresh

namespace Disk

variable {N : Type}

/-- What is under a name. -/
def content (d : Disk N) (n : N) : Option (List UInt8) := (d.dir n).map d.data

/-- The file that a name gets when it is opened for writing. -/
def target (d : Disk N) (n : N) : Nat := (d.dir n).getD d.fresh

/-- Bytes at the end of a file. -/
def extend (d : Disk N) (i : Nat) (bs : List UInt8) : Disk N :=
  { d with data := Function.update d.data i (d.data i ++ bs) }

variable {d : Disk N} {n m : N} {i : Nat}

/-- What is under a name is the bytes of the file that it stands for. -/
theorem content_eq_some {bs : List UInt8} :
    d.content n = some bs ↔ ∃ i, d.dir n = some i ∧ d.data i = bs := by
  simp [content]

/-- What another name stands for is not opened. -/
theorem ne_target (h : d.dir n = some i) (hne : d.dir n ≠ d.dir m) : i ≠ d.target m := by
  rw [target]
  cases hm : d.dir m with
  | none => exact Nat.ne_of_lt (d.lt_fresh n i h)
  | some j =>
    rintro rfl
    exact hne (h.trans hm.symm)

/-- Opening a name that is there opens its file. -/
theorem target_eq (h : d.dir n = some i) : d.target n = i := by
  rw [target, h]
  rfl

/-- Bytes are appended to the file. -/
theorem extend_self (d : Disk N) (i : Nat) (bs : List UInt8) :
    (d.extend i bs).data i = d.data i ++ bs := Function.update_self _ _ _

/-- No other file is changed. -/
theorem extend_of_ne {j : Nat} (h : j ≠ i) (d : Disk N) (bs : List UInt8) :
    (d.extend i bs).data j = d.data j := Function.update_of_ne h _ _

/-- Nothing is appended by no bytes. -/
theorem extend_nil (d : Disk N) (i : Nat) : d.extend i [] = d := by
  rw [extend, List.append_nil, Function.update_eq_self]

variable [DecidableEq N]

/-- Opening for writing: an empty file. -/
def create (d : Disk N) (n : N) : Disk N where
  dir := Function.update d.dir n (some (d.target n))
  data := Function.update d.data (d.target n) []
  fresh := max d.fresh (d.target n + 1)
  lt_fresh := by
    intro m i hm
    by_cases h : m = n
    · rw [h, Function.update_self] at hm
      obtain rfl := Option.some.inj hm
      omega
    · rw [Function.update_of_ne h] at hm
      have := d.lt_fresh m i hm
      omega

/-- The name stands for the file that was opened. -/
theorem create_dir_self (d : Disk N) (n : N) : (d.create n).dir n = some (d.target n) :=
  Function.update_self _ _ _

/-- The other names stand for what they stood for. -/
theorem create_dir_of_ne (h : m ≠ n) : (d.create n).dir m = d.dir m := Function.update_of_ne h _ _

/-- A file that is opened for writing is empty. -/
theorem create_data_self (d : Disk N) (n : N) : (d.create n).data (d.target n) = [] :=
  Function.update_self _ _ _

/-- The other files are as they were. -/
theorem create_data_of_ne (h : i ≠ d.target n) : (d.create n).data i = d.data i :=
  Function.update_of_ne h _ _

/-- One more name for what `src` stands for. -/
def link (d : Disk N) (src dst : N) : Disk N where
  dir := Function.update d.dir dst (d.dir src)
  data := d.data
  fresh := d.fresh
  lt_fresh := by
    intro m i hm
    by_cases h : m = dst
    · rw [h, Function.update_self] at hm
      exact d.lt_fresh src i hm
    · rw [Function.update_of_ne h] at hm
      exact d.lt_fresh m i hm

/-- The name is taken away; what it stood for is still there for the other names. -/
def unlink (d : Disk N) (n : N) : Disk N where
  dir := Function.update d.dir n none
  data := d.data
  fresh := d.fresh
  lt_fresh := by
    intro m i hm
    by_cases h : m = n
    · rw [h, Function.update_self] at hm
      cases hm
    · rw [Function.update_of_ne h] at hm
      exact d.lt_fresh m i hm

/-- The new name has what the old one has. -/
theorem content_link_dst (d : Disk N) (n m : N) : (d.link n m).content m = d.content n :=
  congrArg (Option.map d.data) (Function.update_self _ _ _)

/-- The other names have what they had. -/
theorem content_link_of_ne {k : N} (h : k ≠ m) (d : Disk N) (n : N) :
    (d.link n m).content k = d.content k :=
  congrArg (Option.map d.data) (Function.update_of_ne h _ _)

/-- The name is gone. -/
theorem unlink_self (d : Disk N) (n : N) : (d.unlink n).dir n = none := Function.update_self _ _ _

/-- The other names have what they had, also those that stand for the same file. -/
theorem content_unlink_of_ne (h : m ≠ n) (d : Disk N) : (d.unlink n).content m = d.content m :=
  congrArg (Option.map d.data) (Function.update_of_ne h _ _)

end Disk

/-! ## 2. The calls -/

/-- A stream: its file, the place in it, and what has been written and not yet gone to the file. -/
structure Stream where
  ino : Nat
  pos : Nat
  pending : List UInt8

/-- The disk, the open streams, and the number of calls so far. -/
structure FileSys (N : Type) where
  disk : Disk N
  streams : Nat → Option Stream
  time : Nat

/-- Which calls fail, how much they move, and the error they leave. -/
structure Faults where
  fails : Nat → Bool
  part : Nat → Nat
  errno : Nat → Nat

/-- What the calls on streams come to: how much was left in the file, asked for or pending, and
how much of it moved. -/
inductive FileEv
  | fopen (ok : Bool)
  | fread (left got : Nat)
  | fwrite (asked got : Nat)
  | fclose (pending flushed : Nat) (ok : Bool)

/-- Why a computation has no result. -/
inductive Stop
  | undefined
  | noFuel

/-- A computation on the disk and its streams, with a log of the calls. -/
abbrev Files (N : Type) := Logged Stop (FileSys N) FileEv

namespace FileSys

variable {N : Type}

/-- Another stream, or none, under a number. -/
def set (st : FileSys N) (fp : Nat) (s : Option Stream) : FileSys N :=
  { st with streams := Function.update st.streams fp s }

@[simp] theorem set_disk (st : FileSys N) (fp : Nat) (s : Option Stream) :
    (st.set fp s).disk = st.disk := rfl

@[simp] theorem set_self (st : FileSys N) (fp : Nat) (s : Option Stream) :
    (st.set fp s).streams fp = s := Function.update_self _ _ _

/-- The other streams are as they were. -/
theorem set_of_ne {fp x : Nat} (h : x ≠ fp) (st : FileSys N) (s : Option Stream) :
    (st.set fp s).streams x = st.streams x := Function.update_of_ne h _ _

/-- One more call. -/
def tick (st : FileSys N) : FileSys N := { st with time := st.time + 1 }

/-- What is left to read of a stream. -/
def left (st : FileSys N) (s : Stream) : List UInt8 := (st.disk.data s.ino).drop s.pos

end FileSys

section

variable {N : Type} (o : Faults)

/-- `fopen` for reading. -/
def fopenRead (n : N) : Files N (Option Nat) := fun st =>
  match st.disk.dir n, o.fails st.time with
  | some i, false => ([.fopen true], .ok (st.tick.set st.time (some ⟨i, 0, []⟩), some st.time))
  | _, _ => ([.fopen false], .ok (st.tick, none))

/-- `fopen` for writing. -/
def fopenWrite [DecidableEq N] (n : N) : Files N (Option Nat) := fun st =>
  if o.fails st.time then ([.fopen false], .ok (st.tick, none))
  else
    ([.fopen true], .ok ({ st.tick with disk := st.disk.create n }.set st.time
      (some ⟨st.disk.target n, 0, []⟩), some st.time))

/-- How much of `want` bytes a call moves when `avail` are there: less than was asked for only at
the end, or when it fails. -/
def Faults.moves (t want avail : Nat) : Nat :=
  if o.fails t then min (o.part t) (min (want - 1) avail) else min want avail

/-- `fread` of so many bytes. -/
def fread (fp want : Nat) : Files N (List UInt8) := fun st =>
  match st.streams fp with
  | none => ([], .error .undefined)
  | some s =>
    let got := o.moves st.time want (st.left s).length
    ([.fread (st.left s).length got],
      .ok (st.tick.set fp (some { s with pos := s.pos + got }), (st.left s).take got))

/-- `fstat`: the size of the file of a stream. -/
def fstatSize (fp : Nat) : Files N (Option Nat) := fun st =>
  match st.streams fp with
  | none => ([], .error .undefined)
  | some s =>
    ([], .ok (st.tick, if o.fails st.time then none else some (st.disk.data s.ino).length))

/-- `fwrite`: how many bytes it takes. -/
def fwrite (fp : Nat) (bs : List UInt8) : Files N Nat := fun st =>
  match st.streams fp with
  | none => ([], .error .undefined)
  | some s =>
    let got := o.moves st.time bs.length bs.length
    ([.fwrite bs.length got],
      .ok (st.tick.set fp (some { s with pending := s.pending ++ bs.take got }), got))

/-- `fclose`: whether it works.  When it does not, any part of what is pending may be lost. -/
def fclose (fp : Nat) : Files N Bool := fun st =>
  match st.streams fp with
  | none => ([], .error .undefined)
  | some s =>
    let flushed := if o.fails st.time then min (o.part st.time) s.pending.length
      else s.pending.length
    ([.fclose s.pending.length flushed !(o.fails st.time)],
      .ok ({ st.tick with disk := st.disk.extend s.ino (s.pending.take flushed) }.set fp none,
        !(o.fails st.time)))

/-- `EEXIST` -/
def eexist : Nat := 17

/-- `link`: the error, if it fails.  It does not replace a name, and two names of one file are not
on two devices. -/
def linkFile [DecidableEq N] (src dst : N) : Files N (Option Nat) := fun st =>
  match st.disk.dir src, st.disk.dir dst with
  | some _, none =>
    if o.fails st.time then ([], .ok (st.tick, some (o.errno st.time)))
    else ([], .ok ({ st.tick with disk := st.disk.link src dst }, none))
  | some i, some j => ([], .ok (st.tick, some (if i = j then eexist else o.errno st.time)))
  | none, _ => ([], .ok (st.tick, some (o.errno st.time)))

/-- `unlink`: whether it works. -/
def unlinkFile [DecidableEq N] (n : N) : Files N Bool := fun st =>
  if o.fails st.time then ([], .ok (st.tick, false))
  else ([], .ok ({ st.tick with disk := st.disk.unlink n }, (st.disk.dir n).isSome))

end

/-! ## 3. What a log tells -/

namespace FileEv

/-- Bytes that were to be moved were not. -/
def cut : FileEv → Bool
  | fopen _ => false
  | fread left got => got = 0 && left ≠ 0
  | fwrite asked got => got < asked
  | fclose pending flushed _ => flushed < pending

/-- A call that moved nothing, other than at the end of a file. -/
def refused : FileEv → Bool
  | fopen ok => !ok
  | fwrite _ got => got = 0
  | _ => false

/-- A stream that failed to close. -/
def unclosed : FileEv → Bool
  | fclose _ _ ok => !ok
  | _ => false

end FileEv

/-- What has been seen so far. -/
@[ext] structure Flags where
  cut : Bool
  refused : Bool
  unclosed : Bool

namespace Flags

def after (p : Flags) (e : FileEv) : Flags where
  cut := p.cut || e.cut
  refused := p.refused || e.refused
  unclosed := p.unclosed || e.unclosed

def next (p : Flags) (e : FileEv) : Option Flags := some (p.after e)

/-- Nothing has been seen. -/
def none : Flags := ⟨false, false, false⟩

theorem follows_eq {p q : Flags} {es : List FileEv} : Follows next p es q ↔
    q = ⟨p.cut || es.any FileEv.cut, p.refused || es.any FileEv.refused,
      p.unclosed || es.any FileEv.unclosed⟩ := by
  induction es generalizing p with
  | nil => simp [eq_comm]
  | cons e es ih => simp [follows_cons, next, ih, after, Bool.or_assoc]

end Flags

/-! ## 4. Rules -/

section

variable {N : Type} {o : Faults} {st : FileSys N} {p : Flags} {E : Stop → Flags → Prop}
  {fp : Nat} {s : Stream} {n : N}

/-- A call moves no more than it is asked to, and no more than there is. -/
theorem Faults.moves_le (t want avail : Nat) : o.moves t want avail ≤ min want avail := by
  rw [Faults.moves]
  split <;> omega

/-- A call that does not fail moves all it can. -/
theorem Faults.moves_of_not_fails {t : Nat} (h : o.fails t = false) (want avail : Nat) :
    o.moves t want avail = min want avail := by
  rw [Faults.moves, h]
  rfl

/-- A call that logs one event. -/
theorem typed_call {α : Type} {w : Files N α} {Q : α → FileSys N → Flags → Prop} {e : FileEv}
    {st' : FileSys N} {a : α} (h : w st = ([e], .ok (st', a))) (hQ : Q a st' (p.after e)) :
    Typed Flags.next p st w Q E := by
  refine ⟨fun st'' b hb => ?_, fun err herr => ?_⟩
  · rw [h] at hb ⊢
    obtain ⟨rfl, rfl⟩ : st' = st'' ∧ a = b := by simpa using hb
    exact ⟨_, follows_singleton.mpr rfl, hQ⟩
  · rw [h] at herr
    cases herr

/-- A call that logs nothing. -/
theorem typed_silent {α : Type} {w : Files N α} {Q : α → FileSys N → Flags → Prop}
    {st' : FileSys N} {a : α} (h : w st = ([], .ok (st', a))) (hQ : Q a st' p) :
    Typed Flags.next p st w Q E := by
  refine ⟨fun st'' b hb => ?_, fun err herr => ?_⟩
  · rw [h] at hb ⊢
    obtain ⟨rfl, rfl⟩ : st' = st'' ∧ a = b := by simpa using hb
    exact ⟨p, follows_nil _ p, hQ⟩
  · rw [h] at herr
    cases herr

/-- A call that is undefined. -/
theorem typed_undefined {α : Type} {w : Files N α} {Q : α → FileSys N → Flags → Prop}
    (h : w st = ([], .error .undefined)) (hE : E .undefined p) : Typed Flags.next p st w Q E := by
  refine ⟨fun st' a ha => ?_, fun err herr => ?_⟩
  · rw [h] at ha
    cases ha
  · rw [h] at herr ⊢
    obtain rfl : Stop.undefined = err := by simpa using herr
    exact ⟨p, follows_nil _ p, hE⟩

/-- Opening for reading: the file is there, or the call has failed. -/
theorem fopenRead_typed {Q : Option Nat → FileSys N → Flags → Prop}
    (hopen : ∀ i, st.disk.dir n = some i →
      Q (some st.time) (st.tick.set st.time (some ⟨i, 0, []⟩)) (p.after (.fopen true)))
    (hfail : o.fails st.time = true ∨ st.disk.dir n = none →
      Q none st.tick (p.after (.fopen false))) :
    Typed Flags.next p st (fopenRead o n) Q E := by
  cases hdir : st.disk.dir n with
  | none => exact typed_call (by rw [fopenRead, hdir]) (hfail (.inr hdir))
  | some i =>
    cases hf : o.fails st.time with
    | false => exact typed_call (by rw [fopenRead, hdir, hf]) (hopen i hdir)
    | true => exact typed_call (by rw [fopenRead, hdir, hf]) (hfail (.inl hf))

/-- Reading: a part of what is left, which is all of it unless the call fails. -/
theorem fread_typed (hs : st.streams fp = some s) {want : Nat}
    {Q : List UInt8 → FileSys N → Flags → Prop}
    (h : ∀ got, got ≤ min want (st.left s).length →
      (o.fails st.time = false → got = min want (st.left s).length) → Q ((st.left s).take got)
        (st.tick.set fp (some { s with pos := s.pos + got }))
        (p.after (.fread (st.left s).length got))) :
    Typed Flags.next p st (fread o fp want) Q E :=
  typed_call (by rw [fread, hs])
    (h _ (Faults.moves_le _ _ _) fun hf => Faults.moves_of_not_fails hf _ _)

/-- The size of the file, or a failure. -/
theorem fstatSize_typed (hs : st.streams fp = some s) {Q : Option Nat → FileSys N → Flags → Prop}
    (hfail : o.fails st.time = true → Q none st.tick p)
    (h : Q (some (st.disk.data s.ino).length) st.tick p) :
    Typed Flags.next p st (fstatSize o fp) Q E := by
  cases hf : o.fails st.time with
  | false => exact typed_silent (by rw [fstatSize, hs, hf]; rfl) h
  | true => exact typed_silent (by rw [fstatSize, hs, hf]; rfl) (hfail hf)

/-- Writing: a part of the bytes waits in the stream, which is all of them unless the call fails. -/
theorem fwrite_typed (hs : st.streams fp = some s) {bs : List UInt8}
    {Q : Nat → FileSys N → Flags → Prop}
    (h : ∀ got, got ≤ bs.length → (o.fails st.time = false → got = bs.length) → Q got
      (st.tick.set fp (some { s with pending := s.pending ++ bs.take got }))
      (p.after (.fwrite bs.length got))) :
    Typed Flags.next p st (fwrite o fp bs) Q E :=
  typed_call (by rw [fwrite, hs]) (h _ (by simpa using o.moves_le st.time bs.length bs.length)
    fun hf => (Faults.moves_of_not_fails hf _ _).trans (Nat.min_self _))

/-- Closing: a part of what waits goes to the disk, and where the call succeeds, all of it.  The
stream is closed in any case. -/
theorem fclose_typed (hs : st.streams fp = some s) {Q : Bool → FileSys N → Flags → Prop}
    (h : ∀ ok flushed, flushed ≤ s.pending.length → (ok = true → flushed = s.pending.length) →
      (o.fails st.time = false → ok = true) →
      Q ok ({ st.tick with disk := st.disk.extend s.ino (s.pending.take flushed) }.set fp none)
        (p.after (.fclose s.pending.length flushed ok))) :
    Typed Flags.next p st (fclose o fp) Q E := by
  refine typed_call (by rw [fclose, hs]) (h _ _ ?_ (fun hok => ?_) fun hf => by rw [hf]; rfl)
  · split
    · exact Nat.min_le_right _ _
    · exact Nat.le_refl _
  · rw [if_neg (by simpa using hok)]

/-- Closing a stream that is not open. -/
theorem fclose_undefined (hs : st.streams fp = none) {Q : Bool → FileSys N → Flags → Prop}
    (hE : E .undefined p) : Typed Flags.next p st (fclose o fp) Q E :=
  typed_undefined (by rw [fclose, hs]) hE

variable [DecidableEq N]

/-- Opening for writing: the file is there and is empty, or the call has failed. -/
theorem fopenWrite_typed {Q : Option Nat → FileSys N → Flags → Prop}
    (hopen : Q (some st.time)
      ({ st.tick with disk := st.disk.create n }.set st.time (some ⟨st.disk.target n, 0, []⟩))
      (p.after (.fopen true)))
    (hfail : o.fails st.time = true → Q none st.tick (p.after (.fopen false))) :
    Typed Flags.next p st (fopenWrite o n) Q E := by
  cases hf : o.fails st.time with
  | false => exact typed_call (by rw [fopenWrite, hf]; rfl) hopen
  | true => exact typed_call (by rw [fopenWrite, hf]; rfl) (hfail hf)

/-- A second name, or one of the ways in which there is none: the name is in use, or the call has
failed. -/
theorem linkFile_typed {src dst : N} {Q : Option Nat → FileSys N → Flags → Prop}
    (hlink : st.disk.dir dst = none → Q none { st.tick with disk := st.disk.link src dst } p)
    (hfail : ∀ e, (st.disk.dir src = st.disk.dir dst → (st.disk.dir src).isSome → e = eexist) →
      Q (some e) st.tick p) :
    Typed Flags.next p st (linkFile o src dst) Q E := by
  cases hsrc : st.disk.dir src with
  | none =>
    refine typed_silent (by rw [linkFile, hsrc]) (hfail _ fun _ hsome => ?_)
    rw [hsrc] at hsome
    cases hsome
  | some i =>
    cases hdst : st.disk.dir dst with
    | none =>
      cases hf : o.fails st.time with
      | false => exact typed_silent (by rw [linkFile, hsrc, hdst, hf]; rfl) (hlink hdst)
      | true =>
        refine typed_silent (by rw [linkFile, hsrc, hdst, hf]; rfl) (hfail _ fun hsame _ => ?_)
        rw [hsrc, hdst] at hsame
        cases hsame
    | some j =>
      refine typed_silent (by rw [linkFile, hsrc, hdst]) (hfail _ fun hsame _ => ?_)
      rw [hsrc, hdst] at hsame
      exact if_pos (Option.some.inj hsame)

/-- The name is gone, or the call has failed. -/
theorem unlinkFile_typed {Q : Bool → FileSys N → Flags → Prop} (hfail : Q false st.tick p)
    (h : Q (st.disk.dir n).isSome { st.tick with disk := st.disk.unlink n } p) :
    Typed Flags.next p st (unlinkFile o n) Q E := by
  cases hf : o.fails st.time with
  | false => exact typed_silent (by rw [unlinkFile, hf]; rfl) h
  | true => exact typed_silent (by rw [unlinkFile, hf]; rfl) hfail

end

/-! ## 5. A new file -/

section

variable {N : Type} {o : Faults} {st st' st₁ : FileSys N} {p : Flags} {E : Stop → Flags → Prop}
  {dfp : Nat} {dst : N} {pending : List UInt8}

/-- All is as in `st`, but for the name `dst` and the file that it stands for now, and no stream is
open. -/
structure Frame (dst : N) (st st' : FileSys N) : Prop where
  dir : ∀ n, n ≠ dst → st'.disk.dir n = st.disk.dir n
  data : ∀ i, i ≠ st.disk.target dst → st'.disk.data i = st.disk.data i
  streams : ∀ fp, st'.streams fp = none

/-- A file has been opened for writing, and its stream is the only one. -/
structure Waiting (dst : N) (dfp : Nat) (pending : List UInt8) (st st' : FileSys N) : Prop where
  dir : ∀ n, n ≠ dst → st'.disk.dir n = st.disk.dir n
  dirDst : st'.disk.dir dst = some (st.disk.target dst)
  data : ∀ i, i ≠ st.disk.target dst → st'.disk.data i = st.disk.data i
  empty : st'.disk.data (st.disk.target dst) = []
  stream : st'.streams dfp = some ⟨st.disk.target dst, 0, pending⟩
  others : ∀ x, x ≠ dfp → st'.streams x = none

/-- What is given to the stream waits in it. -/
theorem Waiting.write (h : Waiting dst dfp pending st st₁) (bs : List UInt8) :
    Waiting dst dfp (pending ++ bs) st
      (st₁.tick.set dfp (some ⟨st.disk.target dst, 0, pending ++ bs⟩)) :=
  ⟨h.dir, h.dirDst, h.data, h.empty, FileSys.set_self _ _ _,
    fun x hx => (FileSys.set_of_ne hx _ _).trans (h.others x hx)⟩

/-- The file is closed, and some first part of what is waiting is written out: all of it, if that
does not fail. -/
theorem Waiting.close (h : Waiting dst dfp pending st st₁) :
    Typed Flags.next p st₁ (fclose o dfp) (fun ok st' q => Frame dst st st' ∧
      q.refused = p.refused ∧ q.unclosed = (p.unclosed || !ok) ∧
      (o.fails st₁.time = false → ok = true) ∧
      ∃ bytes, st'.disk.content dst = some bytes ∧ (ok = true → bytes = pending) ∧
        (bytes = pending ∧ q.cut = p.cut ∨ bytes.length < pending.length ∧ q.cut = true)) E := by
  refine fclose_typed h.stream fun ok flushed hle hall hfine => ⟨⟨h.dir, fun i hi => ?_,
    fun x => ?_⟩, by simp [Flags.after, FileEv.refused], by simp [Flags.after, FileEv.unclosed],
    hfine, pending.take flushed, Disk.content_eq_some.mpr ⟨_, h.dirDst, ?_⟩, fun hok => ?_, ?_⟩
  · exact (Disk.extend_of_ne hi _ _).trans (h.data i hi)
  · by_cases hx : x = dfp
    · rw [hx, FileSys.set_self]
    · exact (FileSys.set_of_ne hx _ _).trans (h.others x hx)
  · refine (Disk.extend_self _ _ _).trans ?_
    rw [h.empty]
    rfl
  · rw [hall hok, List.take_length]
  · dsimp only at hle
    rcases Nat.lt_or_ge flushed pending.length with hlt | hge
    · refine .inr ⟨?_, ?_⟩
      · rw [List.length_take]
        omega
      · simp [Flags.after, FileEv.cut, hlt]
    · refine .inl ⟨List.take_of_length_le hge, ?_⟩
      simp [Flags.after, FileEv.cut, Nat.not_lt.mpr hge]

variable [DecidableEq N]

/-- Opening a file for writing, when no stream is open. -/
theorem fopenWrite_waiting (hidle : ∀ x, st.streams x = none) :
    Typed Flags.next p st (fopenWrite o dst) (fun fp st' q => match fp with
      | none => o.fails st.time = true ∧ st' = st.tick ∧ q.refused = true ∧
          q.cut = p.cut ∧ q.unclosed = p.unclosed
      | some fp => Waiting dst fp [] st st' ∧ st'.time = st.time + 1 ∧ q = p) E := by
  refine fopenWrite_typed ⟨⟨fun n hn => Disk.create_dir_of_ne hn, Disk.create_dir_self _ _,
    fun k hk => Disk.create_data_of_ne hk, Disk.create_data_self _ _, FileSys.set_self _ _ _,
    fun x hx => (FileSys.set_of_ne hx _ _).trans (hidle x)⟩, rfl, ?_⟩ fun hf => ⟨hf, rfl, ?_⟩
  · simp [Flags.after, FileEv.cut, FileEv.refused, FileEv.unclosed]
  · simp [Flags.after, FileEv.cut, FileEv.refused, FileEv.unclosed]

end

end Verif
