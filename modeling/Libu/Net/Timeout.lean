/-
# Connecting with a timeout (`u_connect_ex` of `toolbox/net.c`)

A connection that is not made at once is waited for with `select`.  A signal may interrupt that, any
number of times, and what is left of the timeout is computed anew from the clock.

What the system answers is a parameter: `select` may be interrupted any number of times, and report
anything else.  The account is a fact about the log alone, of the last wait and the readings before
it; that the loop ends follows where the clock goes on, since each round then takes a microsecond at
least from what is left.

* §1: the arithmetic of `timeval`s.
* §2: the account of the time (`clockNext`).  It is read off the log: each `select` is to wait for
  the timeout less the time from the first reading of the clock to the last one.
* §3: the loop keeps the account, and ends.
* §4: `u_connect_ex` (`uConnectEx_deadline`).
-/
import Libu.Net.Socket

namespace Libu.Net

open Verif

/-! ## 1. Intervals -/

def Timeval.micros (t : Timeval) : Int := t.sec * 1000000 + t.usec

/-- The microseconds are less than a second. -/
def Timeval.Normal (t : Timeval) : Prop := 0 ≤ t.usec ∧ t.usec < 1000000

instance (t : Timeval) : Decidable t.Normal := inferInstanceAs (Decidable (_ ∧ _))

variable {t t0 t1 : Timeval}

theorem normal_uTimersub (h1 : t1.Normal) (h0 : t0.Normal) : (uTimersub t1 t0).Normal := by
  simp only [Timeval.Normal] at h1 h0
  simp only [uTimersub, Timeval.Normal]
  split <;> dsimp only <;> omega

/-- The borrow keeps the difference. -/
theorem micros_uTimersub (t1 t0 : Timeval) : (uTimersub t1 t0).micros = t1.micros - t0.micros := by
  simp only [uTimersub]
  split <;> simp only [Timeval.micros] <;> omega

/-- The sign is that of the seconds. -/
theorem sec_neg_iff (h : t.Normal) : t.sec < 0 ↔ t.micros < 0 := by
  obtain ⟨h, h'⟩ := h
  unfold Timeval.micros
  omega

/-! ## 2. The account of the time -/

/-- The first and the last reading of the clock. -/
structure Readings where
  first : Int
  last : Int

/-- A reading of the clock. -/
def Readings.read (p : Option Readings) (now : Int) : Readings :=
  match p with
  | none => ⟨now, now⟩
  | some r => { r with last := now }

/-- What is left of the timeout `total`. -/
def Readings.left (total : Int) (r : Readings) : Int := total - (r.last - r.first)

section

variable {W A : Type}

/-- The account: a `select` waits for what is left, and only as long as something is left. -/
def clockNext (total : Int) (p : Option Readings) : Ev A → Option (Option Readings)
  | .gettimeofday (.ok now) => some (some (Readings.read p now.micros))
  | .on _ (.select timeout _) =>
    match p, timeout with
    | some r, some timeout =>
      if timeout.Normal ∧ timeout.micros = r.left total ∧ 0 ≤ r.left total then some p else none
    | _, _ => none
  | _ => some p

/-- What is read off the clock is a proper `timeval`. -/
def Shows (os : Os W A) : Prop := ∀ w t, (os.gettimeofday w).1 = .ok t → t.Normal

/-- The clock of the system: it is what is read, a `connect` does not set it back, and it goes on
while a `select` waits for a signal. -/
structure Clocked (os : Os W A) (clock : W → Int) : Prop where
  read : ∀ w t, (os.gettimeofday w).1 = .ok t →
    t.micros = clock w ∧ clock w ≤ clock (os.gettimeofday w).2
  connect : ∀ s a len w, clock w ≤ clock (os.connect s a len w).2
  select : ∀ s timeout w, (os.select s timeout w).1 = .error eintr →
    clock w < clock (os.select s timeout w).2

end

/-! ## 3. The loop -/

section

variable {W A : Type} {os : Os W A} {sd len : Nat} {total : Int} {a : A}
  {st st' : St W A} {r : Readings} {tstart : Timeval}

/-- The timeout is what is left. -/
def Accounts (total : Int) (st : St W A) (r : Readings) : Prop :=
  ∃ t, st.timeout = some t ∧ t.Normal ∧ t.micros = r.left total

/-- The account at the head of the loop: `tstart` is the last reading. -/
structure LoopAt (os : Os W A) (total : Int) (tstart : Timeval) (st : St W A) (r : Readings) :
    Prop where
  normal : tstart.Normal
  last : tstart.micros = r.last
  passed : ∀ clock, Clocked os clock → r.last ≤ clock st.world
  account : Accounts total st r

/-- `update_timeout` is a reading of the clock. -/
theorem updateTimeout_clock (hos : Shows os) (h : LoopAt os total tstart st r)
    {E : Stuck → Option Readings → Prop} :
    Typed (clockNext total) (some r) st (updateTimeout os tstart) (fun now st' p => ∃ r',
      p = some r' ∧ Accounts total st' r' ∧ ∀ t, now = some t → r'.first = r.first ∧
        (∀ clock, Clocked os clock → r'.last = clock st.world) ∧ LoopAt os total t st' r') E := by
  obtain ⟨t, ht, hnormal, hleft⟩ := h.account
  cases hnow : (os.gettimeofday st.world).1 with
  | error e =>
    refine Typed.bind (Q := fun o st' p => o = .error e ∧ st'.timeout = st.timeout ∧ p = some r)
      (typed_call (by rw [hnow]; rfl) ⟨hnow, rfl, rfl⟩) ?_
    rintro _ st' _ ⟨rfl, htimeout, rfl⟩
    exact typed_pure ⟨r, rfl, ⟨t, htimeout.trans ht, hnormal, hleft⟩, by simp⟩
  | ok now =>
    have hnormal' := hos _ _ hnow
    let r' : Readings := { r with last := now.micros }
    have hmicros : (uTimersub t (uTimersub now tstart)).micros = r'.left total := by
      rw [micros_uTimersub, micros_uTimersub, hleft, h.last]
      simp only [Readings.left, r']
      omega
    refine Typed.bind (Q := fun o st' p => o = .ok now ∧ st'.timeout = some t ∧
      st'.world = (os.gettimeofday st.world).2 ∧ p = some r')
      (typed_call (by rw [hnow]; rfl) ⟨hnow, ht, rfl, rfl⟩) ?_
    rintro _ st' _ ⟨rfl, htimeout, hworld, rfl⟩
    have haccount : Accounts total (st'.spend (uTimersub now tstart)) r' :=
      ⟨_, by simp [St.spend, htimeout],
        normal_uTimersub hnormal (normal_uTimersub hnormal' h.normal), hmicros⟩
    have hafter : ∀ clock, Clocked os clock →
        r'.last ≤ clock (st'.spend (uTimersub now tstart)).world := by
      intro clock hclock
      obtain ⟨hread, hpassed⟩ := hclock.read _ _ hnow
      simp only [St.spend, hworld, r']
      omega
    refine Typed.bind (Q := fun _ st'' p => st'' = st'.spend (uTimersub now tstart) ∧ p = some r')
      (typed_modify ⟨rfl, rfl⟩) ?_
    rintro _ _ _ ⟨rfl, rfl⟩
    refine typed_pure ⟨r', rfl, haccount, fun t ht => ?_⟩
    obtain rfl := Option.some.inj ht
    exact ⟨rfl, fun clock hclock => (hclock.read _ _ hnow).1, hnormal', rfl, hafter, haccount⟩

/-- The loop keeps the account.  While the clock goes on, it is cut off only when there is less fuel
than time. -/
theorem selectLoop_clock (hos : Shows os) (sd : Nat) : ∀ (fuel : Nat) (tstart : Timeval)
    (st : St W A) (r : Readings), LoopAt os total tstart st r → 0 ≤ r.left total →
      Typed (clockNext total) (some r) st (selectLoop os sd fuel tstart)
        (fun _ st' p => ∃ r', p = some r' ∧ Accounts total st' r')
        (fun _ _ => ∀ clock, Clocked os clock → (fuel : Int) ≤ r.left total)
  | 0, _, _, _, _, hleft => typed_fail fun _ _ => hleft
  | fuel + 1, tstart, st, r, h, hleft => by
    obtain ⟨t, ht, hnormal, hmicros⟩ := h.account
    have hselect : clockNext (A := A) total (some r) (.on sd (.select (some t)
        (os.select sd (some t) st.world).1)) = some (some r) := by
      simp [clockNext, hnormal, hmicros, hleft]
    simp only [selectLoop]
    refine Typed.get_bind ?_
    rw [ht]
    refine Typed.bind (Q := fun o st' p => o = (os.select sd (some t) st.world).1 ∧
      st'.timeout = some t ∧ st'.world = (os.select sd (some t) st.world).2 ∧ p = some r)
      (typed_call hselect ⟨rfl, ht, rfl, rfl⟩) ?_
    rintro o st' _ ⟨ho, ht', hworld, rfl⟩
    have hst' : Accounts total st' r := ⟨t, ht', hnormal, hmicros⟩
    cases o with
    | ok n =>
      cases n with
      | zero =>
        exact Typed.bind (Q := fun _ st' p => Accounts total st' r ∧ p = some r)
          (typed_modify ⟨hst', rfl⟩) fun _ st' p hp => typed_pure ⟨r, hp.2, hp.1⟩
      | succ n => exact typed_pure ⟨r, rfl, hst'⟩
    | error e =>
      by_cases he : e = eintr
      · have htick : ∀ clock, Clocked os clock → clock st.world < clock st'.world := by
          intro clock hclock
          rw [hworld]
          exact hclock.select sd (some t) st.world (by rw [← ho, he])
        have hhead : LoopAt os total tstart st' r := ⟨h.normal, h.last, fun clock hclock =>
          Int.le_trans (h.passed clock hclock) (Int.le_of_lt (htick clock hclock)), hst'⟩
        simp only [he, ne_eq, not_true_eq_false, if_false, Option.isSome_some, if_true]
        refine Typed.bind (updateTimeout_clock hos hhead) ?_
        rintro now st'' _ ⟨r', rfl, haccount, hnow⟩
        cases now with
        | none => exact typed_pure ⟨r', rfl, haccount⟩
        | some now =>
          obtain ⟨hfirst, hlast, hhead'⟩ := hnow now rfl
          have hless : ∀ clock, Clocked os clock → r'.left total + 1 ≤ r.left total := by
            intro clock hclock
            have hpassed := h.passed clock hclock
            have htick := htick clock hclock
            simp only [Readings.left, hfirst, hlast clock hclock]
            omega
          obtain ⟨t', ht'', hnormal', hmicros'⟩ := haccount
          refine Typed.get_bind ?_
          simp only [ht'', Option.any_some, decide_eq_true_eq, sec_neg_iff hnormal', hmicros']
          split
          · exact Typed.bind (Q := fun _ st' p => Accounts total st' r' ∧ p = some r')
              (typed_modify ⟨⟨t', ht'', hnormal', hmicros'⟩, rfl⟩) fun _ st' p hp =>
                typed_pure ⟨r', hp.2, hp.1⟩
          · next hpos =>
            refine (selectLoop_clock hos sd fuel now st'' r' hhead' (by omega)).mono
              (fun _ _ _ hp => hp) fun _ _ hfuel clock hclock => ?_
            have hfuel := hfuel clock hclock
            have hless := hless clock hclock
            push_cast
            omega
      · simp only [ne_eq, he, not_false_eq_true, if_true]
        exact typed_pure ⟨r, rfl, hst'⟩

/-! ## 4. The connection -/

variable {p : Option Readings} {E : Stuck → Option Readings → Prop} {t : Timeval}

/-- What has been read so far, and the timeout that goes with it. -/
def Kept (t : Timeval) (st : St W A) : Option Readings → Prop
  | none => st.timeout = some t
  | some r => Accounts t.micros st r

theorem Kept.congr (h : Kept t st p) (hst : st'.timeout = st.timeout) : Kept t st' p := by
  cases p with
  | none => exact hst.trans h
  | some r =>
    obtain ⟨t', ht', hrest⟩ := h
    exact ⟨t', hst.trans ht', hrest⟩

/-- There is a timeout, all the time. -/
theorem Kept.isSome (h : Kept t st p) : st.timeout.isSome = true := by
  cases p with
  | none => rw [show st.timeout = some t from h, Option.isSome_some]
  | some r =>
    obtain ⟨t', ht', -⟩ := h
    rw [ht', Option.isSome_some]

/-- A call that is not of the account. -/
theorem untimed_clock {α : Type} {f : W → Except Errno α × W} {ev : Except Errno α → Ev A}
    (hev : ∀ r, clockNext total p (ev r) = some p) (hst : Kept t st p) :
    Typed (clockNext total) p st (call f ev)
      (fun r st' q => r = (f st.world).1 ∧ st'.world = (f st.world).2 ∧ q = p ∧ Kept t st' p) E :=
  typed_call (hev _) ⟨rfl, rfl, rfl, hst.congr rfl⟩

theorem setErrno_clock (hst : Kept t st p) (e : Errno) :
    Typed (clockNext total) p st (setErrno e) (fun _ st' q => q = p ∧ Kept t st' p) E :=
  typed_modify ⟨rfl, hst.congr rfl⟩

theorem changeFlags_clock (hst : Kept t st p) (g : Nat → Nat) :
    Typed (clockNext total) p st (changeFlags os g sd) (fun _ st' q => q = p ∧ Kept t st' p) E := by
  refine Typed.bind (untimed_clock (fun _ => rfl) hst) ?_
  rintro r st' _ ⟨-, -, rfl, hst'⟩
  cases r with
  | error e => exact typed_pure ⟨rfl, hst'⟩
  | ok flags =>
    refine Typed.bind (untimed_clock (fun _ => rfl) hst') ?_
    rintro r st'' _ ⟨-, -, rfl, hst''⟩
    exact typed_pure ⟨rfl, hst''⟩

theorem pendingError_clock (hst : Kept t st p) :
    Typed (clockNext total) p st (pendingError os sd) (fun _ st' q => q = p ∧ Kept t st' p) E := by
  refine Typed.bind (untimed_clock (fun _ => rfl) hst) ?_
  rintro r st' _ ⟨-, -, rfl, hst'⟩
  cases r with
  | error e => exact typed_pure ⟨rfl, hst'⟩
  | ok rc =>
    dsimp only
    split
    · refine Typed.bind (setErrno_clock hst' rc) ?_
      rintro _ st'' _ ⟨rfl, hst''⟩
      exact typed_pure ⟨rfl, hst''⟩
    · exact typed_pure ⟨rfl, hst'⟩

/-- From `connect` on. -/
theorem connectFrom_clock (hos : Shows os) (h : LoopAt os t.micros tstart st r)
    (hleft : r.left t.micros = t.micros) (ht : 0 ≤ t.micros) (fuel : Nat) :
    Typed (clockNext t.micros) (some r) st (connectFrom os fuel sd a len tstart)
      (fun _ st' p => Kept t st' p)
      (fun _ _ => ∀ clock, Clocked os clock → (fuel : Int) ≤ t.micros) := by
  have hkept : Kept t st (some r) := h.account
  refine Typed.bind (untimed_clock (fun _ => rfl) hkept) ?_
  rintro o st' _ ⟨-, hworld, rfl, hst'⟩
  cases o with
  | ok u => exact typed_pure hst'
  | error e =>
    dsimp only
    split
    · exact typed_pure hst'
    · have hpassed : ∀ clock, Clocked os clock → r.last ≤ clock st'.world := by
        intro clock hclock
        rw [hworld]
        exact Int.le_trans (h.passed clock hclock) (hclock.connect sd a len st.world)
      have hloop := selectLoop_clock hos sd fuel tstart st' r
        ⟨h.normal, h.last, hpassed, hst'⟩ (by rwa [hleft])
      rw [hleft] at hloop
      refine Typed.bind hloop ?_
      rintro b st'' _ ⟨r', rfl, hst''⟩
      cases b with
      | false => exact typed_pure hst''
      | true =>
        exact (pendingError_clock (p := some r') hst'').weaken fun _ _ _ ⟨hq, h⟩ => hq ▸ h

theorem connectBody_clock (hos : Shows os) (hst : st.timeout = some t) (hn : t.Normal)
    (ht : 0 ≤ t.micros) (fuel : Nat) :
    Typed (clockNext t.micros) none st (connectBody os fuel sd a len)
      (fun _ st' p => Kept t st' p)
      (fun _ _ => ∀ clock, Clocked os clock → (fuel : Int) ≤ t.micros) := by
  have hkept : Kept t st none := hst
  refine Typed.get_bind ?_
  simp only [hst, Option.isSome_some, if_true]
  refine Typed.bind (changeFlags_clock hkept _) ?_
  rintro b st₁ _ ⟨rfl, hst₁⟩
  cases b with
  | false => exact typed_pure hst₁
  | true =>
    cases hnow : (os.gettimeofday st₁.world).1 with
    | error e =>
      refine Typed.bind (Q := fun o st' p => o = .error e ∧ Kept t st' p)
        (typed_call (q := none) (by rw [hnow]; rfl) ⟨hnow, hst₁.congr rfl⟩) ?_
      rintro _ st₂ p ⟨rfl, hst₂⟩
      exact typed_pure hst₂
    | ok tstart =>
      let r : Readings := ⟨tstart.micros, tstart.micros⟩
      have hleft : r.left t.micros = t.micros := by simp [Readings.left, r]
      refine Typed.bind (Q := fun o st' p => o = .ok tstart ∧ p = some r ∧
        LoopAt os t.micros tstart st' r) (typed_call (q := some r) (by rw [hnow]; rfl)
          ⟨hnow, rfl, hos _ _ hnow, rfl, ?_, t, hst₁, hn, hleft.symm⟩) ?_
      · intro clock hclock
        obtain ⟨hread, hpassed⟩ := hclock.read _ _ hnow
        simp only [r, world_after]
        omega
      · rintro _ st₂ _ ⟨rfl, rfl, hloop⟩
        exact connectFrom_clock hos hloop hleft ht fuel

/-- **The timeout is kept, whatever interrupts the waiting.**  Each `select` waits for the timeout
less the time that has passed between the readings of the clock, and for no negative time; after
the call, the caller's `timeout` is what is left.  While the clock goes on, it comes back within
as many rounds of the loop as there are microseconds in the timeout, and one. -/
theorem uConnectEx_deadline (hos : Shows os) (hst : st.timeout = some t) (hn : t.Normal)
    (ht : 0 ≤ t.sec) (a : Option A) (fuel : Nat) :
    Typed (clockNext t.micros) none st (uConnectEx os fuel sd a len)
      (fun rc st' p => (rc = 0 ∨ rc = -1 ∨ rc = -2) ∧ Kept t st' p)
      (fun _ _ => ∀ clock, Clocked os clock → (fuel : Int) ≤ t.micros) := by
  have hmicros : 0 ≤ t.micros := by
    have hsec := sec_neg_iff hn
    omega
  have hkept : Kept t st none := hst
  cases a with
  | none => exact typed_pure ⟨.inr (.inl rfl), hkept⟩
  | some a =>
    simp only [uConnectEx]
    split
    · exact typed_pure ⟨.inr (.inl rfl), hkept⟩
    · refine Typed.bind (connectBody_clock hos hst hn hmicros fuel) ?_
      intro x st₁ p hst₁
      cases x with
      | atOnce => exact typed_pure ⟨.inl rfl, hst₁⟩
      | selected =>
        refine Typed.get_bind ?_
        simp only [hst₁.isSome, if_true]
        refine Typed.bind (changeFlags_clock hst₁ _) ?_
        rintro _ st₂ _ ⟨rfl, hst₂⟩
        exact typed_pure ⟨.inl rfl, hst₂⟩
      | err =>
        refine Typed.get_bind ?_
        simp only [hst₁.isSome, if_true]
        refine Typed.bind (changeFlags_clock hst₁ _) ?_
        rintro _ st₂ _ ⟨rfl, hst₂⟩
        refine Typed.get_bind (typed_pure ⟨?_, hst₂⟩)
        split
        · exact .inr (.inr rfl)
        · exact .inr (.inl rfl)

end

/-- A system with a clock, on which two signals come before a connection is made. -/
def signalled : Os Nat Unit where
  socket _ _ _ w := (.ok 3, w)
  setsockopt _ _ w := (.ok (), w)
  getfl _ w := (.ok 2, w)
  setfl _ _ w := (.ok (), w)
  bind _ _ _ w := (.ok (), w)
  listen _ _ w := (.ok (), w)
  connect _ _ _ w := (.error einprogress, w)
  select _ _ w := if w < 1000002 then (.error eintr, w + 1) else (.ok 1, w)
  soError _ w := (.ok 0, w)
  gettimeofday w := (.ok ⟨w / 1000000, w % 1000000⟩, w)
  close _ w := (.ok (), w)

theorem shows_signalled : Shows signalled := by
  intro w t h
  obtain rfl := Except.ok.inj h
  simp only [Timeval.Normal]
  omega

theorem uConnectEx_deadline_signalled :
    Typed (clockNext (A := Unit) (Timeval.micros ⟨2, 500000⟩)) none
      ⟨1000000, 0, some ⟨2, 500000⟩, none⟩ (uConnectEx signalled 10 3 (some ()) 16)
      (fun rc st' p => (rc = 0 ∨ rc = -1 ∨ rc = -2) ∧ Kept ⟨2, 500000⟩ st' p)
      (fun _ _ => ∀ clock, Clocked signalled clock →
        ((10 : Nat) : Int) ≤ Timeval.micros ⟨2, 500000⟩) :=
  uConnectEx_deadline (t := ⟨2, 500000⟩) shows_signalled rfl (by decide) (by decide) (some ()) 10

/-- Both signals are waited out, and what they took is taken from the timeout. -/
example : (uConnectEx signalled 10 3 (some ()) 16 ⟨1000000, 0, some ⟨2, 500000⟩, none⟩).2 =
    .ok (⟨1000002, eintr, some ⟨2, 499998⟩, none⟩, 0) := rfl

end Libu.Net
