/-
# Making sockets (`toolbox/net.c`)

A socket is made from an address, which is a list of candidates: they are tried in their order, and
each trial is a number of system calls, of which any may fail.

* §1 is the code.  The system calls are a parameter and work on a state of any type; `errno`, the
  `timeout` of the caller and `a->cur` are kept beside it.  Every call goes to a log with what
  comes of it.
* §2 is the purpose: the protocol of the calls (`trialNext`).  One descriptor is open at a time, it
  is one of the candidate whose turn it is, and the calls on it come in the order of BSD sockets.
* §3: the wrappers and the two ways to set a socket up.
* §4: the candidates.  A socket that is handed out is that of the first candidate that worked, and
  nothing else is left open (`uNetSdByAddrEx_safe`).
-/
import Libu.Net
import Libu.Verif.Protocol

namespace Libu.Net

open Verif

/-! ## 1. The code -/

abbrev Errno := Int

def eintr : Errno := 4
def einprogress : Errno := 115
def etimedout : Errno := 110

structure Timeval where
  sec : Int
  usec : Int
  deriving DecidableEq

/-- `u_timersub` -/
def uTimersub (t1 t0 : Timeval) : Timeval :=
  let sec := t1.sec - t0.sec
  let usec := t1.usec - t0.usec
  if usec < 0 then ⟨sec - 1, usec + 1000000⟩ else ⟨sec, usec⟩

/-- `SOCK_STREAM`, `SOCK_DGRAM` and `SOCK_SEQPACKET` -/
inductive SockKind
  | stream | dgram | seqpacket
  deriving DecidableEq

/-- `u_addrinfo_t`; `addr` is `none` for NULL. -/
structure AddrInfo (A : Type) where
  family : AddrFamily
  socktype : SockKind
  protocol : Proto
  addrlen : Nat
  addr : Option A

/-- `u_net_addr_t`, without `cur` -/
structure NetAddr (A : Type) where
  opts : Nat
  mode : Mode
  addr : List (AddrInfo A)

def optDontReuseAddr : Nat := 0
def optDontConnect : Nat := 1
def optSctpOneToMany : Nat := 2
def optDgramBroadcast : Nat := 20

/-- `U_NET_BACKLOG` -/
def backlogSz : Nat := 300

/-- `O_NONBLOCK` -/
def oNonblock : Nat := 2048

/-- What `setsockopt` is called for; the nine fields of an `sctp_event_subscribe` are as the
source sets them. -/
inductive SockOpt
  | reuseAddr
  | broadcast
  | sctpEvents (fields : List Bool)
  deriving DecidableEq

/-- What is done to a descriptor, with what comes of it. -/
inductive Op (A : Type)
  | setsockopt (o : SockOpt) (r : Except Errno Unit)
  | getfl (r : Except Errno Nat)
  | setfl (flags : Nat) (r : Except Errno Unit)
  | bind (a : A) (len : Nat) (r : Except Errno Unit)
  | listen (backlog : Nat) (r : Except Errno Unit)
  | connect (a : A) (len : Nat) (r : Except Errno Unit)
  | select (timeout : Option Timeval) (r : Except Errno Nat)
  | soError (r : Except Errno Int)
  | close (r : Except Errno Unit)

/-- A system call. -/
inductive Ev (A : Type)
  | socket (domain : AddrFamily) (type : SockKind) (protocol : Proto) (r : Except Errno Nat)
  | gettimeofday (r : Except Errno Timeval)
  | on (s : Nat) (op : Op A)

/-- The system calls, on a state `W` that is not the program's.  `select` waits until `s` can be
written to, and answers with the number of descriptors that are ready. -/
structure Os (W A : Type) where
  socket : AddrFamily → SockKind → Proto → W → Except Errno Nat × W
  setsockopt : Nat → SockOpt → W → Except Errno Unit × W
  getfl : Nat → W → Except Errno Nat × W
  setfl : Nat → Nat → W → Except Errno Unit × W
  bind : Nat → A → Nat → W → Except Errno Unit × W
  listen : Nat → Nat → W → Except Errno Unit × W
  connect : Nat → A → Nat → W → Except Errno Unit × W
  select : Nat → Option Timeval → W → Except Errno Nat × W
  soError : Nat → W → Except Errno Int × W
  gettimeofday : W → Except Errno Timeval × W
  close : Nat → W → Except Errno Unit × W

/-- The state that the code works on. -/
structure St (W A : Type) where
  world : W
  errno : Errno
  timeout : Option Timeval
  cur : Option (AddrInfo A)

/-- The fuel of a loop has run out. -/
inductive Stuck
  | fuel

abbrev Sock (W A α : Type) := Logged Stuck (St W A) (Ev A) α

section

variable {W A α : Type}

/-- The state after a system call: its error goes to `errno`. -/
def St.after (st : St W A) (r : Except Errno α × W) : St W A :=
  { st with
    world := r.2
    errno := match r.1 with
      | .error e => e
      | .ok _ => st.errno }

/-- A system call goes to the log. -/
def call (f : W → Except Errno α × W) (ev : Except Errno α → Ev A) :
    Sock W A (Except Errno α) := fun st =>
  ([ev (f st.world).1], .ok (st.after (f st.world), (f st.world).1))

def isOk (r : Except Errno α) : Bool :=
  match r with
  | .ok _ => true
  | .error _ => false

/-- `u_socket`: `none` for -1. -/
def uSocket (os : Os W A) (domain : AddrFamily) (type : SockKind) (protocol : Proto) :
    Sock W A (Option Nat) := do
  let r ← call (os.socket domain type protocol) (.socket domain type protocol)
  pure (match r with
    | .ok s => some s
    | .error _ => none)

/-- `u_setsockopt` -/
def uSetsockopt (os : Os W A) (s : Nat) (o : SockOpt) : Sock W A Bool := do
  let r ← call (os.setsockopt s o) fun r => .on s (.setsockopt o r)
  pure (isOk r)

/-- `u_bind` -/
def uBind (os : Os W A) (s : Nat) (a : A) (len : Nat) : Sock W A Bool := do
  let r ← call (os.bind s a len) fun r => .on s (.bind a len r)
  pure (isOk r)

/-- `u_listen` -/
def uListen (os : Os W A) (s backlog : Nat) : Sock W A Bool := do
  let r ← call (os.listen s backlog) fun r => .on s (.listen backlog r)
  pure (isOk r)

/-- `U_CLOSE`, of an `int` that may be -1 -/
def uClose (os : Os W A) (s : Option Nat) : Sock W A Unit :=
  match s with
  | none => pure ()
  | some s => do
    let _ ← call (os.close s) fun r => .on s (.close r)
    pure ()

/-- `fcntl` with `F_GETFL`, then with `F_SETFL` and what `f` makes of the flags. -/
def changeFlags (os : Os W A) (f : Nat → Nat) (s : Nat) : Sock W A Bool := do
  match ← call (os.getfl s) fun r => .on s (.getfl r) with
  | .error _ => pure false
  | .ok flags =>
    let r ← call (os.setfl s (f flags)) fun r => .on s (.setfl (f flags) r)
    pure (isOk r)

/-- `u_net_set_nonblocking` -/
def uNetSetNonblocking (os : Os W A) (s : Nat) : Sock W A Bool :=
  changeFlags os (fun flags => flags ||| oNonblock) s

/-- `u_net_unset_nonblocking` -/
def uNetUnsetNonblocking (os : Os W A) (s : Nat) : Sock W A Bool :=
  changeFlags os (fun flags => flags - (flags &&& oNonblock)) s

def setErrno (e : Errno) : Sock W A Unit := Logged.modify fun st => { st with errno := e }

/-- The timeout, less what has elapsed. -/
def St.spend (telapsed : Timeval) (st : St W A) : St W A :=
  { st with timeout := st.timeout.map fun timeout => uTimersub timeout telapsed }

/-- `update_timeout`: the new `tstart`. -/
def updateTimeout (os : Os W A) (tstart : Timeval) : Sock W A (Option Timeval) := do
  match ← call os.gettimeofday .gettimeofday with
  | .error _ => pure none
  | .ok now =>
    Logged.modify (St.spend (uTimersub now tstart))
    pure (some now)

/-- The loop of `u_connect_ex`: `false` where it goes to `err`.  `tstart` is meant only where there
is a `timeout`. -/
def selectLoop (os : Os W A) (sd : Nat) : Nat → Timeval → Sock W A Bool
  | 0, _ => Logged.fail .fuel
  | fuel + 1, tstart => do
    let st ← Logged.get
    match ← call (os.select sd st.timeout) fun r => .on sd (.select st.timeout r) with
    | .ok (_ + 1) => pure true
    | .ok 0 =>
      setErrno etimedout
      pure false
    | .error e =>
      if e ≠ eintr then pure false
      else if st.timeout.isSome then
        match ← updateTimeout os tstart with
        | none => pure false
        | some tstart =>
          let st ← Logged.get
          if st.timeout.any fun timeout => decide (timeout.sec < 0) then
            setErrno etimedout
            pure false
          else selectLoop os sd fuel tstart
      else selectLoop os sd fuel tstart

/-- How `u_connect_ex` ends: by the `return` after `connect`, behind the loop, or at `err`. -/
inductive Exit
  | atOnce | selected | err

/-- `SO_ERROR`, behind the loop -/
def pendingError (os : Os W A) (sd : Nat) : Sock W A Exit := do
  match ← call (os.soError sd) fun r => .on sd (.soError r) with
  | .error _ => pure .err
  | .ok rc =>
    if rc ≠ 0 then
      setErrno rc
      pure .err
    else pure .selected

/-- `u_connect_ex`, from `connect` on -/
def connectFrom (os : Os W A) (fuel sd : Nat) (a : A) (len : Nat) (tstart : Timeval) :
    Sock W A Exit := do
  match ← call (os.connect sd a len) fun r => .on sd (.connect a len r) with
  | .ok _ => pure .atOnce
  | .error e =>
    if e ≠ eintr ∧ e ≠ einprogress then pure .err
    else if ← selectLoop os sd fuel tstart then pendingError os sd
    else pure .err

/-- `u_connect_ex`, up to where it ends -/
def connectBody (os : Os W A) (fuel sd : Nat) (a : A) (len : Nat) : Sock W A Exit := do
  let st ← Logged.get
  if st.timeout.isSome then
    if ← uNetSetNonblocking os sd then
      match ← call os.gettimeofday .gettimeofday with
      | .error _ => pure .err
      | .ok tstart => connectFrom os fuel sd a len tstart
    else pure .err
  else connectFrom os fuel sd a len ⟨0, 0⟩

/-- `u_connect_ex` -/
def uConnectEx (os : Os W A) (fuel sd : Nat) (a : Option A) (len : Nat) : Sock W A Int :=
  match a with
  | none => pure (-1)
  | some a =>
    if len = 0 then pure (-1)
    else do
      match ← connectBody os fuel sd a len with
      | .atOnce => pure 0
      | .selected =>
        let st ← Logged.get
        if st.timeout.isSome then
          let _ ← uNetUnsetNonblocking os sd
          pure 0
        else pure 0
      | .err =>
        let st ← Logged.get
        if st.timeout.isSome then
          let _ ← uNetUnsetNonblocking os sd
          let st ← Logged.get
          pure (if st.errno = etimedout then -2 else -1)
        else pure (if st.errno = etimedout then -2 else -1)

/-- `sctp_enable_events` -/
def sctpEnableEvents (os : Os W A) (s opts : Nat) : Sock W A Bool :=
  uSetsockopt os s (.sctpEvents ((List.range' 3 9).map fun i => opts.testBit i))

/-- `bind_reuse_addr` -/
def bindReuseAddr (os : Os W A) (s : Nat) : Sock W A Bool := uSetsockopt os s .reuseAddr

/-- A step that is made only on a condition. -/
def onlyIf (c : Bool) (w : Sock W A Bool) : Sock W A Bool := if c then w else pure true

/-- The steps one after the other, until one fails. -/
def allOf : List (Sock W A Bool) → Sock W A Bool
  | [] => pure true
  | w :: ws => do
    if ← w then allOf ws else pure false

/-- The label `err` of `do_csock` and `do_ssock`: what is open is closed. -/
def orClose (os : Os W A) (s : Nat) (w : Sock W A Bool) : Sock W A Int := do
  if ← w then pure s
  else
    uClose os (some s)
    pure (-1)

/-- `do_csock` -/
def doCsock (os : Os W A) (fuel : Nat) (sad : Option A) (sadLen : Nat) (domain : AddrFamily)
    (type : SockKind) (protocol : Proto) (opts _dummy : Nat) : Sock W A Int :=
  match sad with
  | none => pure (-1)
  | some sad => do
    match ← uSocket os domain type protocol with
    | none =>
      uClose os none
      pure (-1)
    | some s =>
      orClose os s <| allOf
        [onlyIf (type = .dgram && opts.testBit optDgramBroadcast) (uSetsockopt os s .broadcast),
          onlyIf (opts.testBit optSctpOneToMany) (sctpEnableEvents os s opts),
          onlyIf (!opts.testBit optDontConnect) do
            let rc ← uConnectEx os fuel s (some sad) sadLen
            pure (decide (0 ≤ rc))]

/-- `do_ssock` -/
def doSsock (os : Os W A) (sad : Option A) (sadLen : Nat) (domain : AddrFamily)
    (type : SockKind) (protocol : Proto) (opts backlog : Nat) : Sock W A Int :=
  match sad with
  | none => pure (-1)
  | some sad => do
    match ← uSocket os domain type protocol with
    | none =>
      uClose os none
      pure (-1)
    | some s =>
      orClose os s <| allOf
        [onlyIf (domain ≠ .unix && !opts.testBit optDontReuseAddr) (bindReuseAddr os s),
          onlyIf (opts.testBit optSctpOneToMany) (sctpEnableEvents os s opts),
          uBind os s sad sadLen,
          onlyIf (type = .stream || type = .seqpacket) (uListen os s backlog)]

/-- The type of socket that `do_sock` asks for. -/
def sockType (opts : Nat) (ap : AddrInfo A) : SockKind :=
  if ap.protocol = .sctp ∧ opts.testBit optSctpOneToMany = true then .seqpacket else ap.socktype

/-- `do_csock` or `do_ssock`. -/
abbrev Horse (W A : Type) :=
  Option A → Nat → AddrFamily → SockKind → Proto → Nat → Nat → Sock W A Int

/-- The loop of `do_sock`, with the last `sd`. -/
def sockLoop (wf : Horse W A) (opts backlog : Nat) : Int → List (AddrInfo A) → Sock W A Int
  | sd, [] => pure sd
  | _, ap :: rest => do
    let sd ← wf ap.addr ap.addrlen ap.family (sockType opts ap) ap.protocol opts backlog
    if 0 ≤ sd then
      Logged.modify fun st => { st with cur := some ap }
      pure sd
    else sockLoop wf opts backlog sd rest

/-- `do_sock` -/
def doSock (wf : Horse W A) (a : NetAddr A) (backlog : Nat) : Sock W A Int :=
  if a.addr = [] then pure (-1)
  else sockLoop wf a.opts backlog (-1) a.addr

/-- `u_net_sd_by_addr_ex` -/
def uNetSdByAddrEx (os : Os W A) (fuel : Nat) (a : NetAddr A) : Sock W A Int :=
  match a.mode with
  | .ssock => doSock (doSsock os) a backlogSz
  | .csock => doSock (doCsock os fuel) a 0

/-- `u_net_sd_ex`.  `resolve` is what resolves an address (`getaddrinfo`, and `resolv_sun`). -/
def uNetSdEx (os : Os W A) (resolve : Resolver → Option (List (AddrInfo A))) (fuel : Nat)
    (uri : List Char) (mode : Mode) (opts : Nat) : Sock W A Int :=
  match (uNetUri2addr uri mode).bind resolve with
  | none => pure (-1)
  | some addr => uNetSdByAddrEx os fuel ⟨opts, mode, addr⟩

end

/-! ## 2. The protocol of the calls -/

/-- How far a socket is set up.  `pending`: its connection is under way; `writable`: `select` has
found an end of that. -/
inductive Stage
  | fresh | bound | listening | pending | writable | connected | failed
  deriving DecidableEq

/-- A socket that is open: the candidate that it is for, and the options set on it. -/
structure Held (A : Type) where
  fd : Nat
  ap : AddrInfo A
  options : List SockOpt
  stage : Stage

/-- The candidates that are still to come, and the socket that is open. -/
structure Phase (A : Type) where
  rest : List (AddrInfo A)
  held : Option (Held A)

/-- What works is not closed. -/
def Stage.mayClose : Stage → Bool
  | .fresh | .pending | .failed => true
  | .bound | .listening | .writable | .connected => false

section

variable {W A α : Type} [DecidableEq A]

/-- A call that makes `h'` of the socket, unless it fails. -/
def Held.outcome (h h' : Held A) (r : Except Errno α) : Held A :=
  if isOk r then h' else { h with stage := .failed }

/-- The stage that a `connect` leaves. -/
def afterConnect : Except Errno Unit → Stage
  | .ok _ => .connected
  | .error e => if e = eintr ∨ e = einprogress then .pending else .failed

/-- The stage that a `select` leaves. -/
def afterSelect : Except Errno Nat → Stage
  | .ok 0 => .failed
  | .ok (_ + 1) => .writable
  | .error e => if e = eintr then .pending else .failed

/-- The stage that asking for `SO_ERROR` leaves. -/
def afterSoError : Except Errno Int → Stage
  | .ok rc => if rc = 0 then .connected else .failed
  | .error _ => .failed

/-- What may be done to an open socket, and what it is then; `some none` where it is closed.
Options are set before anything else, the address is that of the candidate, and only the types that
have connections listen. -/
def Held.next (opts : Nat) (h : Held A) : Op A → Option (Option (Held A))
  | .setsockopt o r =>
    if h.stage = .fresh then some (some (h.outcome { h with options := h.options ++ [o] } r))
    else none
  | .getfl _ => some (some h)
  | .setfl _ _ => some (some h)
  | .bind a len r =>
    if h.stage = .fresh ∧ h.ap.addr = some a ∧ h.ap.addrlen = len then
      some (some (h.outcome { h with stage := .bound } r))
    else none
  | .listen backlog r =>
    if h.stage = .bound ∧ backlog = backlogSz ∧ sockType opts h.ap ≠ .dgram then
      some (some (h.outcome { h with stage := .listening } r))
    else none
  | .connect a len r =>
    if h.stage = .fresh ∧ h.ap.addr = some a ∧ h.ap.addrlen = len then
      some (some { h with stage := afterConnect r })
    else none
  | .select _ r =>
    if h.stage = .pending then some (some { h with stage := afterSelect r }) else none
  | .soError r =>
    if h.stage = .writable then some (some { h with stage := afterSoError r }) else none
  | .close _ => if h.stage.mayClose then some none else none

/-- The protocol: a socket is made for the next candidate, when none is open, and what is done is
done to the one that is open. -/
def trialNext (opts : Nat) (p : Phase A) : Ev A → Option (Phase A)
  | .socket domain type protocol r =>
    match p.held, p.rest with
    | none, ap :: rest =>
      if domain = ap.family ∧ type = sockType opts ap ∧ protocol = ap.protocol then
        some ⟨rest, match r with
          | .ok s => some ⟨s, ap, [], .fresh⟩
          | .error _ => none⟩
      else none
    | _, _ => none
  | .gettimeofday _ => some p
  | .on s op =>
    match p.held with
    | some h => if h.fd = s then (h.next opts op).map fun held => { p with held := held } else none
    | none => none

/-- The candidates that have an address. -/
def candidates (l : List (AddrInfo A)) : List (AddrInfo A) := l.filter fun ap => ap.addr.isSome

/-- The options that a socket for the candidate is to have. -/
def wantedOptions (mode : Mode) (opts : Nat) (ap : AddrInfo A) : List SockOpt :=
  (match mode with
    | .ssock =>
      if ap.family ≠ .unix ∧ opts.testBit optDontReuseAddr = false then [.reuseAddr] else []
    | .csock =>
      if sockType opts ap = .dgram ∧ opts.testBit optDgramBroadcast = true then [.broadcast]
      else []) ++
  if opts.testBit optSctpOneToMany then
    [.sctpEvents ((List.range' 3 9).map fun i => opts.testBit i)]
  else []

/-- How far a socket for the candidate is to be set up. -/
def wantedStage (mode : Mode) (opts : Nat) (ap : AddrInfo A) : Stage :=
  match mode with
  | .ssock => if sockType opts ap = .dgram then .bound else .listening
  | .csock => if opts.testBit optDontConnect then .fresh else .connected

/-- The socket `s` as it is to be handed out for the candidate. -/
def ready (mode : Mode) (opts : Nat) (ap : AddrInfo A) (s : Nat) : Held A :=
  ⟨s, ap, wantedOptions mode opts ap, wantedStage mode opts ap⟩

end

/-! ## 3. Setting a socket up -/

section

variable {W A α : Type} {κ : Type} {next : κ → Ev A → Option κ} {p q : κ} {st : St W A}
  {f : W → Except Errno α × W} {ev : Except Errno α → Ev A}
  {Q : Except Errno α → St W A → κ → Prop} {E : Stuck → κ → Prop}

@[simp] theorem cur_after (st : St W A) (r : Except Errno α × W) : (st.after r).cur = st.cur := rfl

@[simp] theorem timeout_after (st : St W A) (r : Except Errno α × W) :
    (st.after r).timeout = st.timeout := rfl

@[simp] theorem world_after (st : St W A) (r : Except Errno α × W) : (st.after r).world = r.2 := rfl

theorem typed_call (hnext : next p (ev (f st.world).1) = some q)
    (hQ : Q (f st.world).1 (st.after (f st.world)) q) : Typed next p st (call f ev) Q E := by
  refine ⟨fun st' r h => ?_, fun e h => ?_⟩
  · obtain ⟨rfl, rfl⟩ : st.after (f st.world) = st' ∧ (f st.world).1 = r := by simpa [call] using h
    exact ⟨q, follows_singleton.mpr hnext, hQ⟩
  · cases h

end

section

variable {W A : Type} {c : Option (AddrInfo A)} {rest : List (AddrInfo A)} {h h' : Held A}
  {st : St W A}

/-- A step has made `h'` of the socket, or has left it where it may be closed. -/
def Done (c : Option (AddrInfo A)) (rest : List (AddrInfo A)) (h' : Held A) (b : Bool)
    (st : St W A) (p : Phase A) : Prop :=
  st.cur = c ∧ ∃ h'' : Held A, p = ⟨rest, some h''⟩ ∧ h''.fd = h'.fd ∧
    (b = true → h'' = h') ∧ (b = false → h''.stage.mayClose = true)

/-- Where a call fails, what it leaves is `Done` with `false`. -/
theorem done_false (hst : st.cur = c) (hfd : h.fd = h'.fd) (hclose : h.stage.mayClose = true) :
    Done c rest h' false st ⟨rest, some h⟩ :=
  ⟨hst, h, rfl, hfd, by simp, fun _ => hclose⟩

theorem done_true (hst : st.cur = c) : Done c rest h' true st ⟨rest, some h'⟩ :=
  ⟨hst, h', rfl, rfl, fun _ => rfl, by simp⟩

end

section

variable {W A : Type} [DecidableEq A] {os : Os W A} {opts s : Nat} {c : Option (AddrInfo A)}
  {rest : List (AddrInfo A)} {h h' h'' : Held A} {st : St W A} {p : Phase A} {a : A} {len : Nat}

/-- `Typed`, in a phase of the protocol, wherever a loop may be cut off. -/
abbrev Trial {α : Type} (opts : Nat) (p : Phase A) (st : St W A) (w : Sock W A α)
    (Q : α → St W A → Phase A → Prop) : Prop := Typed (trialNext opts) p st w Q fun _ _ => True

/-- A call on the socket that is open. -/
theorem typed_on {α : Type} {f : W → Except Errno α × W} {op : Except Errno α → Op A}
    {Q : Except Errno α → St W A → Phase A → Prop} (g : Except Errno α → Held A)
    (hnext : ∀ r, h.next opts (op r) = some (some (g r)))
    (hQ : ∀ r, Q r (st.after (f st.world)) ⟨rest, some (g r)⟩) :
    Trial opts ⟨rest, some h⟩ st (call f fun r => .on h.fd (op r)) Q := by
  refine typed_call (q := ⟨rest, some (g (f st.world).1)⟩) ?_ (hQ _)
  simp [trialNext, hnext]

/-- A call that either works or fails. -/
theorem isOk_typed {α : Type} {f : W → Except Errno α × W} {op : Except Errno α → Op A}
    (hst : st.cur = c) (hfd : h'.fd = h.fd)
    (hnext : ∀ r, h.next opts (op r) = some (some (h.outcome h' r))) :
    Trial opts ⟨rest, some h⟩ st (do
      let r ← call f fun r => .on h.fd (op r)
      pure (isOk r)) (Done c rest h') := by
  refine Typed.bind (Q := fun r st p => Done c rest h' (isOk r) st p) ?_ fun r st p hr =>
    typed_pure hr
  refine typed_on (h.outcome h') hnext fun r => ⟨hst, h.outcome h' r, rfl, ?_, ?_, ?_⟩
  · cases r <;> simp [Held.outcome, isOk, hfd]
  · intro hr
    simp [Held.outcome, hr]
  · intro hr
    simp [Held.outcome, hr, Stage.mayClose]

theorem uSetsockopt_typed (hst : st.cur = c) (hh : h.stage = .fresh) (o : SockOpt) :
    Trial opts ⟨rest, some h⟩ st (uSetsockopt os h.fd o)
      (Done c rest { h with options := h.options ++ [o] }) :=
  isOk_typed hst rfl fun r => by simp [Held.next, hh]

theorem uBind_typed (hst : st.cur = c) (hh : h.stage = .fresh) (ha : h.ap.addr = some a) :
    Trial opts ⟨rest, some h⟩ st (uBind os h.fd a h.ap.addrlen)
      (Done c rest { h with stage := .bound }) :=
  isOk_typed hst rfl fun r => by simp [Held.next, hh, ha]

theorem uListen_typed (hst : st.cur = c) (hh : h.stage = .bound)
    (ht : sockType opts h.ap ≠ .dgram) :
    Trial opts ⟨rest, some h⟩ st (uListen os h.fd backlogSz)
      (Done c rest { h with stage := .listening }) :=
  isOk_typed hst rfl fun r => by simp [Held.next, hh, ht]

/-- The flags of a descriptor are not of the protocol. -/
theorem changeFlags_typed (hst : st.cur = c) (g : Nat → Nat) :
    Trial opts ⟨rest, some h⟩ st (changeFlags os g h.fd)
      (fun _ st p => st.cur = c ∧ p = ⟨rest, some h⟩) := by
  refine Typed.bind (Q := fun _ st p => st.cur = c ∧ p = ⟨rest, some h⟩)
    (typed_on (fun _ => h) (fun r => rfl) fun r => ⟨hst, rfl⟩) ?_
  rintro r st p ⟨hst, rfl⟩
  cases r with
  | error e => exact typed_pure ⟨hst, rfl⟩
  | ok flags =>
    refine Typed.bind (Q := fun _ st p => st.cur = c ∧ p = ⟨rest, some h⟩)
      (typed_on (fun _ => h) (fun r => rfl) fun r => ⟨hst, rfl⟩) ?_
    rintro r st p ⟨hst, rfl⟩
    exact typed_pure ⟨hst, rfl⟩

theorem setErrno_typed (hst : st.cur = c) (e : Errno) :
    Trial opts p st (setErrno e) (fun _ st q => st.cur = c ∧ q = p) :=
  typed_modify ⟨hst, rfl⟩

theorem gettimeofday_typed (hst : st.cur = c) :
    Trial opts p st (call os.gettimeofday .gettimeofday) (fun _ st q => st.cur = c ∧ q = p) :=
  typed_call rfl ⟨hst, rfl⟩

theorem updateTimeout_typed (hst : st.cur = c) (tstart : Timeval) :
    Trial opts p st (updateTimeout os tstart) (fun _ st q => st.cur = c ∧ q = p) := by
  refine Typed.bind (gettimeofday_typed hst) ?_
  rintro (e | now) st p ⟨hst, rfl⟩
  · exact typed_pure ⟨hst, rfl⟩
  · refine Typed.bind (Q := fun _ st q => st.cur = c ∧ q = p) (typed_modify ⟨hst, rfl⟩) ?_
    rintro _ st q ⟨hst, rfl⟩
    exact typed_pure ⟨hst, rfl⟩

/-- The loop ends with a socket that can be written to, or may be closed. -/
theorem selectLoop_typed (hh : h.stage = .pending) : ∀ (fuel : Nat) (tstart : Timeval)
    (st : St W A), st.cur = c → Trial opts ⟨rest, some h⟩ st (selectLoop os h.fd fuel tstart)
      (Done c rest { h with stage := .writable })
  | 0, _, _, _ => typed_fail trivial
  | fuel + 1, tstart, st, hst => by
    have hsame : ({ h with stage := .pending } : Held A) = h := by rw [← hh]
    have hclosable : ∀ (st : St W A) h'', st.cur = c → h''.fd = h.fd → h''.stage.mayClose = true →
        Trial opts ⟨rest, some h''⟩ st (pure false) (Done c rest { h with stage := .writable }) :=
      fun st h'' hst hfd hclose => typed_pure ⟨hst, h'', rfl, hfd, by simp, fun _ => hclose⟩
    have hloop := selectLoop_typed hh fuel
    refine Typed.get_bind (Typed.bind (Q := fun r st p => st.cur = c ∧
      p = ⟨rest, some { h with stage := afterSelect r }⟩)
      (typed_on (fun r => { h with stage := afterSelect r }) (fun r => by simp [Held.next, hh])
        fun r => ⟨hst, rfl⟩) ?_)
    rintro (e | _ | n) st' p ⟨hst', rfl⟩
    · by_cases he : e = eintr
      · simp only [afterSelect, he, if_true, hsame, ne_eq, not_true_eq_false, if_false]
        cases htimeout : st.timeout with
        | none => simpa [htimeout] using hloop tstart st' hst'
        | some t =>
          simp only [Option.isSome_some, if_true]
          refine Typed.bind (updateTimeout_typed hst' tstart) ?_
          rintro (_ | tstart) st p ⟨hst, rfl⟩
          · exact hclosable st h hst rfl (by simp [hh, Stage.mayClose])
          · refine Typed.get_bind ?_
            split
            · refine Typed.bind (setErrno_typed hst etimedout) ?_
              rintro _ st p ⟨hst, rfl⟩
              exact hclosable st h hst rfl (by simp [hh, Stage.mayClose])
            · exact hloop tstart st hst
      · simp only [ne_eq, he, not_false_eq_true, if_true, afterSelect, if_false]
        exact hclosable _ _ hst' rfl rfl
    · refine Typed.bind (setErrno_typed hst' etimedout) ?_
      rintro _ st p ⟨hst, rfl⟩
      exact hclosable _ _ hst rfl rfl
    · exact typed_pure ⟨hst', _, rfl, rfl, fun _ => rfl, by simp⟩

/-- `err` is the way out of what has failed. -/
def Exit.isGood : Exit → Bool
  | .atOnce | .selected => true
  | .err => false

theorem pendingError_typed (hst : st.cur = c) (hh : h.stage = .writable) :
    Trial opts ⟨rest, some h⟩ st (pendingError os h.fd)
      (fun x => Done c rest { h with stage := .connected } x.isGood) := by
  refine Typed.bind (Q := fun r st p => st.cur = c ∧
    p = ⟨rest, some { h with stage := afterSoError r }⟩)
    (typed_on (fun r => { h with stage := afterSoError r }) (fun r => by simp [Held.next, hh])
      fun r => ⟨hst, rfl⟩) ?_
  rintro (e | rc) st p ⟨hst, rfl⟩
  · exact typed_pure (done_false hst rfl rfl)
  · by_cases hrc : rc = 0
    · simp only [hrc, ne_eq, not_true_eq_false, if_false]
      exact typed_pure (done_true hst)
    · simp only [ne_eq, hrc, not_false_eq_true, if_true]
      refine Typed.bind (setErrno_typed hst rc) ?_
      rintro _ st p ⟨hst, rfl⟩
      refine typed_pure (done_false hst rfl ?_)
      simp [afterSoError, hrc, Stage.mayClose]

theorem connectFrom_typed (hst : st.cur = c) (hh : h.stage = .fresh) (ha : h.ap.addr = some a)
    (fuel : Nat) (tstart : Timeval) :
    Trial opts ⟨rest, some h⟩ st (connectFrom os fuel h.fd a h.ap.addrlen tstart)
      (fun x => Done c rest { h with stage := .connected } x.isGood) := by
  refine Typed.bind (Q := fun r st p => st.cur = c ∧
    p = ⟨rest, some { h with stage := afterConnect r }⟩)
    (typed_on (fun r => { h with stage := afterConnect r }) (fun r => by simp [Held.next, hh, ha])
      fun r => ⟨hst, rfl⟩) ?_
  rintro (e | _) st p ⟨hst, rfl⟩
  · by_cases he : e = eintr ∨ e = einprogress
    · have hno : ¬(e ≠ eintr ∧ e ≠ einprogress) := fun hboth => he.elim hboth.1 hboth.2
      simp only [afterConnect, he, hno, if_true, if_false]
      refine Typed.bind (selectLoop_typed (h := { h with stage := .pending }) rfl fuel tstart st
        hst) ?_
      rintro (_ | _) st p ⟨hst, h₂, rfl, hfd, hgood, hbad⟩
      · exact typed_pure (done_false hst hfd (hbad rfl))
      · obtain rfl := hgood rfl
        exact pendingError_typed (h := { h with stage := .writable }) hst rfl
    · have hyes : e ≠ eintr ∧ e ≠ einprogress := not_or.mp he
      simp only [hyes, ne_eq, not_false_eq_true, and_self, if_true]
      refine typed_pure (done_false hst rfl ?_)
      simp [afterConnect, he, Stage.mayClose]
  · exact typed_pure (done_true hst)

theorem connectBody_typed (hst : st.cur = c) (hh : h.stage = .fresh) (ha : h.ap.addr = some a)
    (fuel : Nat) :
    Trial opts ⟨rest, some h⟩ st (connectBody os fuel h.fd a h.ap.addrlen)
      (fun x => Done c rest { h with stage := .connected } x.isGood) := by
  have herr : ∀ st : St W A, st.cur = c → Trial opts ⟨rest, some h⟩ st (pure Exit.err)
      (fun x : Exit => Done c rest { h with stage := .connected } x.isGood) := fun st hst =>
    typed_pure (done_false hst rfl (by simp [hh, Stage.mayClose]))
  refine Typed.get_bind ?_
  split
  · refine Typed.bind (changeFlags_typed hst _) ?_
    rintro (_ | _) st p ⟨hst, rfl⟩
    · exact herr st hst
    · refine Typed.bind (gettimeofday_typed hst) ?_
      rintro (e | tstart) st p ⟨hst, rfl⟩
      · exact herr st hst
      · exact connectFrom_typed hst hh ha fuel tstart
  · exact connectFrom_typed hst hh ha fuel _

/-- `u_connect_ex` returns 0 for a socket that is connected, and nothing else. -/
theorem uConnectEx_typed (hst : st.cur = c) (hh : h.stage = .fresh) (ha : h.ap.addr = some a)
    (fuel : Nat) :
    Trial opts ⟨rest, some h⟩ st (uConnectEx os fuel h.fd (some a) h.ap.addrlen)
      (fun rc => Done c rest { h with stage := .connected } (decide (0 ≤ rc))) := by
  simp only [uConnectEx]
  split
  · exact typed_pure (done_false hst rfl (by simp [hh, Stage.mayClose]))
  · refine Typed.bind (connectBody_typed hst hh ha fuel) ?_
    rintro x st p ⟨hst, h₂, rfl, hfd, hgood, hbad⟩
    have hflags : ∀ st : St W A, st.cur = c → Trial opts ⟨rest, some h₂⟩ st
        (uNetUnsetNonblocking os h.fd) (fun _ st p => st.cur = c ∧ p = ⟨rest, some h₂⟩) := by
      intro st hst
      rw [show h.fd = h₂.fd from hfd.symm]
      exact changeFlags_typed hst _
    cases x with
    | atOnce =>
      obtain rfl := hgood rfl
      exact typed_pure (done_true hst)
    | selected =>
      obtain rfl := hgood rfl
      refine Typed.get_bind ?_
      split
      · refine Typed.bind (hflags st hst) ?_
        rintro _ st p ⟨hst, rfl⟩
        exact typed_pure (done_true hst)
      · exact typed_pure (done_true hst)
    | err =>
      have hneg : ∀ st : St W A, st.cur = c → Trial opts ⟨rest, some h₂⟩ st
          (pure (if st.errno = etimedout then -2 else -1))
          (fun rc => Done c rest { h with stage := .connected } (decide (0 ≤ rc))) := by
        intro st hst
        refine typed_pure ?_
        rw [decide_eq_false (by split <;> decide)]
        exact done_false hst hfd (hbad rfl)
      refine Typed.get_bind ?_
      split
      · refine Typed.bind (hflags st hst) ?_
        rintro _ st p ⟨hst, rfl⟩
        exact Typed.get_bind (hneg st hst)
      · exact hneg st hst

/-- Steps in a row: each starts with what the one before makes of the socket. -/
theorem allOf_cons_typed {w : Sock W A Bool} {ws : List (Sock W A Bool)}
    (hw : Trial opts p st w (Done c rest h')) (hfd : h'.fd = h''.fd)
    (hws : ∀ st : St W A, st.cur = c → Trial opts ⟨rest, some h'⟩ st (allOf ws) (Done c rest h'')) :
    Trial opts p st (allOf (w :: ws)) (Done c rest h'') := by
  refine Typed.bind hw ?_
  rintro (_ | _) st p ⟨hst, h₂, rfl, hfd₂, hgood, hbad⟩
  · exact typed_pure (done_false hst (hfd₂.trans hfd) (hbad rfl))
  · obtain rfl := hgood rfl
    exact hws st hst

theorem onlyIf_typed {w : Sock W A Bool} {b : Bool} (hst : st.cur = c)
    (hw : b = true → Trial opts ⟨rest, some h⟩ st w (Done c rest h')) :
    Trial opts ⟨rest, some h⟩ st (onlyIf b w) (Done c rest (if b then h' else h)) := by
  cases b with
  | false => exact typed_pure (done_true hst)
  | true => exact hw rfl

theorem orClose_typed {w : Sock W A Bool} (hw : Trial opts p st w (Done c rest h')) :
    Trial opts p st (orClose os h'.fd w) (fun sd st p => st.cur = c ∧
      (sd = -1 ∧ p = ⟨rest, none⟩ ∨ sd = h'.fd ∧ p = ⟨rest, some h'⟩)) := by
  refine Typed.bind hw ?_
  rintro (_ | _) st p ⟨hst, h₂, rfl, hfd, hgood, hbad⟩
  · refine Typed.bind (Q := fun _ st p => st.cur = c ∧ p = ⟨rest, none⟩) ?_ ?_
    · refine Typed.bind (Q := fun _ st p => st.cur = c ∧ p = ⟨rest, none⟩)
        (typed_call ?_ ⟨hst, rfl⟩) ?_
      · simp [trialNext, hfd, Held.next, hbad rfl]
      · rintro _ st p ⟨hst, rfl⟩
        exact typed_pure ⟨hst, rfl⟩
    · rintro _ st p ⟨hst, rfl⟩
      exact typed_pure ⟨hst, .inl ⟨rfl, rfl⟩⟩
  · obtain rfl := hgood rfl
    exact typed_pure ⟨hst, .inr ⟨rfl, rfl⟩⟩

end

/-! ## 4. The candidates -/

section

variable {W A : Type} {opts : Nat} {c : Option (AddrInfo A)} {ap : AddrInfo A} {a : A}
  {st : St W A} {mode : Mode}

/-- The descriptors that are open after a call. -/
def openAfter (fds : List Nat) : Ev A → List Nat
  | .socket _ _ _ (.ok s) => s :: fds
  | .on s (.close _) => fds.erase s
  | _ => fds

/-- The descriptor that is open in a phase, if any. -/
def Phase.open (p : Phase A) : List Nat := (p.held.map Held.fd).toList

theorem open_length_le (p : Phase A) : p.open.length ≤ 1 := by
  cases h : p.held <;> simp [Phase.open, h]

/-- What comes of all the candidates. -/
def AllTried (mode : Mode) (opts : Nat) (c : Option (AddrInfo A)) (l : List (AddrInfo A))
    (sd : Int) (st : St W A) (p : Phase A) : Prop :=
  sd = -1 ∧ st.cur = c ∧ p = ⟨[], none⟩ ∨
    ∃ pre ap post, ∃ s : Nat, l = pre ++ ap :: post ∧ sd = s ∧ st.cur = some ap ∧
      p = ⟨candidates post, some (ready mode opts ap s)⟩

theorem AllTried.cons {l : List (AddrInfo A)} {sd : Int} {p : Phase A}
    (h : AllTried mode opts c l sd st p) : AllTried mode opts c (ap :: l) sd st p := by
  obtain h | ⟨pre, ap', post, s, rfl, hrest⟩ := h
  · exact .inl h
  · exact .inr ⟨ap :: pre, ap', post, s, rfl, hrest⟩

theorem candidates_cons_none (h : ap.addr = none) (l : List (AddrInfo A)) :
    candidates (ap :: l) = candidates l := by
  simp [candidates, h]

theorem candidates_cons_some (h : ap.addr = some a) (l : List (AddrInfo A)) :
    candidates (ap :: l) = ap :: candidates l := by
  simp [candidates, h]

end

section

variable {W A : Type} [DecidableEq A] {os : Os W A} {opts : Nat} {c : Option (AddrInfo A)}
  {ap : AddrInfo A} {a : A} {rest : List (AddrInfo A)} {st : St W A} {mode : Mode}

/-- What comes of a candidate: nothing that is open, or a socket that is ready. -/
def Tried (mode : Mode) (opts : Nat) (c : Option (AddrInfo A)) (ap : AddrInfo A)
    (rest : List (AddrInfo A)) (sd : Int) (st : St W A) (p : Phase A) : Prop :=
  st.cur = c ∧ (sd = -1 ∧ p = ⟨rest, none⟩ ∨
    ∃ s : Nat, sd = s ∧ p = ⟨rest, some (ready mode opts ap s)⟩)

/-- A socket is made, or not, for the candidate whose turn it is. -/
theorem uSocket_typed (hst : st.cur = c) :
    Trial opts ⟨ap :: rest, none⟩ st (uSocket os ap.family (sockType opts ap) ap.protocol)
      (fun r st p => st.cur = c ∧ p = ⟨rest, r.map fun s => ⟨s, ap, [], .fresh⟩⟩) := by
  refine Typed.bind (Q := fun r st p => st.cur = c ∧ p = ⟨rest, match r with
    | .ok s => some ⟨s, ap, [], .fresh⟩
    | .error _ => none⟩) (typed_call (by simp [trialNext]) ⟨hst, rfl⟩) ?_
  rintro (e | s) st p ⟨hst, rfl⟩
  · exact typed_pure ⟨hst, rfl⟩
  · exact typed_pure ⟨hst, rfl⟩

/-- The socket, with an option more on a condition. -/
def Held.addIf (b : Bool) (o : SockOpt) (h : Held A) : Held A :=
  { h with options := h.options ++ if b then [o] else [] }

/-- `setsockopt` on a condition. -/
theorem addIf_typed {h : Held A} (hst : st.cur = c) (hh : h.stage = .fresh) (b : Bool)
    (o : SockOpt) :
    Trial opts ⟨rest, some h⟩ st (onlyIf b (uSetsockopt os h.fd o))
      (Done c rest (h.addIf b o)) := by
  refine (onlyIf_typed hst fun _ => uSetsockopt_typed hst hh o).weaken fun r st p hp => ?_
  cases b with
  | false => simpa [Held.addIf] using hp
  | true => exact hp

/-- The last step of a row. -/
theorem allOf_singleton_typed {w : Sock W A Bool} {p : Phase A} {h' : Held A}
    (hw : Trial opts p st w (Done c rest h')) : Trial opts p st (allOf [w]) (Done c rest h') :=
  allOf_cons_typed hw rfl fun _ hst => typed_pure (done_true hst)

theorem orClose_tried {w : Sock W A Bool} {p : Phase A} {s : Nat}
    (hw : Trial opts p st w (Done c rest (ready mode opts ap s))) :
    Trial opts p st (orClose os s w) (Tried mode opts c ap rest) :=
  (orClose_typed hw).weaken fun _ _ _ h => ⟨h.1, h.2.imp_right fun h => ⟨s, h⟩⟩

/-- No descriptor, nothing to close. -/
theorem noSocket_tried (hst : st.cur = c) :
    Trial opts ⟨rest, none⟩ st (do
      uClose os none
      pure (-1)) (Tried mode opts c ap rest) :=
  Typed.bind (Q := fun _ st p => st.cur = c ∧ p = ⟨rest, none⟩) (typed_pure ⟨hst, rfl⟩)
    fun _ _ _ hp => typed_pure ⟨hp.1, .inl ⟨rfl, hp.2⟩⟩

theorem doCsock_typed (hst : st.cur = c) (ha : ap.addr = some a) (fuel : Nat) :
    Trial opts ⟨ap :: rest, none⟩ st
      (doCsock os fuel ap.addr ap.addrlen ap.family (sockType opts ap) ap.protocol opts 0)
      (Tried .csock opts c ap rest) := by
  simp only [doCsock, ha]
  refine Typed.bind (uSocket_typed hst) ?_
  rintro (_ | s) st p ⟨hst, rfl⟩
  · exact noSocket_tried hst
  let h₀ : Held A := ⟨s, ap, [], .fresh⟩
  let h₁ := h₀.addIf (sockType opts ap = .dgram && opts.testBit optDgramBroadcast) .broadcast
  let h₂ := h₁.addIf (opts.testBit optSctpOneToMany)
    (.sctpEvents ((List.range' 3 9).map fun i => opts.testBit i))
  have hready : (if (!opts.testBit optDontConnect) = true then { h₂ with stage := .connected }
      else h₂) = ready .csock opts ap s := by
    cases hd : opts.testBit optDontConnect <;>
      simp [h₂, h₁, h₀, Held.addIf, ready, wantedOptions, wantedStage, hd]
  have hconnect : ∀ st : St W A, st.cur = c → Trial opts ⟨rest, some h₂⟩ st (do
      let rc ← uConnectEx os fuel s (some a) ap.addrlen
      pure (decide (0 ≤ rc))) (Done c rest { h₂ with stage := .connected }) := fun st hst =>
    Typed.bind (Q := fun rc => Done c rest { h₂ with stage := .connected } (decide (0 ≤ rc)))
      (uConnectEx_typed (h := h₂) hst rfl ha fuel) fun rc st p hp => typed_pure hp
  refine orClose_tried ?_
  refine allOf_cons_typed (addIf_typed (h := h₀) hst rfl _ _) rfl fun st hst => ?_
  refine allOf_cons_typed (addIf_typed (h := h₁) hst rfl _ _) rfl fun st hst => ?_
  rw [← hready]
  exact allOf_singleton_typed (onlyIf_typed hst fun _ => hconnect st hst)

theorem doSsock_typed (hst : st.cur = c) (ha : ap.addr = some a) :
    Trial opts ⟨ap :: rest, none⟩ st
      (doSsock os ap.addr ap.addrlen ap.family (sockType opts ap) ap.protocol opts backlogSz)
      (Tried .ssock opts c ap rest) := by
  simp only [doSsock, ha]
  refine Typed.bind (uSocket_typed hst) ?_
  rintro (_ | s) st p ⟨hst, rfl⟩
  · exact noSocket_tried hst
  let h₀ : Held A := ⟨s, ap, [], .fresh⟩
  let h₁ := h₀.addIf (ap.family ≠ .unix && !opts.testBit optDontReuseAddr) .reuseAddr
  let h₂ := h₁.addIf (opts.testBit optSctpOneToMany)
    (.sctpEvents ((List.range' 3 9).map fun i => opts.testBit i))
  let h₃ : Held A := { h₂ with stage := .bound }
  have hready : (if decide (sockType opts ap = .stream) || decide (sockType opts ap = .seqpacket)
      then { h₃ with stage := .listening } else h₃) = ready .ssock opts ap s := by
    cases ht : sockType opts ap <;>
      simp [h₃, h₂, h₁, h₀, Held.addIf, ready, wantedOptions, wantedStage, ht]
  refine orClose_tried ?_
  refine allOf_cons_typed (addIf_typed (h := h₀) hst rfl _ _) rfl fun st hst => ?_
  refine allOf_cons_typed (addIf_typed (h := h₁) hst rfl _ _) rfl fun st hst => ?_
  refine allOf_cons_typed (uBind_typed (h := h₂) hst rfl ha) rfl fun st hst => ?_
  rw [← hready]
  refine allOf_singleton_typed (onlyIf_typed hst fun ht => uListen_typed (h := h₃) hst rfl ?_)
  intro hdgram
  simp [show sockType opts ap = .dgram from hdgram] at ht

/-- The horse for a mode. -/
structure Pulls (wf : Horse W A) (mode : Mode) (opts backlog : Nat) : Prop where
  noAddr : ∀ len domain type protocol, wf none len domain type protocol opts backlog = pure (-1)
  turn : ∀ (ap : AddrInfo A) (a : A) (rest : List (AddrInfo A)) (c : Option (AddrInfo A))
    (st : St W A), st.cur = c → ap.addr = some a → Trial opts ⟨ap :: rest, none⟩ st
      (wf ap.addr ap.addrlen ap.family (sockType opts ap) ap.protocol opts backlog)
      (Tried mode opts c ap rest)

theorem sockLoop_typed {wf : Horse W A} {backlog : Nat} (hwf : Pulls wf mode opts backlog) :
    ∀ (l : List (AddrInfo A)) (st : St W A), st.cur = c →
      Trial opts ⟨candidates l, none⟩ st (sockLoop wf opts backlog (-1) l) (AllTried mode opts c l)
  | [], _, hst => typed_pure (.inl ⟨rfl, hst, rfl⟩)
  | ap :: l, st, hst => by
    have hloop : ∀ st : St W A, st.cur = c → Trial opts ⟨candidates l, none⟩ st
        (sockLoop wf opts backlog (-1) l) (AllTried mode opts c (ap :: l)) := fun st hst =>
      (sockLoop_typed hwf l st hst).weaken fun _ _ _ h => h.cons
    simp only [sockLoop]
    cases ha : ap.addr with
    | none =>
      rw [candidates_cons_none ha, hwf.noAddr]
      exact Typed.bind (Q := fun sd st p => sd = -1 ∧ st.cur = c ∧ p = ⟨candidates l, none⟩)
        (typed_pure ⟨rfl, hst, rfl⟩) fun _ st _ ⟨hsd, hst, hp⟩ => by
          subst hsd hp
          exact hloop st hst
    | some a =>
      rw [candidates_cons_some ha, ← ha]
      refine Typed.bind (hwf.turn ap a (candidates l) c st hst ha) ?_
      rintro _ st _ ⟨hst, ⟨rfl, rfl⟩ | ⟨s, rfl, rfl⟩⟩
      · exact hloop st hst
      · have hs : (0 : Int) ≤ s := by omega
        simp only [hs, if_true]
        refine Typed.bind (Q := fun _ st p => st.cur = some ap ∧
          p = ⟨candidates l, some (ready mode opts ap s)⟩) (typed_modify ⟨rfl, rfl⟩) ?_
        rintro _ st _ ⟨hcur, rfl⟩
        exact typed_pure (.inr ⟨[], ap, l, s, rfl, rfl, hcur, rfl⟩)

/-- The calls keep to the protocol, and end with a socket that is ready, or with none. -/
theorem uNetSdByAddrEx_typed (os : Os W A) (fuel : Nat) (na : NetAddr A) (st : St W A) :
    Typed (trialNext na.opts) ⟨candidates na.addr, none⟩ st (uNetSdByAddrEx os fuel na)
      (AllTried na.mode na.opts st.cur na.addr) fun _ _ => True := by
  have hdo : ∀ {wf : Horse W A} {backlog : Nat}, Pulls wf na.mode na.opts backlog →
      Trial na.opts ⟨candidates na.addr, none⟩ st (doSock wf na backlog)
        (AllTried na.mode na.opts st.cur na.addr) := by
    intro wf backlog hwf
    unfold doSock
    split
    · next hnil =>
      rw [hnil]
      exact typed_pure (.inl ⟨rfl, rfl, rfl⟩)
    · exact sockLoop_typed hwf na.addr st rfl
  unfold uNetSdByAddrEx
  cases hmode : na.mode with
  | ssock =>
    rw [hmode] at hdo
    exact hdo ⟨fun _ _ _ _ => rfl, fun _ _ _ _ _ hst ha => doSsock_typed hst ha⟩
  | csock =>
    rw [hmode] at hdo
    exact hdo ⟨fun _ _ _ _ => rfl, fun _ _ _ _ _ hst ha => doCsock_typed hst ha fuel⟩

theorem openAfter_next {p q : Phase A} {e : Ev A} (h : trialNext opts p e = some q) :
    openAfter p.open e = q.open := by
  obtain ⟨l, held⟩ := p
  cases e with
  | gettimeofday r =>
    obtain rfl : (⟨l, held⟩ : Phase A) = q := by simpa [trialNext] using h
    rfl
  | socket domain type protocol r =>
    cases held with
    | some h₀ => simp [trialNext] at h
    | none =>
      cases l with
      | nil => simp [trialNext] at h
      | cons ap l =>
        simp only [trialNext, Option.ite_none_right_eq_some, Option.some.injEq] at h
        obtain ⟨-, rfl⟩ := h
        cases r <;> rfl
  | on s op =>
    cases held with
    | none => simp [trialNext] at h
    | some h₀ =>
      simp only [trialNext, Option.ite_none_right_eq_some, Option.map_eq_some_iff] at h
      obtain ⟨rfl, held', hnext, rfl⟩ := h
      cases op with
      | close r =>
        obtain rfl : none = held' := by
          simpa using (Option.ite_none_right_eq_some.mp hnext).2
        simp [openAfter, Phase.open]
      | getfl r => cases hnext; rfl
      | setfl flags r => cases hnext; rfl
      | setsockopt o r | bind a len r | listen backlog r =>
        obtain ⟨-, h'⟩ := Option.ite_none_right_eq_some.mp hnext
        cases h'
        cases r <;> rfl
      | connect a len r | select timeout r | soError r =>
        obtain ⟨-, h'⟩ := Option.ite_none_right_eq_some.mp hnext
        cases h'
        rfl

/-- What the log leaves open is what is held. -/
theorem open_of_follows {p q : Phase A} {es : List (Ev A)}
    (h : Follows (trialNext opts) p es q) : es.foldl openAfter p.open = q.open := by
  induction es generalizing p with
  | nil => rw [follows_nil_iff.mp h, List.foldl_nil]
  | cons e es ih =>
    obtain ⟨p', he, h⟩ := follows_cons.mp h
    rw [List.foldl_cons, openAfter_next he, ih h]

/-- **Whichever system calls fail, no descriptor is lost.**  The calls keep to the protocol: the
candidates are tried in their order, one descriptor is open at a time, and what fails is closed.
What is handed out is a socket that is ready for its candidate, and `cur` is that candidate; it is
the first one that worked, since none before it is left.  At the end, that socket is all that is
open; at -1 no candidate is left, and nothing is open. -/
theorem uNetSdByAddrEx_safe (os : Os W A) (fuel : Nat) (na : NetAddr A) (st : St W A) :
    Typed (trialNext na.opts) ⟨candidates na.addr, none⟩ st (uNetSdByAddrEx os fuel na)
      (AllTried na.mode na.opts st.cur na.addr) (fun _ _ => True) ∧
    (∀ st' sd, (uNetSdByAddrEx os fuel na st).2 = .ok (st', sd) →
      (uNetSdByAddrEx os fuel na st).1.foldl openAfter [] =
        if sd = -1 then [] else [sd.toNat]) ∧
    ∀ es es', (uNetSdByAddrEx os fuel na st).1 = es ++ es' →
      (es.foldl openAfter []).length ≤ 1 := by
  have htyped := uNetSdByAddrEx_typed os fuel na st
  have hnil : ([] : List Nat) = Phase.open ⟨candidates na.addr, none⟩ := rfl
  refine ⟨htyped, fun st' sd hrun => ?_, fun es es' hlog => ?_⟩
  · obtain ⟨q, hq, hend⟩ := htyped.ok st' sd hrun
    rw [hnil, open_of_follows hq]
    obtain ⟨rfl, -, rfl⟩ | ⟨pre, ap, post, s, -, rfl, -, rfl⟩ := hend
    · rfl
    · have hs : (s : Int) ≠ -1 := by omega
      simp [Phase.open, ready, hs]
  · obtain ⟨q, hq⟩ := htyped.follows
    rw [hlog] at hq
    obtain ⟨p, hp, -⟩ := follows_append.mp hq
    rw [hnil, open_of_follows hp]
    exact open_length_le p

/-- The same of the whole way, from a URI. -/
theorem uNetSdEx_open (os : Os W A) (resolve : Resolver → Option (List (AddrInfo A))) (fuel : Nat)
    (uri : List Char) (mode : Mode) (opts : Nat) (st : St W A) :
    ∀ st' sd, (uNetSdEx os resolve fuel uri mode opts st).2 = .ok (st', sd) →
      (uNetSdEx os resolve fuel uri mode opts st).1.foldl openAfter [] =
        if sd = -1 then [] else [sd.toNat] := by
  unfold uNetSdEx
  cases (uNetUri2addr uri mode).bind resolve with
  | none =>
    intro st' sd hrun
    obtain ⟨-, rfl⟩ : st = st' ∧ -1 = sd := by simpa using hrun
    rfl
  | some addr => exact (uNetSdByAddrEx_safe os fuel ⟨opts, mode, addr⟩ st).2.1

end

end Libu.Net
