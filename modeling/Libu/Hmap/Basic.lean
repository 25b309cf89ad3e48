/-
# The hash map of `toolbox/hmap.c`

A `u_hmap_t` is an array of buckets, each a list of objects, and a policy queue whose entries
point to objects.  Both table types, all discard policies, both overwrite modes and both
ownership modes are modelled, with the automatic resize inside `u_hmap_put`.

* Objects and queue entries have addresses (`ptr`).  What never changes in an object is its `Ho`;
  the one field that does, the pointer to its queue entry, is kept with the object in its bucket.
* A pointer into a bucket list is a `Loc`: the object with what its links reach on both sides.
* `brk` and `freed` are the heap: the next unused address (no address is used twice) and the
  objects released by `__o_free`.  `avail` says, for each address, whether there is memory for the
  queue entry that would get it.
* Keys and values are what the callbacks see.  `u_hmap_o_new` copies or keeps the caller's
  pointers depending on options that nothing else looks at.
* An operation that goes through a NULL or dangling pointer, indexes past the bucket array or
  overflows a signed counter has no result (`none`).
* Any allocation inside a call may fail: those of a resize as the call says (`Mem`), those of the
  policy queue as the heap says (`avail`).
-/
import Libu.Verif.Mem
import Mathlib.Logic.Function.Basic

namespace Libu

open Verif

/-! ## 1. Objects, options, maps -/

/-- `u_hmap_type_t`. -/
inductive Hmap.Typ where
  | chain
  | linear
deriving DecidableEq

/-- `u_hmap_pcy_type_t`. -/
inductive Hmap.Pcy where
  | none
  | fifo
  | lru
  | lfu
  | custom
deriving DecidableEq

/-- `u_hmap_ret_t`. -/
inductive Hmap.Ret where
  | errNone
  | errExists
  | errFail
deriving DecidableEq

/-- `u_hmap_o_t`, less its queue pointer: what is fixed when the object is created. -/
structure Hmap.Ho (κ β : Type) where
  ptr : Nat
  key : κ
  val : β
deriving DecidableEq

/-- `u_hmap_o_t` with `pqe`, its pointer into the policy queue. -/
structure Hmap.Obj (κ β : Type) extends Hmap.Ho κ β where
  pqe : Option Nat
deriving DecidableEq

/-- `u_hmap_q_t`; `data` is the use count that the LFU policy keeps, and unused elsewhere.  An entry
is `bare` when that policy has found no memory for its count, and `data` is NULL. -/
structure Hmap.QEntry (κ β : Type) where
  ptr : Nat
  ho : Hmap.Ho κ β
  data : Int
  bare : Bool
deriving DecidableEq

/-- The memory that a new queue entry finds: all that it needs, none for the entry itself, or none
for its use count. -/
inductive Hmap.QMem where
  | ok
  | noEntry
  | noData
deriving DecidableEq

/-- `u_hmap_opts_t`.  `defaultHash` says that `f_hash` is `__f_hash`; the free functions and the
data types only matter to what is released inside an object. -/
structure Hmap.Opts (κ β : Type) where
  size : Nat
  max : Nat
  type : Hmap.Typ
  policy : Hmap.Pcy
  ownsData : Bool
  noOverwrite : Bool
  hashStrong : Bool
  fHash : κ → Nat → Nat
  defaultHash : Bool
  fComp : κ → κ → Int
  fPcyCmp : Option (β → β → Int)

/-- `u_hmap_t`, with the heap. -/
structure Hmap (κ β : Type) where
  opts : Hmap.Opts κ β
  sz : Nat
  size : Nat
  threshold : Nat
  px : Nat
  buckets : Nat → List (Hmap.Obj κ β)
  queue : List (Hmap.QEntry κ β)
  brk : Nat
  freed : List (Hmap.Ho κ β)
  avail : Nat → Hmap.QMem

namespace Hmap

variable {κ β : Type}

/-- A pointer to an object in a bucket list. -/
structure Loc (κ β : Type) where
  idx : Nat
  before : List (Obj κ β)
  obj : Obj κ β
  after : List (Obj κ β)

/-- What a call hands back: its return code, and the object it stores through its last argument
(`*old`, `*obj`), if any. -/
structure Res (κ β : Type) where
  ret : Ret
  obj : Option (Ho κ β)
deriving DecidableEq

/-- The list of a bucket, replaced. -/
def setBucket (m : Hmap κ β) (i : Nat) (l : List (Obj κ β)) : Hmap κ β :=
  { m with buckets := Function.update m.buckets i l }

/-- `o->pqe = pqe` for the object at address `ptr`. -/
def setPqe (m : Hmap κ β) (ptr : Nat) (pqe : Option Nat) : Hmap κ β :=
  { m with
    buckets := fun i => (m.buckets i).map fun o => if o.ptr = ptr then { o with pqe } else o }

/-- `__o_free`. -/
def oFree (m : Hmap κ β) (ho : Ho κ β) : Hmap κ β := { m with freed := ho :: m.freed }

/-- The memory of an object may be read. -/
def alive (m : Hmap κ β) (ho : Ho κ β) : Bool := ho.ptr ∉ m.freed.map Ho.ptr

/-- Who gets an object that has left the map: the heap, or the caller. -/
def dispose (m : Hmap κ β) (ho : Ho κ β) : Option (Ho κ β) × Hmap κ β :=
  if m.opts.ownsData then (none, m.oFree ho) else (some ho, m)

/-- `u_hmap_o_new`. -/
def oNew (m : Hmap κ β) (key : κ) (val : β) : Obj κ β × Hmap κ β :=
  (⟨⟨m.brk, key, val⟩, none⟩, { m with brk := m.brk + 1 })

/-! ## 2. Hashing -/

/-- `__f_hash`. -/
def fHashDefault (k : List UInt8) (size : Nat) : Nat :=
  let h : UInt64 := k.foldl (fun h c =>
    let h := h + c.toUInt64
    let h := h + (h <<< 10)
    h ^^^ (h >>> 6)) 0
  let h := h + (h <<< 3)
  let h := h ^^^ (h >>> 11)
  (h + (h <<< 15)).toNat % size

/-- The digits that `u_snprintf (h, MAX_INT, "%u", hash)` writes: those of the low 32 bits. -/
def decimal (hash : Nat) : List UInt8 :=
  (Nat.toDigits 10 (hash % 2 ^ 32)).map fun c => c.toNat.toUInt8

/-- The bucket of a key: a custom hash that is not declared strong is hashed once more. -/
def hashOf (m : Hmap κ β) (key : κ) : Nat :=
  let hash := m.opts.fHash key m.size
  if m.opts.defaultHash || m.opts.hashStrong then hash else fHashDefault (decimal hash) m.size

/-! ## 3. Lookup -/

/-- The walk of `__get` along a bucket list, which is ordered. -/
def chainGet (comp : κ → κ → Int) (key : κ) (i : Nat) :
    List (Obj κ β) → List (Obj κ β) → Option (Loc κ β)
  | _, [] => none
  | before, obj :: after =>
    let c := comp key obj.key
    if c = 0 then some ⟨i, before, obj, after⟩
    else if c < 0 then none
    else chainGet comp key i (before ++ [obj]) after

/-- The probe of `__get`, at most `fuel` slots long: it passes empty slots and stops before the
slot `last`. -/
def linearGet (m : Hmap κ β) (key : κ) (last : Nat) : Nat → Nat → Option (Loc κ β)
  | 0, _ => none
  | fuel + 1, hash =>
    if hash = last then none
    else
      match m.buckets hash with
      | [] => linearGet m key last fuel ((hash + 1) % m.size)
      | obj :: after =>
        if m.opts.fComp key obj.key = 0 then some ⟨hash, [], obj, after⟩
        else linearGet m key last fuel ((hash + 1) % m.size)

/-- `__get`; the inner `none` is its failure. -/
def find (m : Hmap κ β) (key : κ) : Option (Option (Loc κ β)) :=
  let hash := m.hashOf key
  if m.size ≤ hash then none
  else
    match m.opts.type with
    | .chain => some (chainGet m.opts.fComp key hash [] (m.buckets hash))
    | .linear => some (linearGet m key ((hash + m.size - 1) % m.size) m.size hash)

/-! ## 4. The policy queue -/

/-- `pcy.ops & U_HMAP_PCY_OP_PUT`, as `__pcy_setup` sets it. -/
def opPut : Pcy → Bool
  | .none => false
  | _ => true

/-- `pcy.ops & U_HMAP_PCY_OP_GET`. -/
def opGet : Pcy → Bool
  | .lru | .lfu => true
  | _ => false

/-- `__q_o_new`, which returns NULL if there is no memory. -/
def qONew (m : Hmap κ β) (ho : Ho κ β) : Option (QEntry κ β) × Hmap κ β :=
  (if m.avail m.brk = .noEntry then none else some ⟨m.brk, ho, 0, false⟩,
    { m with brk := m.brk + 1 })

/-- The queue around the entry at address `p`, if there is one. -/
def splitQueue (p : Nat) : List (QEntry κ β) → Option (List (QEntry κ β) × QEntry κ β ×
    List (QEntry κ β))
  | [] => none
  | e :: q =>
    if e.ptr = p then some ([], e, q)
    else (splitQueue p q).map fun (q₁, e', q₂) => (e :: q₁, e', q₂)

/-- `__queue_push`, with the value `*data` has afterwards. -/
def queuePush (m : Hmap κ β) (ho : Ho κ β) : Option Nat → Option (Ret × Option Nat × Hmap κ β)
  | none =>
    match m.qONew ho with
    | (none, m) => some (.errFail, none, m)
    | (some new, m) => some (.errNone, some new.ptr, { m with queue := new :: m.queue })
  | some p => do
    let (q₁, e, q₂) ← splitQueue p m.queue
    some (.errNone, some p, { m with queue := e :: (q₁ ++ q₂) })

/-- The walk of `__queue_push_count`: the entries that are used at most `count` times, and those
behind them.  A count that is NULL cannot be read. -/
def countWalk (count : Int) : List (QEntry κ β) → Option (List (QEntry κ β) × List (QEntry κ β))
  | [] => some ([], [])
  | e :: q =>
    if e.bare then none
    else if e.data ≤ count then (countWalk count q).map fun (q₁, q₂) => (e :: q₁, q₂)
    else some ([], e :: q)

/-- `__queue_push_count`. -/
def queuePushCount (m : Hmap κ β) (ho : Ho κ β) :
    Option Nat → Option (Ret × Option Nat × Hmap κ β)
  | none =>
    match m.qONew ho with
    | (none, m) => some (.errFail, none, m)
    | (some new, m) =>
      -- the entry is in the queue before its count is allocated
      if m.avail new.ptr = .noData then
        some (.errFail, none, { m with queue := { new with bare := true } :: m.queue })
      else some (.errNone, some new.ptr, { m with queue := new :: m.queue })
  | some p => do
    let (q₁, e, q₂) ← splitQueue p m.queue
    -- a count that is NULL, or `int` overflow
    if e.bare ∨ 2 ^ 31 - 1 ≤ e.data then none
    else
      let count := e.data + 1
      let (low, high) ← countWalk count q₂
      some (.errNone, some p, { m with queue := q₁ ++ low ++ { e with data := count } :: high })

/-- The walk of `__queue_push_cmp`: `new` goes before the first entry whose object does not have
a higher priority. -/
def insertCmp (m : Hmap κ β) (cmp : β → β → Int) (new : QEntry κ β) :
    List (QEntry κ β) → Option (List (QEntry κ β))
  | [] => some [new]
  | e :: q =>
    if !m.alive e.ho then none
    else if 0 ≤ cmp new.ho.val e.ho.val then some (new :: e :: q)
    else (insertCmp m cmp new q).map (e :: ·)

/-- `__queue_push_cmp`. -/
def queuePushCmp (m : Hmap κ β) (ho : Ho κ β) :
    Option Nat → Option (Ret × Option Nat × Hmap κ β)
  | some p => some (.errFail, some p, m)
  | none =>
    match m.qONew ho with
    | (none, m) => some (.errFail, none, m)
    | (some new, m) => do
      let cmp ← m.opts.fPcyCmp
      let queue ← insertCmp m cmp new m.queue
      some (.errNone, some new.ptr, { m with queue })

/-- `pcy.push (hmap, obj, &pqe)`. -/
def push (m : Hmap κ β) (ho : Ho κ β) (pqe : Option Nat) :
    Option (Ret × Option Nat × Hmap κ β) :=
  if !m.alive ho then none
  else
    match m.opts.policy with
    | .none => none
    | .fifo | .lru => queuePush m ho pqe
    | .lfu => queuePushCount m ho pqe
    | .custom => queuePushCmp m ho pqe

/-- `__queue_del`, less the store of NULL into the object (see `oOverwrite`). -/
def queueDel (m : Hmap κ β) (obj : Obj κ β) : Option (Hmap κ β) := do
  let p ← obj.pqe
  let (q₁, _, q₂) ← splitQueue p m.queue
  some { m with queue := q₁ ++ q₂ }

/-! ## 5. Deletion and eviction -/

/-- `u_hmap_del`. -/
def del (m : Hmap κ β) (key : κ) : Option (Res κ β × Hmap κ β) := do
  match ← m.find key with
  | none => some (⟨.errFail, none⟩, m)
  | some l =>
    let (out, m) := (m.setBucket l.idx (l.before ++ l.after)).dispose l.obj.toHo
    some (⟨.errNone, out⟩, { m with sz := SizeT.sub m.sz 1 })

/-- The common part of `__queue_pop_front` and `__queue_pop_back`: the object of the entry `e` is
deleted by its key, then the entry is removed, which leaves the queue `q`. -/
def popEntry (m : Hmap κ β) (e : QEntry κ β) (q : List (QEntry κ β)) :
    Option (Res κ β × Hmap κ β) := do
  if !m.alive e.ho then none
  else
    let (res, m) ← m.del e.ho.key
    if res.ret = .errNone then some (res, { m with queue := q }) else some (⟨.errFail, res.obj⟩, m)

/-- `__queue_pop_front`. -/
def queuePopFront (m : Hmap κ β) : Option (Res κ β × Hmap κ β) :=
  match m.queue with
  | [] => some (⟨.errFail, none⟩, m)
  | e :: q => popEntry m e q

/-- `__queue_pop_back`. -/
def queuePopBack (m : Hmap κ β) : Option (Res κ β × Hmap κ β) :=
  match m.queue.getLast? with
  | none => some (⟨.errFail, none⟩, m)
  | some e => popEntry m e m.queue.dropLast

/-- `pcy.pop (hmap, obj)`. -/
def pop (m : Hmap κ β) : Option (Res κ β × Hmap κ β) :=
  match m.opts.policy with
  | .none => none
  | .fifo | .lru | .custom => queuePopBack m
  | .lfu => queuePopFront m

/-! ## 6. Insertion -/

/-- Where a put finds its place: at an object with an equal key, between two parts of a bucket
list, or nowhere. -/
inductive Place (κ β : Type) where
  | found (l : Loc κ β)
  | room (i : Nat) (before after : List (Obj κ β))
  | full

/-- The walk of `u_hmap_put` along a bucket list. -/
def chainScan (comp : κ → κ → Int) (key : κ) (i : Nat) :
    List (Obj κ β) → List (Obj κ β) → Place κ β
  | before, [] => .room i before []
  | before, o :: after =>
    let c := comp key o.key
    if c = 0 then .found ⟨i, before, o, after⟩
    else if c < 0 then .room i before (o :: after)
    else chainScan comp key i (before ++ [o]) after

/-- The probe of `u_hmap_put`, at most `fuel` slots long: the first empty slot is taken. -/
def linearScan (m : Hmap κ β) (key : κ) (last : Nat) : Nat → Nat → Place κ β
  | 0, _ => .full
  | fuel + 1, hash =>
    if hash = last then .full
    else
      match m.buckets hash with
      | [] => .room hash [] []
      | o :: after =>
        if m.opts.fComp o.key key = 0 then .found ⟨hash, [], o, after⟩
        else linearScan m key last fuel ((hash + 1) % m.size)

/-- The place of a key. -/
def scan (m : Hmap κ β) (key : κ) : Option (Place κ β) :=
  let hash := m.hashOf key
  if m.size ≤ hash then none
  else
    match m.opts.type with
    | .chain => some (chainScan m.opts.fComp key hash [] (m.buckets hash))
    | .linear => some (linearScan m key ((hash + m.size - 1) % m.size) m.size hash)

/-- `__o_overwrite`: the object at `l` meets the new object `obj`, which has an equal key. -/
def oOverwrite (m : Hmap κ β) (l : Loc κ β) (obj : Obj κ β) : Option (Res κ β × Hmap κ β) :=
  if m.opts.noOverwrite then
    if m.opts.ownsData then some (⟨.errExists, none⟩, m.oFree obj.toHo)
    else some (⟨.errExists, some l.obj.toHo⟩, m)
  else do
    let (ret, pqe, m) ←
      if opPut m.opts.policy then do
        let m ← m.queueDel l.obj
        m.push obj.toHo obj.pqe
      else some (.errNone, obj.pqe, m)
    if ret ≠ .errNone then
      -- the old object stays, and has lost its entry
      some (⟨.errFail, none⟩,
        m.setBucket l.idx (l.before ++ { l.obj with pqe := none } :: l.after))
    else
      let (out, m) :=
        (m.setBucket l.idx (l.before ++ { obj with pqe } :: l.after)).dispose l.obj.toHo
      some (⟨.errNone, out⟩, m)

/-- The very end of `u_hmap_put`: queue the object, count it.  `old` is what an eviction has handed
out. -/
def putCount (m : Hmap κ β) (obj : Obj κ β) (old : Option (Ho κ β)) :
    Option (Res κ β × Hmap κ β) := do
  let (ret, pqe, m) ←
    if opPut m.opts.policy then m.push obj.toHo obj.pqe else some (.errNone, obj.pqe, m)
  if ret ≠ .errNone then some (⟨.errFail, old⟩, m)
  else
    let m := m.setPqe obj.ptr pqe
    some (⟨.errNone, old⟩, { m with sz := SizeT.add m.sz 1 })

/-- The end of `u_hmap_put`, once the object `obj` has been linked: make room by the policy, then
queue and count the object. -/
def putEnd (m : Hmap κ β) (obj : Obj κ β) : Option (Res κ β × Hmap κ β) := do
  let (res, m) ←
    if m.opts.max ≤ m.sz ∧ m.opts.policy ≠ .none then m.pop else some (⟨.errNone, none⟩, m)
  if res.ret ≠ .errNone then some (⟨.errFail, res.obj⟩, m) else m.putCount obj res.obj

/-- `u_hmap_put` after a possible resize: the walk to a place for `obj`, and what is done there. -/
def putPlace (m : Hmap κ β) (obj : Obj κ β) : Option (Res κ β × Hmap κ β) := do
  match ← m.scan obj.key with
  | .found l => m.oOverwrite l obj
  | .full => some (⟨.errFail, none⟩, m)
  | .room i before after => (m.setBucket i (before ++ obj :: after)).putEnd obj

/-- `u_hmap_put`, given what `__resize` does; the flag is its success. -/
def putWith (resize : Hmap κ β → Option (Bool × Hmap κ β)) (m : Hmap κ β) (obj : Obj κ β) :
    Option (Res κ β × Hmap κ β) := do
  let (ok, m) ←
    if m.threshold ≤ m.sz ∧ m.opts.policy = .none then resize m else some (true, m)
  if !ok then some (⟨.errFail, none⟩, m) else m.putPlace obj

/-! ## 7. Creation and resizing -/

/-- The table of `__next_prime`. -/
def primes : List Nat :=
  [13, 19, 29, 41, 59, 79, 107, 149, 197, 263, 347, 457, 599, 787, 1031,
    1361, 1777, 2333, 3037, 3967, 5167, 6719, 8737, 11369, 14783, 19219,
    24989, 32491, 42257, 54941, 71429, 92861, 120721, 156941, 204047,
    265271, 344857, 448321, 582821, 757693, 985003, 1280519, 1664681,
    2164111, 2813353, 3657361, 4754591, 6180989, 8035301, 10445899,
    13579681, 17653589, 22949669, 29834603, 38784989, 50420551, 65546729,
    85210757, 110774011, 144006217, 187208107, 243370577, 316381771,
    411296309, 534685237, 695090819, 903618083, 1174703521, 1527114613,
    1837299131, 2147483647]

/-- `__next_prime`: the first table entry from index `idx` on that is at least `sz`, with its
index. -/
def nextPrime (sz idx : Nat) : Option (Nat × Nat) :=
  if sz = 0 then none else (primes.zipIdx.drop idx).find? fun p => sz ≤ p.1

/-- `__opts_check`, less the checks on callbacks that cannot be NULL here and on the easy
interface. -/
def optsCheck (opts : Opts κ β) : Bool :=
  opts.size ≠ 0 && opts.max ≠ 0 && (opts.policy ≠ .custom || opts.fPcyCmp.isSome)

/-- `u_hmap_new`, on the given heap. -/
def new (opts : Opts κ β) (brk : Nat) (freed : List (Ho κ β))
    (avail : Nat → QMem := fun _ => .ok) : Option (Hmap κ β) :=
  if !optsCheck opts then none
  else do
    let (size, px) ← nextPrime opts.size 0
    some { opts, sz := 0, size, threshold := 3 * size / 4, px, buckets := fun _ => [], queue := [],
           brk, freed, avail }

/-- Which allocation of a resize fails: none, the one of the new options, or one of the new
map. -/
inductive Mem where
  | ok
  | noOpts
  | noMap
deriving DecidableEq

/-- The inner loop of `u_hmap_copy`: the objects of bucket `i` go from the map `src` to the map
`dst`. -/
def copyBucket (put : Hmap κ β → Obj κ β → Option (Res κ β × Hmap κ β)) (i : Nat) :
    List (Obj κ β) → Hmap κ β → Hmap κ β → Option (Bool × Hmap κ β × Hmap κ β)
  | [], dst, src => some (true, dst, src)
  | obj :: rest, dst, src => do
    let src := src.setBucket i rest
    let (res, dst) ← put dst obj
    if res.ret ≠ .errNone then some (false, dst, src) else copyBucket put i rest dst src

/-- The outer loop of `u_hmap_copy`. -/
def copyBuckets (put : Hmap κ β → Obj κ β → Option (Res κ β × Hmap κ β)) :
    List Nat → Hmap κ β → Hmap κ β → Option (Bool × Hmap κ β × Hmap κ β)
  | [], dst, src => some (true, dst, src)
  | i :: is, dst, src => do
    let (ok, dst, src) ← copyBucket put i (src.buckets i) dst src
    if !ok then some (false, dst, src) else copyBuckets put is dst src

/-- `u_hmap_copy`. -/
def copy (put : Hmap κ β → Obj κ β → Option (Res κ β × Hmap κ β)) (dst src : Hmap κ β) :
    Option (Bool × Hmap κ β × Hmap κ β) :=
  copyBuckets put (List.range src.size) dst src

/-- `__resize`, given the `u_hmap_put` that its copy calls. -/
def resize (put : Hmap κ β → Obj κ β → Option (Res κ β × Hmap κ β)) (mem : Mem)
    (m : Hmap κ β) : Option (Bool × Hmap κ β) :=
  if m.opts.policy ≠ .none then some (true, m)
  else if mem = .noOpts then some (false, m)
  else
    match nextPrime (3 * m.opts.size % 2 ^ 64) m.px with
    | none => some (false, m)
    | some (size, px) =>
      let m := { m with px }
      if mem = .noMap then some (false, m)
      else
        match new { m.opts with size } m.brk m.freed m.avail with
        | none => some (false, m)
        | some newmap => do
          -- `options &= !U_HMAP_OPTS_OWNSDATA` clears all options of the old map
          let m := { m with
            opts := { m.opts with ownsData := false, noOverwrite := false, hashStrong := false } }
          let (ok, newmap, m) ← copy put newmap m
          some (if ok then (true, newmap)
            else (false, { m with brk := newmap.brk, freed := newmap.freed }))

/-- `u_hmap_put`, with resizes nested at most `depth` deep: the copy of a resize calls
`u_hmap_put` again. -/
def putAt (mem : Mem) : Nat → Hmap κ β → Obj κ β → Option (Res κ β × Hmap κ β)
  | 0 => putWith fun _ => none
  | depth + 1 => putWith (resize (putAt mem depth) mem)

/-- `u_hmap_put`.  The puts of a resize find room in the new map, so no resize nests in another
one. -/
def put (m : Hmap κ β) (obj : Obj κ β) (mem : Mem) : Option (Res κ β × Hmap κ β) :=
  putAt mem 1 m obj

/-! ## 8. The other calls -/

/-- `u_hmap_get`. -/
def get (m : Hmap κ β) (key : κ) : Option (Res κ β × Hmap κ β) := do
  match ← m.find key with
  | none => some (⟨.errFail, none⟩, m)
  | some l =>
    if opGet m.opts.policy then do
      let (ret, pqe, m) ← m.push l.obj.toHo l.obj.pqe
      let m := m.setBucket l.idx (l.before ++ { l.obj with pqe } :: l.after)
      some (⟨if ret = .errNone then .errNone else .errFail, some l.obj.toHo⟩, m)
    else some (⟨.errNone, some l.obj.toHo⟩, m)

/-- `u_hmap_clear`: the count is left as it is. -/
def clear (m : Hmap κ β) : Hmap κ β :=
  let objs := (List.range m.size).flatMap m.buckets
  { m with
    buckets := fun i => if i < m.size then [] else m.buckets i
    queue := []
    freed := if m.opts.ownsData then objs.reverse.map Obj.toHo ++ m.freed else m.freed }

/-- `u_hmap_count`. -/
def count (m : Hmap κ β) : Int := SizeT.toSigned m.sz

/-! ## 9. Operations -/

/-- A put of a new object, or a get. -/
inductive CacheOp (κ β : Type) where
  | put (key : κ) (val : β) (mem : Mem)
  | get (key : κ)

/-- A put, a get or a delete. -/
inductive MapOp (κ β : Type) where
  | cache (op : CacheOp κ β)
  | del (key : κ)

/-- Any call; `again` is the put of an object that the caller has had before. -/
inductive Op (κ β : Type) where
  | map (op : MapOp κ β)
  | clear
  | again (obj : Obj κ β) (mem : Mem)

def CacheOp.exec (m : Hmap κ β) : CacheOp κ β → Option (Res κ β × Hmap κ β)
  | .put key val mem =>
    let (obj, m) := m.oNew key val
    m.put obj mem
  | .get key => m.get key

def MapOp.exec (m : Hmap κ β) : MapOp κ β → Option (Res κ β × Hmap κ β)
  | .cache op => op.exec m
  | .del key => m.del key

def Op.exec (m : Hmap κ β) : Op κ β → Option (Res κ β × Hmap κ β)
  | .map op => op.exec m
  | .clear => some (⟨.errNone, none⟩, m.clear)
  | .again obj mem => m.put obj mem

end Hmap

end Libu
