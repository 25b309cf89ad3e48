/-
# Who releases a value that is refused

`u_hmap_easy_put` makes an object for the value and hands both to the map; its comment says that the
object is not freed there "because hmap owns it and will free it".  Of the ways in which the put can
fail, one frees the object: that where the key is known and may not be overwritten
(`U_HMAP_ERR_EXISTS`).

* §1: the call, with the memory that it gets.
* §2: what every step releases.
* §3: which puts fail, and what they have released then.
* §4: in a run, every put that does not return `U_HMAP_ERR_NONE` has released its object and its
  value, once, if and only if every put meets its condition (`easy_put_owner_iff`).
* §5: maps with the default options (`Easy.easyPut_heap`).
-/
import Libu.Hmap.Easy
import Libu.Hmap.Fail

namespace Libu.Hmap

open Verif
open scoped List

variable {κ β : Type} {m m' : Hmap κ β} {opts : Opts κ β} {n : Nat}

/-! ## 1. The call -/

/-- The memory that `u_hmap_easy_put` gets for its object and for a resize.  That for a queue entry
is in the map. -/
structure EasyMem where
  obj : Bool
  resize : Mem

/-- `u_hmap_easy_put`; a pointer that is NULL is `none`. -/
def easyPutMem (m : Hmap κ β) (key : Option κ) (val : Option β) (mem : EasyMem) :
    Option (Ret × Hmap κ β) := do
  match key, val with
  | some key, some val =>
    if !mem.obj then some (.errFail, m)
    else
      let (obj, m) := m.oNew key val
      let (res, m) ← m.put obj mem.resize
      some (res.ret, m)
  | _, _ => some (.errFail, m)

/-- All the memory that a call asks for. -/
def enough : EasyMem := ⟨true, .ok⟩

/-- With enough memory, the call is that of the map from strings to pointers. -/
theorem easyPutMem_enough (m : Hmap (List Char) β) (key : List Char) (val : β) :
    m.easyPutMem (some key) (some val) enough = m.easyPut key val := by
  rw [Hmap.easyPutMem, easyPut]
  dsimp only
  rw [if_neg (by decide)]
  rfl

/-- A call of the easy interface. -/
inductive EasyOp (κ β : Type) where
  | put (key : Option κ) (val : Option β) (mem : EasyMem)
  | get (key : κ)
  | del (key : κ)
  | clear

def EasyOp.exec (m : Hmap κ β) : EasyOp κ β → Option (Ret × Hmap κ β)
  | .put key val mem => m.easyPutMem key val mem
  | .get key => (m.get key).map fun r => (r.1.ret, r.2)
  | .del key => (m.del key).map fun r => (r.1.ret, r.2)
  | .clear => some (.errNone, m.clear)

/-- The pointers that the value free function has been called with. -/
def valFrees (m : Hmap κ β) : List (Option β) := m.freed.map fun ho => some ho.val

/-- The put that made the object at the next address has released it, and its value, once. -/
def Released [DecidableEq β] (m : Hmap κ β) (val : Option β) (m' : Hmap κ β) : Prop :=
  (m'.freed.map Ho.ptr).count m.brk = 1 ∧ (valFrees m').count val = (valFrees m).count val + 1

/-! ## 2. What is released -/

/-- What has been released had an address below `n`. -/
structure Sealed (n : Nat) (opts : Opts κ β) (m : Hmap κ β) : Prop extends Held n opts m where
  freed : ∀ ho ∈ m.freed, ho.ptr < n

/-- An object that leaves the map. -/
theorem freed_dispose {ho : Ho κ β} (hfreed : ∀ ho ∈ m.freed, ho.ptr < n) (hptr : ho.ptr < n) :
    ∀ x ∈ (m.dispose ho).2.freed, x.ptr < n := by
  unfold dispose
  split
  · exact List.forall_mem_cons.mpr ⟨hptr, hfreed⟩
  · exact hfreed

theorem push_freed {ho : Ho κ β} {ret : Ret} {pqe pqe' : Option Nat}
    (hpush : m.push ho pqe = some (ret, pqe', m')) : m'.freed = m.freed := by
  obtain ⟨queue, brk, rfl, -, -⟩ := (push_shape hpush).eq
  rfl

theorem queueDel_freed {obj : Obj κ β} (hdel : m.queueDel obj = some m') : m'.freed = m.freed := by
  obtain ⟨p, -, hdel⟩ := Option.bind_eq_some_iff.mp hdel
  obtain ⟨⟨q₁, e, q₂⟩, -, hdel⟩ := Option.bind_eq_some_iff.mp hdel
  obtain rfl := Option.some.inj hdel
  rfl

/-- A push looks at its object first. -/
theorem alive_of_push {ho : Ho κ β} {pqe : Option Nat} {r : Ret × Option Nat × Hmap κ β}
    (hpush : m.push ho pqe = some r) : m.alive ho = true := by
  unfold push at hpush
  split at hpush
  · cases hpush
  · next halive => simpa using halive

/-- The end of a put releases nothing, and if it fails, its object has not been released before. -/
theorem putCount_freed {obj : Obj κ β} {old : Option (Ho κ β)} {res : Res κ β}
    (hput : m.putCount obj old = some (res, m')) : m'.freed = m.freed ∧ res.ret ≠ .errExists ∧
      (res.ret = .errFail → obj.ptr ∉ m.freed.map Ho.ptr) := by
  unfold Hmap.putCount at hput
  split at hput
  · obtain ⟨⟨ret, pqe, m₁⟩, hpush, hput⟩ := Option.bind_eq_some_iff.mp hput
    have hfreed := push_freed hpush
    have halive : obj.ptr ∉ m.freed.map Ho.ptr := of_decide_eq_true (alive_of_push hpush)
    dsimp only at hput
    split at hput
    · obtain ⟨rfl, rfl⟩ := Prod.mk.inj (Option.some.inj hput)
      exact ⟨hfreed, by simp, fun _ => halive⟩
    · obtain ⟨rfl, rfl⟩ := Prod.mk.inj (Option.some.inj hput)
      exact ⟨hfreed, by simp, fun _ => halive⟩
  · obtain ⟨rfl, rfl⟩ := Prod.mk.inj (Option.some.inj hput)
    exact ⟨rfl, by simp, fun hret => by cases hret⟩

theorem Sealed.del (h : Sealed n opts m) {k : κ} {res : Res κ β} (hdel : m.del k = some (res, m')) :
    Sealed n opts m' := by
  refine ⟨(h.toHeld.del hdel).1, ?_⟩
  rcases find_spec h.toTable k with ⟨l, hfind, hl, rfl, -⟩ | ⟨-, hnot⟩
  · rw [del_of_find hfind] at hdel
    obtain ⟨-, rfl⟩ := Prod.mk.inj (Option.some.inj hdel)
    have hfreed : ∀ x ∈ (m.dispose l.obj.toHo).2.freed, x.ptr < n := freed_dispose h.freed
      (h.ptr l.obj hl.mem)
    rw [dispose_eq] at hfreed
    exact hfreed
  · obtain ⟨-, rfl⟩ := (h.toHeld.del hdel).2.2.2.2 hnot
    exact h.freed

theorem Sealed.pop (h : Sealed n opts m) (hpol : m.opts.policy ≠ .none) {res : Res κ β}
    (hpop : m.pop = some (res, m')) : Sealed n opts m' := by
  refine ⟨(h.toHeld.pop hpol hpop).1, ?_⟩
  rw [pop_eq hpol] at hpop
  cases hv : victim m.opts m.queue with
  | none =>
    rw [hv] at hpop
    obtain ⟨-, rfl⟩ := Prod.mk.inj (Option.some.inj hpop)
    exact h.freed
  | some x =>
    obtain ⟨e, q⟩ := x
    rw [hv] at hpop
    dsimp only [popEntry] at hpop
    split at hpop
    · cases hpop
    · obtain ⟨⟨res₁, m₁⟩, hdel, hpop⟩ := Option.bind_eq_some_iff.mp hpop
      have hfreed := (h.del hdel).freed
      dsimp only at hpop
      split at hpop
      · obtain ⟨-, rfl⟩ := Prod.mk.inj (Option.some.inj hpop)
        exact hfreed
      · obtain ⟨-, rfl⟩ := Prod.mk.inj (Option.some.inj hpop)
        exact hfreed

theorem Sealed.link (h : Sealed n opts m) {k : κ} {i : Nat} {before after : List (Obj κ β)}
    (hr : Room m k i before after) {obj : Obj κ β} (hk : obj.key = k) (hptr : obj.ptr < n) :
    Sealed n opts (m.setBucket i (before ++ obj :: after)) :=
  ⟨h.toHeld.link hr hk hptr, h.freed⟩

/-- The end of a put, which releases at most the object that is discarded: not its own, if it
fails. -/
theorem Sealed.putEnd (h : Sealed n opts m) {obj : Obj κ β} {res : Res κ β}
    (hput : m.putEnd obj = some (res, m')) : Sealed n opts m' ∧ res.ret ≠ .errExists ∧
      (res.ret = .errFail → obj.ptr ∉ m.freed.map Ho.ptr → obj.ptr ∉ m'.freed.map Ho.ptr) := by
  have hheld := (h.toHeld.putEnd hput).1
  unfold Hmap.putEnd at hput
  split at hput
  · next hfull =>
    obtain ⟨⟨res₁, m₁⟩, hpop, hput⟩ := Option.bind_eq_some_iff.mp hput
    have hfreed := (h.pop hfull.2 hpop).freed
    obtain ⟨-, -, -, hok, hstuck⟩ := h.toHeld.pop hfull.2 hpop
    dsimp only at hput
    split at hput
    · next hret =>
      obtain ⟨rfl, rfl⟩ := Prod.mk.inj (Option.some.inj hput)
      refine ⟨⟨hheld, hfreed⟩, by simp, fun _ hno => ?_⟩
      obtain ⟨-, rfl⟩ := hstuck fun hd => hret (hok hd).1
      exact hno
    · obtain ⟨hsame, hne, halive⟩ := putCount_freed hput
      refine ⟨⟨hheld, by rw [hsame]; exact hfreed⟩, hne, fun hret _ => ?_⟩
      rw [hsame]
      exact halive hret
  · obtain ⟨hsame, hne, -⟩ := putCount_freed hput
    refine ⟨⟨hheld, by rw [hsame]; exact h.freed⟩, hne, fun _ hno => ?_⟩
    rwa [hsame]

/-- What an overwrite releases: the old object, or the new one if it may not be overwritten. -/
theorem Sealed.oOverwrite (h : Sealed n opts m) {l : Loc κ β} {obj : Obj κ β} {res : Res κ β}
    (hl : At m l) (hk : obj.key = l.obj.key) (hptr : obj.ptr < n)
    (hput : m.oOverwrite l obj = some (res, m')) : Sealed n opts m' := by
  refine ⟨(h.toHeld.oOverwrite hl hk hptr hput).1, ?_⟩
  have hold := h.ptr l.obj hl.mem
  unfold Hmap.oOverwrite at hput
  split at hput
  · split at hput
    · obtain ⟨-, rfl⟩ := Prod.mk.inj (Option.some.inj hput)
      exact List.forall_mem_cons.mpr ⟨hptr, h.freed⟩
    · obtain ⟨-, rfl⟩ := Prod.mk.inj (Option.some.inj hput)
      exact h.freed
  · split at hput
    · obtain ⟨m₁, hdel, hput⟩ := Option.bind_eq_some_iff.mp hput
      obtain ⟨⟨ret, pqe, m₂⟩, hpush, hput⟩ := Option.bind_eq_some_iff.mp hput
      have hfreed : m₂.freed = m.freed := (push_freed hpush).trans (queueDel_freed hdel)
      dsimp only at hput
      split at hput
      · obtain ⟨-, rfl⟩ := Prod.mk.inj (Option.some.inj hput)
        change ∀ ho ∈ m₂.freed, ho.ptr < n
        rw [hfreed]
        exact h.freed
      · obtain ⟨-, rfl⟩ := Prod.mk.inj (Option.some.inj hput)
        have hbelow : ∀ ho ∈ m₂.freed, ho.ptr < n := by
          rw [hfreed]
          exact h.freed
        exact freed_dispose hbelow hold
    · obtain ⟨-, rfl⟩ := Prod.mk.inj (Option.some.inj hput)
      exact freed_dispose h.freed hold

theorem Sealed.putPlace (h : Sealed n opts m) {obj : Obj κ β} {res : Res κ β} (hptr : obj.ptr < n)
    (hput : m.putPlace obj = some (res, m')) : Sealed n opts m' := by
  unfold Hmap.putPlace at hput
  rcases scan_spec h.toTable obj.key with ⟨l, hs, hl, hk, -⟩ |
    ⟨i, before, after, hs, hr, -⟩ | ⟨hs, -⟩
  · rw [hs] at hput
    exact h.oOverwrite hl hk.symm hptr hput
  · rw [hs] at hput
    exact ((h.link hr rfl hptr).putEnd hput).1
  · rw [hs] at hput
    obtain ⟨-, rfl⟩ := Prod.mk.inj (Option.some.inj hput)
    exact h

/-- A put that does not resize. -/
theorem putPlace_of_putAt {mem : Mem} {obj : Obj κ β} {r : Res κ β × Hmap κ β}
    (hput : putAt mem 0 m obj = some r) : m.putPlace obj = some r := by
  unfold putAt putWith at hput
  split at hput
  · cases hput
  · exact hput

/-- Without a policy and without overwriting, a put that succeeds releases nothing. -/
theorem putPlace_freed (hpol : m.opts.policy = .none)
    (hno : m.opts.noOverwrite = true) {obj : Obj κ β}
    {res : Res κ β} (hput : m.putPlace obj = some (res, m')) (hret : res.ret = .errNone) :
    m'.freed = m.freed ∧ m'.opts = m.opts := by
  unfold Hmap.putPlace at hput
  obtain ⟨place, -, hput⟩ := Option.bind_eq_some_iff.mp hput
  cases place with
  | found l =>
    dsimp only [Hmap.oOverwrite] at hput
    rw [if_pos hno] at hput
    split at hput
    · obtain ⟨rfl, -⟩ := Prod.mk.inj (Option.some.inj hput)
      cases hret
    · obtain ⟨rfl, -⟩ := Prod.mk.inj (Option.some.inj hput)
      cases hret
  | full =>
    obtain ⟨rfl, -⟩ := Prod.mk.inj (Option.some.inj hput)
    cases hret
  | room i before after =>
    have heq : (m.setBucket i (before ++ obj :: after)).putEnd obj = some (⟨.errNone, none⟩,
        { (m.setBucket i (before ++ obj :: after)).setPqe obj.ptr obj.pqe with
          sz := SizeT.add m.sz 1 }) := by
      simp [Hmap.putEnd, Hmap.putCount, hpol, opPut, Hmap.setPqe, setBucket]
    obtain ⟨-, rfl⟩ := Prod.mk.inj (Option.some.inj (heq.symm.trans hput))
    exact ⟨rfl, rfl⟩

/-- **What a resize releases** are objects of the map; if nothing is overwritten and it goes
through, it releases none. -/
theorem Plenty.resize_freed (hp : Plenty opts m) (h : Sealed n opts m)
    (hgoes : 3 * m.opts.size ≤ 2147483647) {ok : Bool}
    (hres : resize (putAt .ok 0) .ok m = some (ok, m')) :
    (∀ ho ∈ m'.freed, ho.ptr < n) ∧ (ok = true → opts.noOverwrite = true → m'.freed = m.freed) := by
  obtain ⟨newmap, src, hc, hnew, heq⟩ := hp.resize_copies h.toHeld hgoes
  rw [heq] at hres
  obtain ⟨⟨ok', dst, src'⟩, hcopy, hend⟩ := Option.map_eq_some_iff.mp hres
  have hptr : ∀ i ∈ List.range m.size, ∀ o ∈ src.buckets i, o.ptr < n := by
    intro i hi o ho
    rw [hc.buckets] at ho
    exact h.ptr o (mem_stored.mpr ⟨i, List.mem_range.mp hi, ho⟩)
  have hsealed : Sealed n opts newmap := ⟨hc.held, by rw [hnew]; exact h.freed⟩
  have hbelow := copyBuckets_keeps (P := Sealed n opts) (Q := Sealed n opts)
    (fun h hptr hput => ⟨h.putPlace hptr (putPlace_of_putAt hput),
      fun _ => h.putPlace hptr (putPlace_of_putAt hput)⟩)
    (List.range m.size) hsealed hptr hcopy
  rw [ite_self] at hbelow
  have hend' : ok' = ok ∧ m'.freed = dst.freed := by
    cases ok' with
    | true =>
      obtain ⟨rfl, rfl⟩ := Prod.mk.inj hend
      exact ⟨rfl, rfl⟩
    | false =>
      obtain ⟨rfl, rfl⟩ := Prod.mk.inj hend
      exact ⟨rfl, rfl⟩
  obtain ⟨rfl, hdst⟩ := hend'
  rw [hdst]
  refine ⟨hbelow.1.freed, ?_⟩
  rintro rfl hno
  have hopts := hc.held.opts_eq
  have hpol : newmap.opts.policy = .none := hc.held.policy.trans hp.policy
  -- of the puts that succeed, none has released anything
  have hone : ∀ {d d' : Hmap κ β} {obj : Obj κ β} {res : Res κ β},
      (d.freed = m.freed ∧ d.opts.policy = .none ∧ d.opts.noOverwrite = true) → obj.ptr < n →
      putAt .ok 0 d obj = some (res, d') →
      True ∧ (res.ret = .errNone → d'.freed = m.freed ∧ d'.opts.policy = .none ∧
        d'.opts.noOverwrite = true) := by
    rintro d d' obj res ⟨hfreed, hpol, hno⟩ - hput
    refine ⟨trivial, fun hret => ?_⟩
    obtain ⟨hsame, heq⟩ := putPlace_freed hpol hno (putPlace_of_putAt hput) hret
    rw [hsame, heq]
    exact ⟨hfreed, hpol, hno⟩
  have hnone := copyBuckets_keeps (Q := fun _ => True) hone (List.range m.size)
    ⟨hnew, hpol, by rw [hopts]; exact hno⟩ hptr hcopy
  exact hnone.1.1

/-! ## 3. Which puts fail -/

/-- A known key is refused if it may not be overwritten, and then the new object is released. -/
theorem oOverwrite_exists {l : Loc κ β} {obj : Obj κ β} {res : Res κ β}
    (hput : m.oOverwrite l obj = some (res, m')) :
    (res.ret = .errExists ↔ m.opts.noOverwrite = true) ∧
      (m.opts.noOverwrite = true → m.opts.ownsData = true → m'.freed = obj.toHo :: m.freed) := by
  unfold Hmap.oOverwrite at hput
  split at hput
  · next hno =>
    rw [iff_true_right hno, forall_prop_of_true hno]
    split at hput
    · obtain ⟨rfl, rfl⟩ := Prod.mk.inj (Option.some.inj hput)
      exact ⟨rfl, fun _ => rfl⟩
    · next howns =>
      obtain ⟨rfl, -⟩ := Prod.mk.inj (Option.some.inj hput)
      exact ⟨rfl, fun h => absurd h howns⟩
  · next hno =>
    rw [iff_false_right hno]
    refine ⟨?_, fun h => absurd h hno⟩
    split at hput
    · obtain ⟨m₁, -, hput⟩ := Option.bind_eq_some_iff.mp hput
      obtain ⟨⟨ret, pqe, m₂⟩, -, hput⟩ := Option.bind_eq_some_iff.mp hput
      dsimp only at hput
      split at hput
      · obtain ⟨rfl, -⟩ := Prod.mk.inj (Option.some.inj hput)
        simp
      · obtain ⟨rfl, -⟩ := Prod.mk.inj (Option.some.inj hput)
        simp
    · obtain ⟨rfl, -⟩ := Prod.mk.inj (Option.some.inj hput)
      simp

/-- **Which puts without a resize fail**, and what they release: not their object. -/
structure PlaceRet (m : Hmap κ β) (obj : Obj κ β) (ret : Ret) (m' : Hmap κ β) : Prop where
  fail : ret = .errFail ↔ Full m obj.key ∨ ¬ PlaceHarmless m obj
  failed : ret = .errFail → obj.ptr ∉ m.freed.map Ho.ptr → obj.ptr ∉ m'.freed.map Ho.ptr
  known : ret = .errExists ↔ m.opts.noOverwrite = true ∧ ¬ Full m obj.key ∧ ¬ Adds m obj.key
  refused : ret = .errExists → m.opts.ownsData = true → m'.freed = obj.toHo :: m.freed

/-- An overwrite that fails has released nothing. -/
theorem oOverwrite_failed {l : Loc κ β} {obj : Obj κ β} {res : Res κ β}
    (hput : m.oOverwrite l obj = some (res, m')) (hret : res.ret = .errFail) :
    m'.freed = m.freed := by
  unfold Hmap.oOverwrite at hput
  split at hput
  · split at hput <;> obtain ⟨rfl, -⟩ := Prod.mk.inj (Option.some.inj hput) <;> cases hret
  · split at hput
    · obtain ⟨m₁, hdel, hput⟩ := Option.bind_eq_some_iff.mp hput
      obtain ⟨⟨ret, pqe, m₂⟩, hpush, hput⟩ := Option.bind_eq_some_iff.mp hput
      dsimp only at hput
      split at hput
      · obtain ⟨-, rfl⟩ := Prod.mk.inj (Option.some.inj hput)
        exact (push_freed hpush).trans (queueDel_freed hdel)
      · obtain ⟨rfl, -⟩ := Prod.mk.inj (Option.some.inj hput)
        cases hret
    · obtain ⟨rfl, -⟩ := Prod.mk.inj (Option.some.inj hput)
      cases hret

theorem Sealed.placeRet (h : Sealed n opts m) {obj : Obj κ β} {res : Res κ β} (hptr : obj.ptr < n)
    (hput : m.putPlace obj = some (res, m')) : PlaceRet m obj res.ret m' := by
  have hfull := h.toTable.scan_full_iff obj.key
  obtain ⟨-, hsafe, hharms⟩ := h.toHeld.putPlace hptr hput
  have hfail : Full m obj.key → res.ret = .errFail := by
    intro hf
    rw [Hmap.putPlace, hfull.mpr hf] at hput
    obtain ⟨rfl, -⟩ := Prod.mk.inj (Option.some.inj hput)
    rfl
  have hiff : res.ret = .errFail ↔ Full m obj.key ∨ ¬ PlaceHarmless m obj := by
    constructor
    · intro hret
      by_cases hplace : PlaceHarmless m obj
      · exact .inl (hsafe hplace hret).2
      · exact .inr hplace
    · exact fun hor => hor.elim hfail fun hplace => (hharms hplace).1
  unfold Hmap.putPlace at hput
  rcases scan_spec h.toTable obj.key with
    ⟨l, hs, hl, hk, -, hnadds⟩ | ⟨i, before, after, hs, hr, hadds, -⟩ | ⟨hs, -, hnadds, -⟩
  · rw [hs] at hput hfull
    have hnfull : ¬ Full m obj.key := fun hf => by simpa using hfull.mpr hf
    obtain ⟨hknown, hrefused⟩ := oOverwrite_exists hput
    refine ⟨hiff, fun hret hno => ?_, ?_, fun hret => hrefused (hknown.mp hret)⟩
    · rwa [oOverwrite_failed hput hret]
    · rw [and_iff_left ⟨hnfull, hnadds⟩]
      exact hknown
  · rw [hs] at hput
    obtain ⟨-, hnknown, hfailed⟩ := (h.link hr rfl hptr).putEnd hput
    exact ⟨hiff, hfailed, iff_of_false hnknown fun hno => hno.2.2 hadds,
      fun hret => absurd hret hnknown⟩
  · rw [hs] at hput
    obtain ⟨rfl, rfl⟩ := Prod.mk.inj (Option.some.inj hput)
    refine ⟨hiff, fun _ hno => hno, iff_of_false (by simp) fun hno => hno.2.1 (hfull.mp hs), ?_⟩
    intro hret
    cases hret

/-! ## 4. Calls and runs -/

/-- **The invariant of runs in which refused values are released.** -/
structure Owner (opts : Opts κ β) (m : Hmap κ β) : Prop where
  live : Live opts m
  freed : ∀ ho ∈ m.freed, ho.ptr < m.brk

theorem Owner.sealed (h : Owner opts m) : Sealed m.brk opts m := ⟨h.live.held, h.freed⟩

theorem Owner.fresh (h : Owner opts m) : ∀ ho ∈ m.freed, ho.ptr ≠ m.brk :=
  fun ho hmem => (h.freed ho hmem).ne

theorem Sealed.owner (h : Sealed n opts m) (hp : opts.policy = .none → Plenty opts m) :
    Owner opts m :=
  ⟨h.toHeld.live hp, fun ho hmem => Nat.lt_of_lt_of_le (h.freed ho hmem) h.brk⟩

theorem new_owner (hl : Lawful opts) {brk : Nat} {avail : Nat → QMem}
    (hnew : new opts brk [] avail = some m) : Owner opts m := by
  refine ⟨new_live hl hnew, ?_⟩
  rw [(new_heap hnew).2.2]
  simp

/-- With the new object. -/
theorem Owner.oNew (h : Owner opts m) (k : κ) (v : β) : Sealed m.brk opts (m.oNew k v).2 :=
  ⟨⟨(h.live.oNew k v).held.toTable, (h.live.oNew k v).held.opts_eq, Nat.le_succ m.brk,
    h.live.held.ptr⟩, h.freed⟩

theorem Sealed.succ (h : Sealed n opts m) (hbrk : n + 1 ≤ m.brk) : Sealed (n + 1) opts m :=
  ⟨⟨h.toTable, h.opts_eq, hbrk, fun o ho => Nat.lt_succ_of_lt (h.ptr o ho)⟩,
    fun ho hmem => Nat.lt_succ_of_lt (h.freed ho hmem)⟩

/-- What a put must find so as not to fail: a resize that goes through; or else a slot, an object to
discard if one has to be, and an entry in the queue. -/
structure PutGoes (m : Hmap κ β) (obj : Obj κ β) (mem : Mem) : Prop extends
    PlaceHarmless m obj where
  resize : m.opts.policy = .none → m.threshold ≤ m.sz → ¬ ResizeFails m mem ∧
    (m.opts.noOverwrite = true → Distinct (hos m))
  full : m.opts.policy ≠ .none → ¬ Full m obj.key

/-- **Which puts fail**, and what they release: not their object. -/
structure PutRet (opts : Opts κ β) (m : Hmap κ β) (k : κ) (v : β) (goes : Prop)
    (ret : Ret) (m' : Hmap κ β) : Prop where
  goes : ret ≠ .errFail ↔ goes
  failed : ret = .errFail → ∀ ho ∈ m'.freed, ho.ptr ≠ m.brk
  refused : ret = .errExists → opts.ownsData = true → m'.freed = ⟨m.brk, k, v⟩ :: m.freed
  owner : ret ≠ .errFail → Owner opts m'

theorem Held.noOverwrite (h : Held n opts m) :
    m.opts.noOverwrite = opts.noOverwrite := by rw [h.opts_eq]

theorem Held.ownsData (h : Held n opts m) : m.opts.ownsData = opts.ownsData := by rw [h.opts_eq]

/-- A put into a map without policy that has grown, if it had to. -/
theorem Plenty.putRet (hp : Plenty opts m') (h : Sealed n opts m') {obj : Obj κ β} {res : Res κ β}
    {m'' : Hmap κ β} (hptr : obj.ptr < n) (hroom : Roomy m' (m'.sz + 1))
    (hput : m'.putPlace obj = some (res, m'')) :
    res.ret ≠ .errFail ∧ Owner opts m'' ∧
      (res.ret = .errExists → opts.noOverwrite = true ∧
        (opts.ownsData = true → m''.freed = obj.toHo :: m'.freed)) := by
  obtain ⟨hp'', hret⟩ := hp.putPlace h.toHeld hroom hput
  have hplace := h.placeRet hptr hput
  refine ⟨hret, (h.putPlace hptr hput).owner fun _ => hp'', fun hknown => ?_⟩
  have hno := (hplace.known.mp hknown).1
  rw [h.toHeld.noOverwrite] at hno
  refine ⟨hno, fun howns => hplace.refused hknown ?_⟩
  rw [h.toHeld.ownsData]
  exact howns

/-- The ways of a put into a map without a policy: the resize stops before anything is copied, or a
copy is refused, or there is room. -/
inductive PutPlain (opts : Opts κ β) (m : Hmap κ β) (k : κ) (v : β) (mem : Mem) (ret : Ret)
    (m' : Hmap κ β) : Prop
  | stops (hfails : ResizeFails m mem) (hret : ret = .errFail) (howner : Owner opts m')
      (hfreed : m'.freed = m.freed)
  | refused (hfull : m.threshold ≤ m.sz) (hno : opts.noOverwrite = true)
      (hsame : ¬ Distinct (hos m)) (hret : ret = .errFail)
      (hbelow : ∀ ho ∈ m'.freed, ho.ptr < m.brk)
  | placed (hroom : m.threshold ≤ m.sz → ¬ ResizeFails m mem ∧
        (opts.noOverwrite = true → Distinct (hos m))) {d : Hmap κ β} {obj : Option (Ho κ β)}
      (hp : Plenty opts d) (hs : Sealed (m.brk + 1) opts d) (hd : Roomy d (d.sz + 1))
      (hfreed : opts.noOverwrite = true → d.freed = m.freed)
      (hput : d.putPlace (m.oNew k v).1 = some (⟨ret, obj⟩, m'))

theorem Owner.put_cases (h : Owner opts m) (hpol : opts.policy = .none) {k : κ} {v : β}
    {mem : Mem} {res : Res κ β} (hput : (m.oNew k v).2.put (m.oNew k v).1 mem = some (res, m')) :
    PutPlain opts m k v mem res.ret m' := by
  have h₁ := h.oNew k v
  have hs₁ : Sealed (m.brk + 1) opts (m.oNew k v).2 := h₁.succ (Nat.le_refl _)
  have hp := (h.live.oNew k v).plenty hpol
  unfold Hmap.put putAt putWith at hput
  by_cases hfull : m.threshold ≤ m.sz
  · rw [if_pos ⟨hfull, hp.policy_none⟩] at hput
    by_cases hstops : mem ≠ .ok ∨ 2147483647 < 3 * m.opts.size
    · obtain ⟨px, hres, hp'⟩ := hp.resize_stops hstops (putAt mem 0)
      rw [hres] at hput
      obtain ⟨rfl, rfl⟩ := Prod.mk.inj (Option.some.inj hput)
      exact .stops ⟨hfull, hstops⟩ rfl ⟨(h₁.toHeld.prime px).live fun _ => hp', fun ho hmem =>
        Nat.lt_succ_of_lt (h.freed ho hmem)⟩ rfl
    · obtain ⟨rfl, hle⟩ : mem = .ok ∧ 3 * m.opts.size ≤ 2147483647 := by
        simpa [not_or, Nat.not_lt] using hstops
      by_cases hdistinct : opts.noOverwrite = true → Distinct (hos m)
      · obtain ⟨dst, hres, hdst, hpdst, hroom⟩ := hp.resized hs₁.toHeld hle hdistinct
        obtain ⟨hbelow, hnone⟩ := hp.resize_freed h₁ hle hres
        rw [hres] at hput
        exact .placed (fun _ => ⟨fun hf => hstops hf.2, hdistinct⟩) hpdst
          ⟨hdst, fun ho hmem => Nat.lt_succ_of_lt (hbelow ho hmem)⟩ hroom (hnone rfl) hput
      · obtain ⟨hno, hnd⟩ := Classical.not_imp.mp hdistinct
        obtain ⟨⟨ok, m₂⟩, hres, hend⟩ := Option.bind_eq_some_iff.mp hput
        obtain ⟨rfl, -⟩ := hp.refused hs₁.toHeld hle hno hnd hres
        obtain ⟨hbelow, -⟩ := hp.resize_freed h₁ hle hres
        obtain ⟨rfl, rfl⟩ := Prod.mk.inj (Option.some.inj hend)
        exact .refused hfull hno hnd rfl hbelow
  · rw [if_neg fun hcond => hfull hcond.1] at hput
    exact .placed (fun hle => absurd hle hfull) hp hs₁ (Or.inl (Nat.not_le.mp hfull))
      (fun _ => rfl) hput

/-- Without a policy or overwriting, and with keys that differ, a put releases its own object or
nothing. -/
theorem Owner.put_plain (h : Owner opts m) (hpol : opts.policy = .none)
    (hno : opts.noOverwrite = true)
    (howns : opts.ownsData = true) (hdistinct : Distinct (hos m)) {k : κ} {v : β}
    {mem : Mem} {res : Res κ β} (hput : (m.oNew k v).2.put (m.oNew k v).1 mem = some (res, m')) :
    Owner opts m' ∧ m'.freed = if res.ret = .errExists then ⟨m.brk, k, v⟩ :: m.freed
    else m.freed := by
  rcases h.put_cases hpol hput with ⟨-, hret, howner, hfreed⟩ | ⟨-, -, hsame, -, -⟩ |
    ⟨-, hp, hs, hd, hfreed, hplace⟩
  · rw [hret]
    exact ⟨howner, hfreed⟩
  · exact absurd hdistinct hsame
  · obtain ⟨hret, howner, hknown⟩ := hp.putRet hs (Nat.lt_succ_self m.brk) hd hplace
    refine ⟨howner, ?_⟩
    split
    · next hex =>
      rw [(hknown hex).2 howns, hfreed hno]
      rfl
    · next hnex =>
      have hnone : res.ret = .errNone := by
        cases hr : res.ret with
        | errNone => rfl
        | errExists => exact absurd hr hnex
        | errFail => exact absurd hr hret
      rw [(putPlace_freed hp.policy_none (hs.toHeld.noOverwrite.trans hno) hplace hnone).1,
        hfreed hno]

theorem Owner.put (h : Owner opts m) {k : κ} {v : β} {mem : Mem} {res : Res κ β}
    (hput : (m.oNew k v).2.put (m.oNew k v).1 mem = some (res, m')) :
    PutRet opts m k v (PutGoes (m.oNew k v).2 (m.oNew k v).1 mem) res.ret m' := by
  by_cases hpol : opts.policy = .none
  · have hpolm : m.opts.policy = .none := h.live.held.policy.trans hpol
    have hgoes : PutGoes (m.oNew k v).2 (m.oNew k v).1 mem ↔ (m.threshold ≤ m.sz →
        ¬ ResizeFails m mem ∧ (opts.noOverwrite = true → Distinct (hos m))) := by
      rw [← h.live.held.noOverwrite]
      exact ⟨fun hg => hg.resize hpolm, fun hr => ⟨⟨fun hne => absurd hpolm hne,
        fun hne => absurd hpolm hne⟩, fun _ => hr, fun hne => absurd hpolm hne⟩⟩
    rcases h.put_cases hpol hput with ⟨hfails, hret, -, hfreed⟩ |
      ⟨hfull, hno, hsame, hret, hbelow⟩ | ⟨hroom, hp, hs, hd, hfreed, hplace⟩
    · rw [hret]
      refine ⟨iff_of_false (not_not.mpr rfl) fun hg => (hgoes.mp hg hfails.1).1 hfails,
        fun _ => hfreed ▸ h.fresh, ?_, fun hnot => absurd rfl hnot⟩
      intro hex
      cases hex
    · rw [hret]
      refine ⟨iff_of_false (not_not.mpr rfl) fun hg => hsame ((hgoes.mp hg hfull).2 hno),
        fun _ ho hmem => (hbelow ho hmem).ne, ?_, fun hnot => absurd rfl hnot⟩
      intro hex
      cases hex
    · obtain ⟨hret, howner, hknown⟩ := hp.putRet hs (Nat.lt_succ_self m.brk) hd hplace
      refine ⟨iff_of_true hret (hgoes.mpr hroom), fun hfail => absurd hfail hret,
        fun hex howns => ?_, fun _ => howner⟩
      obtain ⟨hno, hfreed'⟩ := hknown hex
      rw [hfreed' howns, hfreed hno]
      rfl
  · have hs₁ : Sealed (m.brk + 1) opts (m.oNew k v).2 := (h.oNew k v).succ (Nat.le_refl _)
    have hptr : (m.oNew k v).1.ptr < m.brk + 1 := Nat.lt_succ_self m.brk
    have hpolm : m.opts.policy ≠ .none := fun hnone => hpol (h.live.held.policy.symm.trans hnone)
    unfold Hmap.put putAt putWith at hput
    rw [if_neg fun hcond => hpolm hcond.2] at hput
    have hplace := hs₁.placeRet hptr hput
    refine ⟨?_, fun hfail ho hmem heq => ?_, fun hex howns => hplace.refused hex
      (h.live.held.ownsData.trans howns), fun _ => (hs₁.putPlace hptr hput).owner
      fun hnone => absurd hnone hpol⟩
    · rw [Ne, hplace.fail, not_or, not_not]
      constructor
      · intro hboth
        exact ⟨hboth.2, fun hnone => absurd hnone hpolm, fun _ => hboth.1⟩
      · intro hg
        exact ⟨hg.full hpolm, hg.toPlaceHarmless⟩
    · refine hplace.failed hfail (fun hin => ?_) (List.mem_map.mpr ⟨ho, hmem, heq⟩)
      obtain ⟨ho', hmem', heq'⟩ := List.mem_map.mp hin
      exact h.fresh ho' hmem' heq'

theorem Owner.get (h : Owner opts m) {k : κ} {res : Res κ β} (hget : m.get k = some (res, m')) :
    Owner opts m' := by
  have hlive := h.live.get hget
  have hheap : m'.freed = m.freed ∧ m.brk ≤ m'.brk := by
    rcases find_spec h.live.held.toTable k with ⟨l, hfind, hl, rfl, -⟩ | ⟨hfind, -⟩
    · rw [Hmap.get, hfind] at hget
      dsimp only [Option.bind_eq_bind, Option.bind_some] at hget
      split at hget
      · obtain ⟨⟨ret, pqe, m₁⟩, hpush, hget⟩ := Option.bind_eq_some_iff.mp hget
        obtain ⟨queue, brk, rfl, hle, -⟩ := (push_shape hpush).eq
        obtain ⟨-, rfl⟩ := Prod.mk.inj (Option.some.inj hget)
        exact ⟨rfl, hle⟩
      · obtain ⟨-, rfl⟩ := Prod.mk.inj (Option.some.inj hget)
        exact ⟨rfl, Nat.le_refl _⟩
    · rw [Hmap.get, hfind] at hget
      obtain ⟨-, rfl⟩ := Prod.mk.inj (Option.some.inj hget)
      exact ⟨rfl, Nat.le_refl _⟩
  refine ⟨hlive, fun ho hmem => ?_⟩
  rw [hheap.1] at hmem
  exact Nat.lt_of_lt_of_le (h.freed ho hmem) hheap.2

theorem Owner.del (h : Owner opts m) {k : κ} {res : Res κ β} (hdel : m.del k = some (res, m')) :
    Owner opts m' :=
  (h.sealed.del hdel).owner (h.live.del hdel).plenty

theorem Owner.clear (h : Owner opts m) : Owner opts m.clear := by
  refine ⟨h.live.clear, ?_⟩
  unfold Hmap.clear
  dsimp only
  split
  · intro ho hmem
    rcases List.mem_append.mp hmem with hmem | hmem
    · obtain ⟨o, ho, rfl⟩ := List.mem_map.mp hmem
      exact h.live.held.ptr o (List.mem_reverse.mp ho)
    · exact h.freed ho hmem
  · exact h.freed

variable [DecidableEq β]

/-- A put that does not return `U_HMAP_ERR_NONE` has released its object and its value, once. -/
def EasyOwns (m : Hmap κ β) : EasyOp κ β → Ret → Hmap κ β → Prop
  | .put _ val _, ret, m' => ret ≠ .errNone → Released m val m'
  | _, _, _ => True

/-- What a put must find so that it succeeds, or is refused for its key: pointers and memory; a
resize that goes through, or else a slot, an object to discard and an entry in the queue. -/
structure EasyGoes (m : Hmap κ β) (key : Option κ) (val : Option β) (mem : EasyMem) : Prop where
  hasKey : key ≠ none
  hasVal : val ≠ none
  obj : mem.obj = true
  put : ∀ k ∈ key, ∀ v ∈ val, PutGoes (m.oNew k v).2 (m.oNew k v).1 mem.resize

/-- When a call releases what it is refused. -/
def EasySafe (m : Hmap κ β) : EasyOp κ β → Prop
  | .put key val mem => EasyGoes m key val mem
  | _ => True

/-- When a call is defined, and releases what it is refused. -/
def EasySound (m : Hmap κ β) : EasyOp κ β → Prop
  | .put key val mem => EasyGoes m key val mem ∧
    (m.opts.policy ≠ .none → ∀ k ∈ key, ∀ v ∈ val, Sound (m.oNew k v).2 (m.oNew k v).1)
  | .get k => m.opts.policy = .lfu → Counts m k
  | _ => True

/-- Nothing is released. -/
theorem not_released {val : Option β} : ¬ Released m val m := by
  rintro ⟨-, hcount⟩
  omega

/-- The object of a put is released exactly if the put does not fail. -/
theorem PutRet.released_iff {k : κ} {v : β} {goes : Prop} {ret : Ret}
    (h : PutRet opts m k v goes ret m')
    (howner : Owner opts m) (howns : opts.ownsData = true) :
    (ret ≠ .errNone → Released m (some v) m') ↔ goes := by
  rw [← h.goes]
  cases ret with
  | errNone => exact iff_of_true (fun hne => absurd rfl hne) (by decide)
  | errExists =>
    refine iff_of_true (fun _ => ?_) (by decide)
    have hfreed := h.refused rfl howns
    have hfresh : m.brk ∉ m.freed.map Ho.ptr := by
      intro hmem
      obtain ⟨ho, hho, hptr⟩ := List.mem_map.mp hmem
      exact howner.fresh ho hho hptr
    rw [Released, valFrees, hfreed]
    constructor
    · rw [List.map_cons, List.count_cons_self, List.count_eq_zero_of_not_mem hfresh]
    · rw [List.map_cons, List.count_cons_self]
      rfl
  | errFail =>
    refine iff_of_false (fun hall => ?_) (not_not.mpr rfl)
    have hcount := (hall (by decide)).1
    have hmem : m.brk ∈ m'.freed.map Ho.ptr := List.count_pos_iff.mp (by omega)
    obtain ⟨ho, hho, hptr⟩ := List.mem_map.mp hmem
    exact h.failed rfl ho hho hptr

/-- **One put** releases what it is refused exactly under its condition. -/
theorem Owner.easyPutMem (h : Owner opts m) (howns : opts.ownsData = true)
    {key : Option κ} {val : Option β}
    {mem : EasyMem} {ret : Ret} (hput : m.easyPutMem key val mem = some (ret, m')) :
    (EasyOwns m (.put key val mem) ret m' ↔ EasyGoes m key val mem) ∧
      (EasyGoes m key val mem → Owner opts m') := by
  have hrefused : some (Ret.errFail, m) = some (ret, m') → ¬ EasyGoes m key val mem →
      (EasyOwns m (.put key val mem) ret m' ↔ EasyGoes m key val mem) ∧
        (EasyGoes m key val mem → Owner opts m') := by
    intro heq hnot
    obtain ⟨rfl, rfl⟩ := Prod.mk.inj (Option.some.inj heq)
    exact ⟨iff_of_false (fun hown => not_released (hown (by decide))) hnot,
      fun hgoes => absurd hgoes hnot⟩
  unfold Hmap.easyPutMem at hput
  cases key with
  | none => exact hrefused hput fun hgoes => hgoes.hasKey rfl
  | some k =>
    cases val with
    | none => exact hrefused hput fun hgoes => hgoes.hasVal rfl
    | some v =>
      dsimp only at hput
      cases hobj : mem.obj with
      | false =>
        rw [hobj] at hput
        refine hrefused hput fun hgoes => ?_
        have htrue := hgoes.obj
        rw [hobj] at htrue
        cases htrue
      | true =>
        rw [hobj, if_neg (by decide)] at hput
        have hgoes : EasyGoes m (some k) (some v) mem ↔
            PutGoes (m.oNew k v).2 (m.oNew k v).1 mem.resize := by
          constructor
          · exact fun hgoes => hgoes.put k rfl v rfl
          · intro hgoes
            refine ⟨Option.some_ne_none k, Option.some_ne_none v, hobj, ?_⟩
            intro k' hk v' hv
            obtain rfl := Option.some.inj hk
            obtain rfl := Option.some.inj hv
            exact hgoes
        obtain ⟨⟨res, m₁⟩, hput₁, hend⟩ := Option.bind_eq_some_iff.mp hput
        obtain ⟨rfl, rfl⟩ := Prod.mk.inj (Option.some.inj hend)
        have hret := h.put hput₁
        rw [hgoes]
        exact ⟨hret.released_iff h howns, fun hg => hret.owner (hret.goes.mpr hg)⟩

/-- **One call** releases what it is refused exactly under its condition. -/
theorem Owner.exec (h : Owner opts m) (howns : opts.ownsData = true) {op : EasyOp κ β} {ret : Ret}
    (hst : op.exec m = some (ret, m')) :
    (EasyOwns m op ret m' ↔ EasySafe m op) ∧ (EasySafe m op → Owner opts m') := by
  cases op with
  | put key val mem => exact h.easyPutMem howns hst
  | get k =>
    obtain ⟨⟨res, m₁⟩, hget, heq⟩ := Option.map_eq_some_iff.mp hst
    obtain ⟨-, rfl⟩ := Prod.mk.inj heq
    exact ⟨Iff.rfl, fun _ => h.get hget⟩
  | del k =>
    obtain ⟨⟨res, m₁⟩, hdel, heq⟩ := Option.map_eq_some_iff.mp hst
    obtain ⟨-, rfl⟩ := Prod.mk.inj heq
    exact ⟨Iff.rfl, fun _ => h.del hdel⟩
  | clear =>
    obtain ⟨-, rfl⟩ := Prod.mk.inj (Option.some.inj hst)
    exact ⟨Iff.rfl, fun _ => h.clear⟩

omit [DecidableEq β] in
theorem EasySound.safe {op : EasyOp κ β} (h : EasySound m op) : EasySafe m op := by
  cases op with
  | put key val mem => exact h.1
  | get k => trivial
  | del k => trivial
  | clear => trivial

omit [DecidableEq β] in
/-- **One call is defined** under its condition. -/
theorem Lively.easy (h : Lively opts m) {op : EasyOp κ β} (hsound : EasySound m op) :
    ∃ ret m', op.exec m = some (ret, m') ∧ (opts.policy ≠ .none → Entered m') := by
  cases op with
  | put key val mem =>
    obtain ⟨⟨hkey, hval, hobj, hput⟩, hsound⟩ := hsound
    obtain ⟨k, rfl⟩ := Option.ne_none_iff_exists'.mp hkey
    obtain ⟨v, rfl⟩ := Option.ne_none_iff_exists'.mp hval
    have hgoes := hput k rfl v rfl
    have hcall : PutSound (m.oNew k v).2 (m.oNew k v).1 mem.resize :=
      ⟨fun hpol => hsound hpol k rfl v rfl, fun hpol hfull hno =>
        .inl ((hgoes.resize hpol hfull).2 hno)⟩
    obtain ⟨res, m', hst, h'⟩ := h.exec (.map (.cache (.put k v mem.resize))) trivial hcall
    refine ⟨res.ret, m', ?_, h'.entered⟩
    change (m.oNew k v).2.put (m.oNew k v).1 mem.resize = some (res, m') at hst
    simp [EasyOp.exec, Hmap.easyPutMem, hobj, hst]
  | get k =>
    obtain ⟨res, m', hst, h'⟩ := h.exec (.map (.cache (.get k))) trivial hsound
    change m.get k = some (res, m') at hst
    exact ⟨res.ret, m', by simp [EasyOp.exec, hst], h'.entered⟩
  | del k =>
    obtain ⟨res, m', hst, h'⟩ := h.exec (.map (.del k)) trivial trivial
    change m.del k = some (res, m') at hst
    exact ⟨res.ret, m', by simp [EasyOp.exec, hst], h'.entered⟩
  | clear => exact ⟨.errNone, m.clear, rfl, fun hpol => (h.entered hpol).clear⟩

/-- **Who releases a refused value.**  In every run of the easy interface on a new map, of any type
and policy, whatever memory there is, every call is defined, and every put that does not return
`U_HMAP_ERR_NONE` has released its object and its value, once, if every call meets `EasySound`.  In
a run whose calls are all defined, every put has if and only if every put meets `EasyGoes`. -/
theorem easy_put_owner_iff (hl : Lawful opts) (howns : opts.ownsData = true) {brk : Nat}
    {avail : Nat → QMem} (hnew : new opts brk [] avail = some m) {ops : List (EasyOp κ β)} :
    (Guarded EasyOp.exec EasySound m ops → Always EasyOp.exec EasyOwns m ops) ∧
      ∀ {rs m'}, run EasyOp.exec m ops = some (rs, m') →
        (Always EasyOp.exec EasyOwns m ops ↔ Guarded EasyOp.exec EasySafe m ops) := by
  have howner := new_owner hl hnew
  constructor
  · intro hsound
    refine always_of_guarded (fun m => Owner opts m ∧ (opts.policy ≠ .none → Entered m)) ?_
      ⟨howner, fun hp => new_entered hl hp hnew⟩ hsound
    rintro m op ⟨h, hentered⟩ hsound
    have hlively : Lively opts m := ⟨h.live, hentered⟩
    obtain ⟨ret, m', hst, hentered'⟩ := hlively.easy hsound
    obtain ⟨hiff, hkeep⟩ := h.exec howns hst
    exact ⟨ret, m', hst, hiff.mpr hsound.safe, hkeep hsound.safe, hentered'⟩
  · intro rs m' hrun
    refine always_iff_guarded (fun m op => (op.exec m).isSome) (Owner opts) ?_ ?_ howner
      (guarded_of_run hrun)
    · intro m op h hsome
      obtain ⟨⟨ret, m'⟩, hst⟩ := Option.isSome_iff_exists.mp hsome
      constructor
      · rintro ⟨ret', m₁, hst', howned⟩
        exact (h.exec howns hst').1.mp howned
      · intro hsafe
        exact ⟨ret, m', hst, (h.exec howns hst).1.mpr hsafe⟩
    · intro m op ret m' h _ hst howned
      exact (h.exec howns hst).2 ((h.exec howns hst).1.mp howned)

/-! ## 5. Maps from strings -/

omit [DecidableEq β] in
theorem growth_full : ∀ e ∈ growth, 3 * e.2.1 / 4 = capacity → 2147483647 < 3 * e.1 := by decide

omit [DecidableEq β] in
/-- What a put into such a map releases, and that a full map takes nothing more. -/
theorem Easy.easyPut_heap {m m' : Hmap (List Char) β} (h : Easy m) (howner : Owner (easyOpts β) m)
    {key : List Char} {val : β} {ret : Ret} (hput : m.easyPut key val = some (ret, m')) :
    Owner (easyOpts β) m' ∧ (m'.freed = if ret = .errExists then ⟨m.brk, key, val⟩ :: m.freed
      else m.freed) ∧ (m.sz = capacity → ret = .errFail) := by
  obtain ⟨⟨res, m₁⟩, hput₁, hend⟩ := Option.bind_eq_some_iff.mp hput
  obtain ⟨rfl, rfl⟩ := Prod.mk.inj (Option.some.inj hend)
  obtain ⟨howner', hfreed⟩ := howner.put_plain rfl rfl rfl h.distinct hput₁
  refine ⟨howner', hfreed, fun hsz => ?_⟩
  have hpol : m.opts.policy = .none := howner.live.held.policy
  have hbound := (growth_bound _ h.grown).1
  have hroom := h.room
  rw [h.threshold_eq] at hroom
  dsimp only at hbound
  have hthr : 3 * m.size / 4 = capacity := by omega
  have hlast := growth_full _ h.grown hthr
  have hfull : m.threshold ≤ m.sz := by
    rw [h.threshold_eq, hsz]
    exact hbound
  by_contra hret
  exact (((howner.put hput₁).goes.mp hret).resize hpol hfull).1 ⟨hfull, .inr hlast⟩

/-! ## 6. Runs on natural numbers -/

instance (m : Hmap κ β) (val : Option β) (m' : Hmap κ β) : Decidable (Released m val m') :=
  inferInstanceAs (Decidable (_ ∧ _))

section

variable [DecidableEq κ]

instance (m : Hmap κ β) (k : κ) : Decidable (Evictable m k) :=
  match hv : victim m.opts m.queue with
  | some (e, _) => decidable_of_iff (k = e.ho.key ∨ Has m e.ho.key) (by rw [Evictable, hv])
  | none => isFalse (by simp [Evictable, hv])

instance (m : Hmap κ β) (obj : Obj κ β) : Decidable (PlaceHarmless m obj) :=
  decidable_of_iff
    ((m.opts.policy ≠ .none → m.opts.max ≤ m.sz → Adds m obj.key → Evictable m obj.key) ∧
      (m.opts.policy ≠ .none → Stores m obj.key → ¬ PushFails m obj.pqe))
    ⟨fun h => ⟨h.1, h.2⟩, fun h => ⟨h.evict, h.entry⟩⟩

instance (m : Hmap κ β) (obj : Obj κ β) (mem : Mem) : Decidable (PutGoes m obj mem) :=
  have : Decidable (Distinct (hos m)) := inferInstanceAs (Decidable (List.Nodup _))
  have : Decidable (ResizeFails m mem) := inferInstanceAs (Decidable (_ ∧ (_ ∨ _)))
  decidable_of_iff (PlaceHarmless m obj ∧
      (m.opts.policy = .none → m.threshold ≤ m.sz → ¬ ResizeFails m mem ∧
        (m.opts.noOverwrite = true → Distinct (hos m))) ∧
      (m.opts.policy ≠ .none → ¬ Full m obj.key))
    ⟨fun h => ⟨h.1, h.2.1, h.2.2⟩, fun h => ⟨h.toPlaceHarmless, h.resize, h.full⟩⟩

instance (m : Hmap κ β) (key : Option κ) (val : Option β) (mem : EasyMem) :
    Decidable (EasyGoes m key val mem) :=
  decidable_of_iff (key ≠ none ∧ val ≠ none ∧ mem.obj = true ∧
      ∀ k ∈ key, ∀ v ∈ val, PutGoes (m.oNew k v).2 (m.oNew k v).1 mem.resize)
    ⟨fun h => ⟨h.1, h.2.1, h.2.2.1, h.2.2.2⟩, fun h => ⟨h.hasKey, h.hasVal, h.obj, h.put⟩⟩

instance (m : Hmap κ β) : ∀ op, Decidable (EasySound m op)
  | .put key val mem => inferInstanceAs (Decidable (EasyGoes m key val mem ∧
      (m.opts.policy ≠ .none → ∀ k ∈ key, ∀ v ∈ val, Sound (m.oNew k v).2 (m.oNew k v).1)))
  | .get k => inferInstanceAs (Decidable (m.opts.policy = .lfu → Counts m k))
  | .del _ => inferInstanceAs (Decidable True)
  | .clear => inferInstanceAs (Decidable True)

end

/-- A cache that does not overwrite. -/
def keepOpts : Opts Nat Char := { cacheOpts .fifo with noOverwrite := true }

theorem keepOpts_lawful : Lawful keepOpts :=
  ⟨(cacheOpts_lawful .fifo).hash_lt, (cacheOpts_lawful .fifo).comp_zero,
    (cacheOpts_lawful .fifo).comp_order⟩

/-- A new map with these options. -/
def keepMap : Hmap Nat Char := { cacheMap .fifo with opts := keepOpts }

theorem new_keepOpts : new keepOpts 0 [] = some keepMap := rfl

/-- Puts that are refused for their keys, before and after an eviction, and a del. -/
def knownRun : List (EasyOp Nat Char) :=
  [.put (some 1) (some 'a') enough, .put (some 14) (some 'b') enough,
    .put (some 1) (some 'c') enough, .get 14, .put (some 3) (some 'd') enough,
    .put (some 3) (some 'e') enough, .del 14, .put (some 1) (some 'f') enough, .clear]

theorem easy_put_owner_nat : Always EasyOp.exec EasyOwns keepMap knownRun :=
  (easy_put_owner_iff keepOpts_lawful rfl new_keepOpts).1 (by decide +kernel)

/-- Two puts fill the map, and it is cleared. -/
def emptiedRun : List (EasyOp Nat Char) :=
  [.put (some 1) (some 'a') enough, .put (some 14) (some 'b') enough, .clear]

/-- The put after that returns `U_HMAP_ERR_FAIL`, and nothing is released. -/
theorem easy_put_keeps : ¬ Always EasyOp.exec EasyOwns (cacheMap .fifo)
    (emptiedRun ++ [.put (some 3) (some 'c') enough]) := by
  intro h
  have hlast : (run EasyOp.exec (cacheMap .fifo) emptiedRun).bind (fun p =>
      (EasyOp.exec p.2 (.put (some 3) (some 'c') enough)).map fun q =>
        (q.1, decide (Released p.2 (some 'c') q.2))) = some (.errFail, false) := by
    decide +kernel
  obtain ⟨⟨rs, m₁⟩, hrun, hput⟩ := Option.bind_eq_some_iff.mp hlast
  obtain ⟨⟨ret, m₂⟩, hst, heq⟩ := Option.map_eq_some_iff.mp hput
  obtain ⟨rfl, hnot⟩ : ret = .errFail ∧ ¬ Released m₁ (some 'c') m₂ := by simpa using heq
  obtain ⟨ret', m₂', hst', howned⟩ := h.last _ _ hrun
  obtain ⟨rfl, rfl⟩ : Ret.errFail = ret' ∧ m₂ = m₂' := by simpa [hst] using hst'
  exact hnot (howned (by decide))

end Libu.Hmap
