/-
# The policy queue of a hash map

A map with a discard policy keeps, besides its table, a queue with one entry for every object.
`Queued` is the invariant that ties the two together: the pairs (entry address, object) read off
the table and read off the queue are the same.  From it every call on the queue is an operation
on a list (`enqueue`, `victim`, `touch`).

Entries and objects point at each other: an object has the address of its entry, and an entry knows
its object, by the address and the key that it had when it was pushed.  Every lemma here is about
the list of these pairs, up to its order where the table is concerned and with it where the queue
is, so that neither a bucket nor the links of the queue are looked at again.

* `put_queued`: what a put makes of queue and count (`PutQ`), if its eviction deletes the victim.
* `get_queued`: what a get makes of the queue, if no use count overflows.
-/
import Libu.Hmap.Table

namespace Libu.Hmap

open Verif
open scoped List

variable {κ β : Type} {m : Hmap κ β} {opts : Opts κ β}

/-! ## 1. The queue as a list -/

/-- What an object knows about its entry. -/
def Obj.link (o : Obj κ β) : Option Nat × Ho κ β := (o.pqe, o.toHo)

/-- What an entry knows about its object. -/
def QEntry.link (e : QEntry κ β) : Option Nat × Ho κ β := (some e.ptr, e.ho)

/-- The queue `q` with the new entry `e`. -/
def enqueue (opts : Opts κ β) (e : QEntry κ β) (q : List (QEntry κ β)) : List (QEntry κ β) :=
  match opts.policy, opts.fPcyCmp with
  | .custom, some cmp =>
    q.takeWhile (fun x => cmp e.ho.val x.ho.val < 0) ++
      e :: q.dropWhile fun x => cmp e.ho.val x.ho.val < 0
  | _, _ => e :: q

/-- The entry that an eviction takes, and the rest of the queue. -/
def victim (opts : Opts κ β) (q : List (QEntry κ β)) :
    Option (QEntry κ β × List (QEntry κ β)) :=
  match opts.policy with
  | .lfu => match q with
    | [] => none
    | e :: q => some (e, q)
  | _ => q.getLast?.map fun e => (e, q.dropLast)

/-- The queue `q₁ ++ e :: q₂` after a get of the object of `e`. -/
def touch (opts : Opts κ β) (q₁ : List (QEntry κ β)) (e : QEntry κ β) (q₂ : List (QEntry κ β)) :
    List (QEntry κ β) :=
  match opts.policy with
  | .lru => e :: (q₁ ++ q₂)
  | .lfu => q₁ ++ q₂.takeWhile (fun x => x.data ≤ e.data + 1) ++
      { e with data := e.data + 1 } :: q₂.dropWhile fun x => x.data ≤ e.data + 1
  | _ => q₁ ++ e :: q₂

theorem enqueue_perm (opts : Opts κ β) (e : QEntry κ β) (q : List (QEntry κ β)) :
    enqueue opts e q ~ e :: q := by
  unfold enqueue
  split
  · refine List.perm_middle.trans ?_
    rw [List.takeWhile_append_dropWhile]
  · exact List.Perm.refl _

theorem victim_perm {q q' : List (QEntry κ β)} {e : QEntry κ β}
    (h : victim opts q = some (e, q')) : q ~ e :: q' := by
  unfold victim at h
  split at h
  · cases q with
    | nil => cases h
    | cons x q =>
      obtain ⟨rfl, rfl⟩ := Prod.mk.inj (Option.some.inj h)
      exact List.Perm.refl _
  · obtain ⟨x, hx, heq⟩ := Option.map_eq_some_iff.mp h
    obtain ⟨rfl, rfl⟩ := Prod.mk.inj heq
    have hlast := List.dropLast_append_getLast? x hx
    exact (List.Perm.of_eq hlast.symm).trans (List.perm_append_singleton x _)

theorem victim_eq_none {q : List (QEntry κ β)} : victim opts q = none ↔ q = [] := by
  unfold victim
  split
  · cases q <;> simp
  · simp

/-- A get moves an entry and may count it, but links stay as they are. -/
theorem touch_links (opts : Opts κ β) (q₁ : List (QEntry κ β)) (e : QEntry κ β)
    (q₂ : List (QEntry κ β)) :
    (touch opts q₁ e q₂).map QEntry.link ~ (q₁ ++ e :: q₂).map QEntry.link := by
  unfold touch
  split
  · exact (List.perm_middle.symm : e :: (q₁ ++ q₂) ~ q₁ ++ e :: q₂).map _
  · rw [List.append_assoc, List.map_append, @List.map_append _ _ QEntry.link q₁ (e :: q₂)]
    refine List.Perm.append_left _ ?_
    have hmid := @List.perm_middle _ { e with data := e.data + 1 }
      (q₂.takeWhile fun x => x.data ≤ e.data + 1) (q₂.dropWhile fun x => x.data ≤ e.data + 1)
    rw [List.takeWhile_append_dropWhile] at hmid
    exact hmid.map _
  · exact List.Perm.refl _

theorem splitQueue_some {p : Nat} : ∀ {q q₁ q₂ : List (QEntry κ β)} {e : QEntry κ β},
    splitQueue p q = some (q₁, e, q₂) → q = q₁ ++ e :: q₂ ∧ e.ptr = p
  | [], _, _, _, h => by cases h
  | x :: q, q₁, q₂, e, h => by
    rw [splitQueue] at h
    split at h
    · next hx =>
      obtain ⟨rfl, rfl, rfl⟩ : [] = q₁ ∧ x = e ∧ q = q₂ := by simpa using h
      exact ⟨rfl, hx⟩
    · obtain ⟨⟨q₃, e', q₄⟩, hsplit, heq⟩ := Option.map_eq_some_iff.mp h
      obtain ⟨rfl, rfl, rfl⟩ : x :: q₃ = q₁ ∧ e' = e ∧ q₄ = q₂ := by simpa using heq
      obtain ⟨rfl, he⟩ := splitQueue_some hsplit
      exact ⟨rfl, he⟩

theorem splitQueue_spec {p : Nat} : ∀ {q : List (QEntry κ β)}, p ∈ q.map QEntry.ptr →
    ∃ q₁ e q₂, splitQueue p q = some (q₁, e, q₂) ∧ q = q₁ ++ e :: q₂ ∧ e.ptr = p
  | [], h => by cases h
  | x :: q, h => by
    by_cases hx : x.ptr = p
    · exact ⟨[], x, q, by simp [splitQueue, hx], rfl, hx⟩
    · have hp : p ∈ q.map QEntry.ptr := by
        rcases List.mem_cons.mp h with rfl | h
        · exact absurd rfl hx
        · exact h
      obtain ⟨q₁, e, q₂, hsplit, rfl, he⟩ := splitQueue_spec hp
      exact ⟨x :: q₁, e, q₂, by simp [splitQueue, hx, hsplit], rfl, he⟩

/-! ## 2. The pairs of objects and entries -/

/-- No address is used twice, all are below `brk`, and no object of the list is released. -/
structure LinksOk (l : List (Option Nat × Ho κ β)) (brk : Nat) (freed : List (Ho κ β)) :
    Prop where
  nodup_ho : (l.map fun x => x.2.ptr).Nodup
  nodup_ptr : (l.map Prod.fst).Nodup
  ho_lt : ∀ x ∈ l, x.2.ptr < brk
  ptr_lt : ∀ x ∈ l, ∃ p < brk, x.1 = some p
  alive : ∀ x ∈ l, x.2.ptr ∉ freed.map Ho.ptr
  freed_lt : ∀ p ∈ freed.map Ho.ptr, p < brk

section Links

variable {l l' : List (Option Nat × Ho κ β)} {brk : Nat} {freed : List (Ho κ β)}

theorem LinksOk.perm (h : LinksOk l brk freed) (p : l ~ l') : LinksOk l' brk freed :=
  ⟨(p.map _).nodup_iff.mp h.nodup_ho, (p.map _).nodup_iff.mp h.nodup_ptr,
    fun x hx => h.ho_lt x (p.mem_iff.mpr hx), fun x hx => h.ptr_lt x (p.mem_iff.mpr hx),
    fun x hx => h.alive x (p.mem_iff.mpr hx), h.freed_lt⟩

theorem LinksOk.tail {x : Option Nat × Ho κ β} (h : LinksOk (x :: l) brk freed) :
    LinksOk l brk freed :=
  ⟨(List.nodup_cons.mp h.nodup_ho).2, (List.nodup_cons.mp h.nodup_ptr).2,
    fun y hy => h.ho_lt y (List.mem_cons_of_mem _ hy),
    fun y hy => h.ptr_lt y (List.mem_cons_of_mem _ hy),
    fun y hy => h.alive y (List.mem_cons_of_mem _ hy), h.freed_lt⟩

/-- The heap grows. -/
theorem LinksOk.brk_le (h : LinksOk l brk freed) {brk' : Nat} (hle : brk ≤ brk') :
    LinksOk l brk' freed :=
  ⟨h.nodup_ho, h.nodup_ptr, fun x hx => (h.ho_lt x hx).trans_le hle,
    fun x hx => (h.ptr_lt x hx).imp fun _ hp => ⟨hp.1.trans_le hle, hp.2⟩, h.alive,
    fun p hp => (h.freed_lt p hp).trans_le hle⟩

/-- An object of no entry is released. -/
theorem LinksOk.free (h : LinksOk l brk freed) {ho : Ho κ β} (hlt : ho.ptr < brk)
    (hno : ho.ptr ∉ l.map fun x => x.2.ptr) : LinksOk l brk (ho :: freed) := by
  refine ⟨h.nodup_ho, h.nodup_ptr, h.ho_lt, h.ptr_lt, ?_, ?_⟩
  · intro x hx hmem
    rcases List.mem_cons.mp hmem with heq | hmem
    · exact hno (List.mem_map.mpr ⟨x, hx, heq⟩)
    · exact h.alive x hx hmem
  · intro p hp
    rcases List.mem_cons.mp hp with rfl | hp
    · exact hlt
    · exact h.freed_lt p hp

/-- An object that nothing refers to yet. -/
structure FreshHo (l : List (Option Nat × Ho κ β)) (brk : Nat) (freed : List (Ho κ β))
    (ho : Ho κ β) : Prop where
  lt : ho.ptr < brk
  not_mem : ho.ptr ∉ l.map fun x => x.2.ptr
  alive : ho.ptr ∉ freed.map Ho.ptr

/-- A new entry, with the next address, for a new object. -/
theorem LinksOk.cons (h : LinksOk l brk freed) {ho : Ho κ β} (hf : FreshHo l brk freed ho) :
    LinksOk ((some brk, ho) :: l) (brk + 1) freed := by
  have hnew : some brk ∉ l.map Prod.fst := by
    intro hmem
    obtain ⟨x, hx, heq⟩ := List.mem_map.mp hmem
    obtain ⟨p, hp, hxp⟩ := h.ptr_lt x hx
    rw [hxp, Option.some.injEq] at heq
    omega
  have h' := h.brk_le (Nat.le_succ brk)
  refine ⟨List.nodup_cons.mpr ⟨hf.not_mem, h.nodup_ho⟩, List.nodup_cons.mpr ⟨hnew, h.nodup_ptr⟩,
    ?_, ?_, ?_, h'.freed_lt⟩
  · exact List.forall_mem_cons.mpr ⟨Nat.lt_succ_of_lt hf.lt, h'.ho_lt⟩
  · exact List.forall_mem_cons.mpr ⟨⟨brk, Nat.lt_succ_self brk, rfl⟩, h'.ptr_lt⟩
  · exact List.forall_mem_cons.mpr ⟨hf.alive, h.alive⟩

end Links

/-- The pairs read off the table. -/
def links (m : Hmap κ β) : List (Option Nat × Ho κ β) := (stored m).map Obj.link

/-- **The invariant of a map with a policy.** -/
structure Queued (m : Hmap κ β) : Prop extends Table m where
  policy : m.opts.policy ≠ .none
  ready : optsCheck m.opts = true
  perm : links m ~ m.queue.map QEntry.link
  ok : LinksOk (links m) m.brk m.freed
  whole : ∀ e ∈ m.queue, e.bare = false

theorem Queued.entry_of_mem (h : Queued m) {o : Obj κ β} (ho : o ∈ stored m) :
    ∃ e ∈ m.queue, o.pqe = some e.ptr ∧ o.toHo = e.ho := by
  have hmem : o.link ∈ m.queue.map QEntry.link := h.perm.mem_iff.mp (List.mem_map_of_mem ho)
  obtain ⟨e, he, heq⟩ := List.mem_map.mp hmem
  obtain ⟨hp, hh⟩ := Prod.mk.inj heq
  exact ⟨e, he, hp.symm, hh.symm⟩

theorem Queued.stored_of_mem (h : Queued m) {e : QEntry κ β} (he : e ∈ m.queue) :
    ∃ o ∈ stored m, o.toHo = e.ho := by
  have hmem : e.link ∈ links m := h.perm.mem_iff.mpr (List.mem_map_of_mem he)
  obtain ⟨o, ho, heq⟩ := List.mem_map.mp hmem
  exact ⟨o, ho, (Prod.mk.inj heq).2⟩

theorem Queued.queue_ok (h : Queued m) : LinksOk (m.queue.map QEntry.link) m.brk m.freed :=
  h.ok.perm h.perm

/-- The heap after an object has left the map. -/
theorem LinksOk.release {l : List (Option Nat × Ho κ β)} {brk : Nat} {freed : List (Ho κ β)}
    (h : LinksOk l brk freed) (opts : Opts κ β) {ho : Ho κ β} (hlt : ho.ptr < brk)
    (hno : ho.ptr ∉ l.map fun x => x.2.ptr) : LinksOk l brk (released opts ho freed) := by
  unfold released
  split
  · exact h.free hlt hno
  · exact h

/-! ## 3. Queue operations -/

theorem insertCmp_eq {cmp : β → β → Int} {new : QEntry κ β} : ∀ {q : List (QEntry κ β)},
    (∀ e ∈ q, m.alive e.ho = true) →
    insertCmp m cmp new q = some (q.takeWhile (fun x => cmp new.ho.val x.ho.val < 0) ++
      new :: q.dropWhile fun x => cmp new.ho.val x.ho.val < 0)
  | [], _ => rfl
  | e :: q, h => by
    obtain ⟨he, hq⟩ := List.forall_mem_cons.mp h
    rw [insertCmp, he]
    by_cases hlt : cmp new.ho.val e.ho.val < 0
    · simp [hlt, insertCmp_eq hq, Int.not_le.mpr hlt]
    · simp [hlt, Int.not_lt.mp hlt]

/-- The walk of a count reads the entries up to the first that is used more often. -/
theorem countWalk_eq {count : Int} : ∀ {q : List (QEntry κ β)}, (∀ e ∈ q, e.bare = false) →
    countWalk count q = some (q.takeWhile (fun x => x.data ≤ count),
      q.dropWhile fun x => x.data ≤ count)
  | [], _ => rfl
  | e :: q, h => by
    obtain ⟨he, hq⟩ := List.forall_mem_cons.mp h
    rw [countWalk, he]
    by_cases hle : e.data ≤ count
    · simp [hle, countWalk_eq hq]
    · simp [hle]

theorem countWalk_append {count : Int} : ∀ {q low high : List (QEntry κ β)},
    countWalk count q = some (low, high) → q = low ++ high
  | [], _, _, h => by
    obtain ⟨rfl, rfl⟩ := Prod.mk.inj (Option.some.inj h)
    rfl
  | e :: q, low, high, h => by
    rw [countWalk] at h
    split at h
    · cases h
    · split at h
      · obtain ⟨⟨q₁, q₂⟩, hwalk, heq⟩ := Option.map_eq_some_iff.mp h
        obtain ⟨rfl, rfl⟩ := Prod.mk.inj heq
        rw [countWalk_append hwalk]
        rfl
      · obtain ⟨rfl, rfl⟩ := Prod.mk.inj (Option.some.inj h)
        rfl

theorem insertCmp_perm {cmp : β → β → Int} {new : QEntry κ β} : ∀ {q q' : List (QEntry κ β)},
    insertCmp m cmp new q = some q' → q' ~ new :: q
  | [], q', h => by
    obtain rfl := Option.some.inj h
    exact List.Perm.refl _
  | e :: q, q', h => by
    rw [insertCmp] at h
    split at h
    · cases h
    · split at h
      · obtain rfl := Option.some.inj h
        exact List.Perm.refl _
      · obtain ⟨q₁, hq₁, rfl⟩ := Option.map_eq_some_iff.mp h
        exact ((insertCmp_perm hq₁).cons e).trans (List.Perm.swap new e q)

/-- There is memory for a queue entry at the next address. -/
def Supplied (m : Hmap κ β) : Prop :=
  m.avail m.brk ≠ .noEntry ∧ (m.opts.policy = .lfu → m.avail m.brk ≠ .noData)

instance (m : Hmap κ β) : Decidable (Supplied m) := inferInstanceAs (Decidable (_ ∧ _))

/-- A push of an object with the entry `pqe` fails: there is no memory for a new one, or the policy
does not move entries. -/
def PushFails (m : Hmap κ β) (pqe : Option Nat) : Prop :=
  pqe = none ∧ ¬ Supplied m ∨ m.opts.policy = .custom ∧ pqe ≠ none

instance (m : Hmap κ β) (pqe : Option Nat) : Decidable (PushFails m pqe) :=
  inferInstanceAs (Decidable (_ ∨ _))

/-- The queue `q'` refers to the objects of `q`, and to `ho`. -/
def RefersTo (q : List (QEntry κ β)) (ho : Ho κ β) (q' : List (QEntry κ β)) : Prop :=
  ∀ e ∈ q', e.ho = ho ∨ ∃ x ∈ q, x.ho = e.ho

theorem RefersTo.of_subset {q q' : List (QEntry κ β)} {ho : Ho κ β} (h : q' ⊆ q) :
    RefersTo q ho q' := fun e he => .inr ⟨e, h he, rfl⟩

theorem RefersTo.cons {q q' : List (QEntry κ β)} {ho : Ho κ β} {new : QEntry κ β}
    (hnew : new.ho = ho) (h : q' ~ new :: q) : RefersTo q ho q' := by
  intro e he
  rcases List.mem_cons.mp (h.mem_iff.mp he) with rfl | he
  · exact .inl hnew
  · exact .inr ⟨e, he, rfl⟩

/-- What a push may do: it changes the queue, and may take an address. -/
structure PushShape (m : Hmap κ β) (ho : Ho κ β) (pqe : Option Nat) (ret : Ret) (m' : Hmap κ β) :
    Prop where
  eq : ∃ queue brk, m' = { m with queue, brk } ∧ m.brk ≤ brk ∧ RefersTo m.queue ho queue
  fails : PushFails m pqe → ret = .errFail
  goes : ¬ PushFails m pqe → ret = .errNone

/-- A push that gets no memory for an entry. -/
theorem PushShape.no_entry (hno : m.avail m.brk = .noEntry) (ho : Ho κ β) :
    PushShape m ho none .errFail { m with brk := m.brk + 1 } := by
  refine ⟨⟨m.queue, _, rfl, Nat.le_succ _, .of_subset (List.Subset.refl _)⟩, fun _ => rfl, ?_⟩
  intro hgo
  exact absurd (.inl ⟨rfl, fun hsup => hsup.1 hno⟩) hgo

/-- A push that makes an entry, wherever in the queue it goes. -/
theorem PushShape.entered (hsup : Supplied m) {ho : Ho κ β} {queue : List (QEntry κ β)}
    (hperm : queue ~ ⟨m.brk, ho, 0, false⟩ :: m.queue) :
    PushShape m ho none .errNone { m with queue, brk := m.brk + 1 } := by
  refine ⟨⟨_, _, rfl, Nat.le_succ _, .cons rfl hperm⟩, ?_, fun _ => rfl⟩
  rintro (⟨-, hno⟩ | ⟨-, hsome⟩)
  · exact absurd hsup hno
  · exact absurd rfl hsome

/-- A push that moves the entry that the object has. -/
theorem PushShape.moved (hne : m.opts.policy ≠ .custom) {ho : Ho κ β} {p : Nat}
    {queue : List (QEntry κ β)} (hrefers : RefersTo m.queue ho queue) :
    PushShape m ho (some p) .errNone { m with queue } := by
  refine ⟨⟨_, _, rfl, Nat.le_refl _, hrefers⟩, ?_, fun _ => rfl⟩
  rintro (⟨hnone, -⟩ | ⟨hcustom, -⟩)
  · cases hnone
  · exact absurd hcustom hne

theorem exists_fPcyCmp (hready : optsCheck m.opts = true) (hcustom : m.opts.policy = .custom) :
    ∃ cmp, m.opts.fPcyCmp = some cmp := by
  simp only [optsCheck, hcustom, Bool.and_eq_true, decide_eq_true_eq, ne_eq, not_true_eq_false,
    decide_false, Bool.false_or] at hready
  exact Option.isSome_iff_exists.mp hready.2

/-- The walk of a custom policy meets no released object. -/
def Walks (m : Hmap κ β) : Prop :=
  m.opts.policy = .custom → ∀ e ∈ m.queue, m.alive e.ho = true

/-- A push of a new object adds an entry with the next address, if there is memory for it. -/
theorem push_new (hpol : m.opts.policy ≠ .none) (hready : optsCheck m.opts = true)
    (hsup : Supplied m) {ho : Ho κ β} (hho : m.alive ho = true) (hwalks : Walks m) :
    m.push ho none = some (.errNone, some m.brk,
      { m with queue := enqueue m.opts ⟨m.brk, ho, 0, false⟩ m.queue, brk := m.brk + 1 }) := by
  obtain ⟨hentry, hdata⟩ := hsup
  have hnew : m.qONew ho = (some ⟨m.brk, ho, 0, false⟩, { m with brk := m.brk + 1 }) := by
    rw [qONew, if_neg hentry]
  rw [push, hho]
  cases hcase : m.opts.policy with
  | none => exact absurd hcase hpol
  | fifo => simp [queuePush, hnew, enqueue, hcase]
  | lru => simp [queuePush, hnew, enqueue, hcase]
  | lfu => simp [queuePushCount, hnew, enqueue, hcase, hdata hcase]
  | custom =>
    obtain ⟨cmp, hcmp⟩ := exists_fPcyCmp hready hcase
    have hins := @insertCmp_eq _ _ { m with brk := m.brk + 1 } cmp ⟨m.brk, ho, 0, false⟩ m.queue
      (hwalks hcase)
    simp [queuePushCmp, hnew, enqueue, hcase, hcmp, hins]

theorem opPut_of_ne (hpol : m.opts.policy ≠ .none) : opPut m.opts.policy = true := by
  cases hcase : m.opts.policy <;> simp_all [opPut]

theorem queuePush_shape (hpol : m.opts.policy ≠ .lfu) (hne : m.opts.policy ≠ .custom) {ho : Ho κ β}
    {ret : Ret} {pqe pqe' : Option Nat} {m' : Hmap κ β}
    (h : m.queuePush ho pqe = some (ret, pqe', m')) : PushShape m ho pqe ret m' := by
  cases pqe with
  | none =>
    unfold queuePush qONew at h
    by_cases hno : m.avail m.brk = .noEntry
    · obtain ⟨rfl, -, rfl⟩ : Ret.errFail = ret ∧ none = pqe' ∧
          { m with brk := m.brk + 1 } = m' := by
        simpa [hno] using h
      exact .no_entry hno ho
    · obtain ⟨rfl, -, rfl⟩ : Ret.errNone = ret ∧ some m.brk = pqe' ∧
          { m with queue := ⟨m.brk, ho, 0, false⟩ :: m.queue, brk := m.brk + 1 } = m' := by
        simpa [hno] using h
      exact .entered ⟨hno, fun hlfu => absurd hlfu hpol⟩ (List.Perm.refl _)
  | some p =>
    obtain ⟨⟨q₁, e, q₂⟩, hsplit, h⟩ := Option.bind_eq_some_iff.mp h
    obtain ⟨rfl, -, rfl⟩ : Ret.errNone = ret ∧ some p = pqe' ∧
      { m with queue := e :: (q₁ ++ q₂) } = m' := by simpa using h
    obtain ⟨hq, -⟩ := splitQueue_some hsplit
    refine .moved hne (.of_subset fun x hx => ?_)
    rw [hq]
    exact (List.perm_middle (a := e)).mem_iff.mpr hx

theorem queuePushCount_shape (hpol : m.opts.policy = .lfu) {ho : Ho κ β} {ret : Ret}
    {pqe pqe' : Option Nat} {m' : Hmap κ β}
    (h : m.queuePushCount ho pqe = some (ret, pqe', m')) : PushShape m ho pqe ret m' := by
  cases pqe with
  | none =>
    unfold queuePushCount qONew at h
    by_cases hno : m.avail m.brk = .noEntry
    · obtain ⟨rfl, -, rfl⟩ : Ret.errFail = ret ∧ none = pqe' ∧
          { m with brk := m.brk + 1 } = m' := by
        simpa [hno] using h
      exact .no_entry hno ho
    · by_cases hbare : m.avail m.brk = .noData
      · obtain ⟨rfl, -, rfl⟩ : Ret.errFail = ret ∧ none = pqe' ∧
            { m with queue := ⟨m.brk, ho, 0, true⟩ :: m.queue, brk := m.brk + 1 } = m' := by
          simpa [hbare] using h
        exact ⟨⟨_, _, rfl, Nat.le_succ _, .cons rfl (List.Perm.refl _)⟩, fun _ => rfl,
          fun hgo => absurd (.inl ⟨rfl, fun hsup => hsup.2 hpol hbare⟩) hgo⟩
      · obtain ⟨rfl, -, rfl⟩ : Ret.errNone = ret ∧ some m.brk = pqe' ∧
            { m with queue := ⟨m.brk, ho, 0, false⟩ :: m.queue, brk := m.brk + 1 } = m' := by
          simpa [hno, hbare] using h
        exact .entered ⟨hno, fun _ => hbare⟩ (List.Perm.refl _)
  | some p =>
    obtain ⟨⟨q₁, e, q₂⟩, hsplit, h⟩ := Option.bind_eq_some_iff.mp h
    dsimp only at h
    split at h
    · cases h
    · obtain ⟨⟨low, high⟩, hwalk, h⟩ := Option.bind_eq_some_iff.mp h
      obtain ⟨rfl, -, rfl⟩ : Ret.errNone = ret ∧ some p = pqe' ∧
          { m with queue := q₁ ++ low ++ { e with data := e.data + 1 } :: high } = m' := by
        simpa using h
      obtain ⟨hq, -⟩ := splitQueue_some hsplit
      have hq₂ := countWalk_append hwalk
      refine .moved (by simp [hpol]) fun x hx => .inr ?_
      -- the count of the entry changes, not its object
      rcases List.mem_cons.mp (List.perm_middle.mem_iff.mp hx) with rfl | hx
      · exact ⟨e, by rw [hq]; simp, rfl⟩
      · refine ⟨x, ?_, rfl⟩
        rw [hq, hq₂, List.perm_middle.mem_iff, ← List.append_assoc]
        exact List.mem_cons_of_mem _ hx

theorem queuePushCmp_shape (hpol : m.opts.policy = .custom) {ho : Ho κ β} {ret : Ret}
    {pqe pqe' : Option Nat} {m' : Hmap κ β}
    (h : m.queuePushCmp ho pqe = some (ret, pqe', m')) : PushShape m ho pqe ret m' := by
  cases pqe with
  | none =>
    unfold queuePushCmp qONew at h
    by_cases hno : m.avail m.brk = .noEntry
    · obtain ⟨rfl, -, rfl⟩ : Ret.errFail = ret ∧ none = pqe' ∧
          { m with brk := m.brk + 1 } = m' := by
        simpa [hno] using h
      exact .no_entry hno ho
    · rw [if_neg hno] at h
      obtain ⟨cmp, -, h⟩ := Option.bind_eq_some_iff.mp h
      obtain ⟨queue, hins, h⟩ := Option.bind_eq_some_iff.mp h
      obtain ⟨rfl, -, rfl⟩ : Ret.errNone = ret ∧ some m.brk = pqe' ∧
        { m with queue, brk := m.brk + 1 } = m' := by simpa using h
      exact .entered ⟨hno, fun hlfu => by simp [hpol] at hlfu⟩ (insertCmp_perm hins)
  | some p =>
    obtain ⟨rfl, -, rfl⟩ : Ret.errFail = ret ∧ some p = pqe' ∧ m = m' := by
      simpa [queuePushCmp] using h
    exact ⟨⟨_, _, rfl, Nat.le_refl _, .of_subset (List.Subset.refl _)⟩, fun _ => rfl,
      fun hgo => absurd (.inr ⟨hpol, Option.some_ne_none p⟩) hgo⟩

/-- **What a push may do**, whatever it is given. -/
theorem push_shape {ho : Ho κ β} {ret : Ret} {pqe pqe' : Option Nat} {m' : Hmap κ β}
    (h : m.push ho pqe = some (ret, pqe', m')) : PushShape m ho pqe ret m' := by
  unfold push at h
  split at h
  · cases h
  · cases hpol : m.opts.policy <;> rw [hpol] at h <;> dsimp only at h
    · cases h
    · exact queuePush_shape (by simp [hpol]) (by simp [hpol]) h
    · exact queuePush_shape (by simp [hpol]) (by simp [hpol]) h
    · exact queuePushCount_shape hpol h
    · exact queuePushCmp_shape hpol h

/-- A push of an object that no entry of the queue is for fails, unless it makes one; if use counts
can be had, it changes nothing then. -/
theorem push_refused {ho : Ho κ β} {pqe pqe' : Option Nat} {ret : Ret} {m' : Hmap κ β}
    (hout : ∀ e ∈ m.queue, pqe ≠ some e.ptr) (hno : ¬ (pqe = none ∧ Supplied m))
    (hpush : m.push ho pqe = some (ret, pqe', m')) :
    ret = .errFail ∧
      ((m.opts.policy = .lfu → m.avail m.brk ≠ .noData) → ∃ brk, m' = { m with brk }) := by
  cases pqe with
  | none =>
    have hsup : ¬ Supplied m := fun hsup => hno ⟨rfl, hsup⟩
    refine ⟨(push_shape hpush).fails (.inl ⟨rfl, hsup⟩), fun hdata => ⟨m.brk + 1, ?_⟩⟩
    have hentry : m.avail m.brk = .noEntry := by
      by_contra hentry
      exact hsup ⟨hentry, hdata⟩
    have hsame : some (Ret.errFail, none, { m with brk := m.brk + 1 }) = some (ret, pqe', m') →
        m' = { m with brk := m.brk + 1 } := by
      intro heq
      exact (Prod.mk.inj (Prod.mk.inj (Option.some.inj heq)).2).2.symm
    unfold push at hpush
    split at hpush
    · cases hpush
    · cases hpol : m.opts.policy <;>
        simp only [hpol, queuePush, queuePushCount, queuePushCmp, qONew, if_pos hentry] at hpush
      · cases hpush
      all_goals exact hsame hpush
  | some p =>
    -- the entry is not there to be moved
    have hsplit : splitQueue p m.queue = none := by
      cases hcase : splitQueue p m.queue with
      | none => rfl
      | some r =>
        obtain ⟨q₁, e, q₂⟩ := r
        obtain ⟨hq, he⟩ := splitQueue_some hcase
        exact absurd (congrArg some he.symm) (hout e (by rw [hq]; simp))
    unfold push at hpush
    split at hpush
    · cases hpush
    · cases hpol : m.opts.policy <;>
        simp only [hpol, queuePush, queuePushCount, queuePushCmp, hsplit, Option.bind_eq_bind,
          Option.bind_none] at hpush
      case custom =>
        obtain ⟨rfl, -, rfl⟩ : Ret.errFail = ret ∧ some p = pqe' ∧ m = m' := by simpa using hpush
        exact ⟨rfl, fun _ => ⟨m.brk, rfl⟩⟩
      all_goals cases hpush

/-- An eviction deletes the object of the victim by its key. -/
theorem pop_eq (hpol : m.opts.policy ≠ .none) :
    m.pop = match victim m.opts m.queue with
      | none => some (⟨.errFail, none⟩, m)
      | some (e, q) => popEntry m e q := by
  unfold pop victim
  cases hcase : m.opts.policy with
  | none => exact absurd hcase hpol
  | lfu => cases hq : m.queue <;> simp [queuePopFront, hq]
  | fifo => cases hq : m.queue.getLast? <;> simp [queuePopBack, hq]
  | lru => cases hq : m.queue.getLast? <;> simp [queuePopBack, hq]
  | custom => cases hq : m.queue.getLast? <;> simp [queuePopBack, hq]

/-- The entry of a stored object, where `__queue_del` and a get find it. -/
theorem Queued.split (h : Queued m) {o : Obj κ β} (ho : o ∈ stored m) :
    ∃ p q₁ e q₂, o.pqe = some p ∧ splitQueue p m.queue = some (q₁, e, q₂) ∧
      m.queue = q₁ ++ e :: q₂ ∧ e.ptr = p ∧ e.ho = o.toHo := by
  obtain ⟨x, hx, hpqe, hho⟩ := h.entry_of_mem ho
  obtain ⟨q₁, e, q₂, hsplit, hq, he⟩ := splitQueue_spec (List.mem_map_of_mem hx)
  refine ⟨x.ptr, q₁, e, q₂, hpqe, hsplit, hq, he, ?_⟩
  have hnodup : (m.queue.map QEntry.ptr).Nodup := by
    have hn := h.queue_ok.nodup_ptr
    rw [List.map_map] at hn
    exact List.Nodup.of_map some (by rwa [List.map_map])
  have hmem : e ∈ m.queue := by rw [hq]; simp
  rw [hho, List.inj_on_of_nodup_map hnodup hmem hx he]

/-! ## 4. Puts -/

/-- `m'` has the options of `m`, and its memory. -/
structure Still (m m' : Hmap κ β) : Prop where
  opts : m'.opts = m.opts
  avail : m'.avail = m.avail

theorem Still.trans {m₁ m₂ : Hmap κ β} (h : Still m m₁) (h' : Still m₁ m₂) : Still m m₂ :=
  ⟨h'.opts.trans h.opts, h'.avail.trans h.avail⟩

/-- The object `obj` is linked, next to the objects `rest`, but it has no entry yet. -/
structure Waiting (m : Hmap κ β) (obj : Obj κ β) (rest : List (Obj κ β)) :
    Prop extends Table m where
  policy : m.opts.policy ≠ .none
  ready : optsCheck m.opts = true
  objs : stored m ~ obj :: rest
  perm : rest.map Obj.link ~ m.queue.map QEntry.link
  ok : LinksOk (rest.map Obj.link) m.brk m.freed
  fresh : FreshHo (rest.map Obj.link) m.brk m.freed obj.toHo
  whole : ∀ e ∈ m.queue, e.bare = false

theorem alive_of_not_mem {ho : Ho κ β} (h : ho.ptr ∉ m.freed.map Ho.ptr) : m.alive ho = true :=
  decide_eq_true h

/-- A queue whose pairs are sound can be walked. -/
theorem LinksOk.alive_queue {q : List (QEntry κ β)} {brk : Nat}
    (h : LinksOk (q.map QEntry.link) brk m.freed) : ∀ e ∈ q, m.alive e.ho = true :=
  fun _ he => alive_of_not_mem (h.alive _ (List.mem_map_of_mem he))

/-- The pairs once the waiting object has its entry. -/
theorem links_setPqe {obj : Obj κ β} {rest : List (Obj κ β)} (hobjs : stored m ~ obj :: rest)
    (hfresh : obj.ptr ∉ rest.map fun o => o.ptr) (p : Nat) :
    links (m.setPqe obj.ptr (some p)) ~ (some p, obj.toHo) :: rest.map Obj.link := by
  rw [links, stored_setPqe, List.map_map]
  refine (hobjs.map _).trans ?_
  have hrest : rest.map (Obj.link ∘ fun o => if o.ptr = obj.ptr then { o with pqe := some p }
    else o)
      = rest.map Obj.link := by
    refine List.map_congr_left ?_
    intro o ho
    have hne : o.ptr ≠ obj.ptr := fun heq => hfresh (List.mem_map.mpr ⟨o, ho, heq⟩)
    simp [hne]
  rw [List.map_cons, hrest]
  simp [Obj.link]

/-- The queue stays without bare entries. -/
theorem whole_enqueue (opts : Opts κ β) {p : Nat} {ho : Ho κ β} {q : List (QEntry κ β)}
    (h : ∀ e ∈ q, e.bare = false) : ∀ e ∈ enqueue opts ⟨p, ho, 0, false⟩ q, e.bare = false := by
  intro e he
  rcases List.mem_cons.mp ((enqueue_perm opts _ q).mem_iff.mp he) with rfl | he
  · rfl
  · exact h e he

/-- A waiting object is queued and counted, if there is memory for its entry. -/
theorem Waiting.putCount {obj : Obj κ β} {rest : List (Obj κ β)} (h : Waiting m obj rest)
    (hpqe : obj.pqe = none) (hsup : Supplied m) (old : Option (Ho κ β)) :
    ∃ m', m.putCount obj old = some (⟨.errNone, old⟩, m') ∧ Queued m' ∧ Still m m' ∧
      m'.queue = enqueue m.opts ⟨m.brk, obj.toHo, 0, false⟩ m.queue ∧ m'.sz = SizeT.add m.sz 1 := by
  have hput := opPut_of_ne h.policy
  have hpush := push_new h.policy h.ready hsup (alive_of_not_mem h.fresh.alive)
    fun _ => (h.ok.perm h.perm).alive_queue
  have hptrs : obj.ptr ∉ rest.map fun o => o.ptr := by
    have := h.fresh.not_mem
    rwa [List.map_map] at this
  have hlinks := @links_setPqe _ _ { m with
    queue := enqueue m.opts ⟨m.brk, obj.toHo, 0, false⟩ m.queue, brk :=
      m.brk + 1 } obj rest h.objs hptrs m.brk
  refine ⟨{ Hmap.setPqe { m with
    queue := enqueue m.opts ⟨m.brk, obj.toHo, 0, false⟩ m.queue, brk :=
      m.brk + 1 } obj.ptr (some m.brk) with
    sz := SizeT.add m.sz 1 }, ?_, ⟨?_, h.policy, h.ready, ?_, ?_, whole_enqueue _ h.whole⟩,
    ⟨rfl, rfl⟩, rfl, rfl⟩
  · rw [Hmap.putCount, hput, hpqe]
    simp only [if_true, hpush]
    rfl
  · exact (h.toTable.setPqe obj.ptr (some m.brk)).of_buckets rfl rfl rfl
  · refine hlinks.trans (((h.perm.cons _).trans ?_))
    exact ((enqueue_perm m.opts ⟨m.brk, obj.toHo, 0, false⟩ m.queue).map QEntry.link).symm
  · exact (h.ok.cons h.fresh).perm hlinks.symm

/-- What a put brings: an object that no bucket and no entry refers to. -/
def Fresh (m : Hmap κ β) (obj : Obj κ β) : Prop := FreshHo (links m) m.brk m.freed obj.toHo

/-- Linking an object lets it wait for its entry. -/
theorem Queued.waiting (h : Queued m) {obj : Obj κ β} (hf : Fresh m obj) {i : Nat}
    {before after : List (Obj κ β)} (hr : Room m obj.key i before after) :
    Waiting (m.setBucket i (before ++ obj :: after)) obj (stored m) :=
  ⟨hr.link obj rfl, h.policy, h.ready, stored_link hr.idx_lt hr.eq obj, h.perm, h.ok, hf, h.whole⟩

/-- A put that links its object into a map with room in the cache. -/
theorem put_added (h : Queued m) {obj : Obj κ β} (hf : Fresh m obj) (hpqe : obj.pqe = none)
    (hsup : Supplied m) {i : Nat} {before after : List (Obj κ β)}
    (hs : m.scan obj.key = some (.room i before after))
    (hr : Room m obj.key i before after) (hsz : ¬ m.opts.max ≤ m.sz) :
    ∃ m', m.putPlace obj = some (⟨.errNone, none⟩, m') ∧ Queued m' ∧ Still m m' ∧
      m'.queue = enqueue m.opts ⟨m.brk, obj.toHo, 0, false⟩ m.queue ∧ m'.sz = SizeT.add m.sz 1 := by
  obtain ⟨m', hput, h', hstill, hrest⟩ := (h.waiting hf hr).putCount hpqe hsup none
  refine ⟨m', ?_, h', ⟨hstill.opts, hstill.avail⟩, hrest⟩
  have hend : (m.setBucket i (before ++ obj :: after)).putEnd obj
      = (m.setBucket i (before ++ obj :: after)).putCount obj none := by
    rw [putEnd, if_neg fun hc => hsz hc.1]
    rfl
  simp only [putPlace, hs, Option.bind_eq_bind, Option.bind_some, hend, hput]

/-- An object of a list is a perm away from its head. -/
theorem exists_perm_cons {α : Type} {x : α} {l : List α} (h : x ∈ l) : ∃ l', l ~ x :: l' := by
  obtain ⟨s, t, rfl⟩ := List.append_of_mem h
  exact ⟨s ++ t, List.perm_middle⟩

theorem Waiting.nodup_ptr {obj : Obj κ β} {rest : List (Obj κ β)} (h : Waiting m obj rest) :
    ((obj :: rest).map fun o => o.ptr).Nodup := by
  have h₁ := h.fresh.not_mem
  have h₂ := h.ok.nodup_ho
  rw [List.map_map] at h₁ h₂
  exact List.nodup_cons.mpr ⟨h₁, h₂⟩

/-- The victim of a full map with a waiting object. -/
theorem Waiting.victim_mem {obj : Obj κ β} {rest : List (Obj κ β)} (h : Waiting m obj rest)
    {e : QEntry κ β} {q : List (QEntry κ β)} (hv : victim m.opts m.queue = some (e, q)) :
    ∃ x rest', x.link = e.link ∧ rest ~ x :: rest' := by
  have hemem : e ∈ m.queue := (victim_perm hv).mem_iff.mpr (List.mem_cons_self ..)
  obtain ⟨x, hx, hxe⟩ := List.mem_map.mp (h.perm.mem_iff.mpr (List.mem_map_of_mem hemem))
  obtain ⟨rest', hrest'⟩ := exists_perm_cons hx
  exact ⟨x, rest', hxe, hrest'⟩

/-- The objects once the victim is gone. -/
theorem LinksOk.evict {ho : Ho κ β} {x : Option Nat × Ho κ β} {l : List (Option Nat × Ho κ β)}
    {brk : Nat} {freed : List (Ho κ β)} (h : LinksOk (x :: l) brk freed)
    (hf : FreshHo (x :: l) brk freed ho) (opts : Opts κ β) :
    LinksOk l brk (released opts x.2 freed) ∧ FreshHo l brk (released opts x.2 freed) ho := by
  have hx : x.2.ptr ∉ l.map fun x => x.2.ptr := (List.nodup_cons.mp h.nodup_ho).1
  have hne := hf.not_mem
  rw [List.map_cons, List.mem_cons, not_or] at hne
  refine ⟨h.tail.release opts (h.ho_lt x (List.mem_cons_self ..)) hx, hf.lt, hne.2, ?_⟩
  unfold released
  split
  · rw [List.map_cons, List.mem_cons, not_or]
    exact ⟨hne.1, hf.alive⟩
  · exact hf.alive

/-- A full map with a waiting object evicts the victim, when a lookup of its key finds it. -/
theorem Waiting.pop {obj : Obj κ β} {rest : List (Obj κ β)} (h : Waiting m obj rest)
    {e : QEntry κ β} {q : List (QEntry κ β)} (hv : victim m.opts m.queue = some (e, q))
    {l : Loc κ β} (hfind : m.find e.ho.key = some (some l)) (hl : At m l)
    (hho : l.obj.toHo = e.ho) :
    ∃ rest' m', m.pop = some (⟨.errNone, handedOut m.opts e.ho⟩, m') ∧
      Waiting m' obj rest' ∧ Still m m' ∧ m'.queue = q ∧ m'.sz = SizeT.sub m.sz 1 ∧
      m'.brk = m.brk := by
  obtain ⟨x, rest', hxe, hrest'⟩ := h.victim_mem hv
  obtain ⟨others', hall, hrem, -⟩ := hl.exists_rest
  -- the lookup finds the victim itself
  have hlx : l.obj = x := by
    have hx : x ∈ obj :: rest := List.mem_cons_of_mem _ (hrest'.mem_iff.mpr (List.mem_cons_self ..))
    have hptr : l.obj.ptr = x.ptr := congrArg Ho.ptr (hho.trans (Prod.mk.inj hxe).2.symm)
    exact List.inj_on_of_nodup_map h.nodup_ptr (h.objs.mem_iff.mp hl.mem) hx hptr
  have hothers : others' ~ obj :: rest' := by
    have hswap := (hall.symm.trans h.objs).trans (hrest'.cons obj)
    rw [hlx] at hswap
    exact (hswap.trans (List.Perm.swap x obj rest')).cons_inv
  have hlinks : rest.map Obj.link ~ e.link :: rest'.map Obj.link := by
    rw [← hxe]
    exact hrest'.map Obj.link
  have hfresh := h.fresh
  have hnot : obj.ptr ∉ (e.link :: rest'.map Obj.link).map fun x => x.2.ptr := by
    intro hmem
    exact hfresh.not_mem (((hlinks.map fun x => x.2.ptr).mem_iff).mpr hmem)
  obtain ⟨hok', hfresh'⟩ := (h.ok.perm hlinks).evict ⟨hfresh.lt, hnot, hfresh.alive⟩ m.opts
  have halive : m.alive e.ho = true :=
    (h.ok.perm h.perm).alive_queue e ((victim_perm hv).mem_iff.mpr (List.mem_cons_self ..))
  have hdel := del_of_find hfind
  rw [hho] at hdel
  generalize SizeT.sub m.sz 1 = sz at hdel ⊢
  have hstored : stored { m.setBucket l.idx (l.before ++ l.after) with
      freed := released m.opts e.ho m.freed, sz, queue := q }
      = stored (m.setBucket l.idx (l.before ++ l.after)) := stored_of_buckets rfl rfl
  refine ⟨rest', { m.setBucket l.idx (l.before ++ l.after) with
    freed := released m.opts e.ho m.freed, sz, queue := q }, ?_,
    ⟨(h.toTable.remove hl).of_buckets rfl rfl rfl, h.policy, h.ready, ?_, ?_, hok', hfresh',
      fun x hx => h.whole x ((victim_perm hv).mem_iff.mpr (List.mem_cons_of_mem _ hx))⟩,
    ⟨rfl, rfl⟩, rfl, rfl, rfl⟩
  · rw [pop_eq h.policy, hv]
    simp only [popEntry, halive, hdel]
    rfl
  · rw [hstored]
    exact hrem.trans hothers
  · refine List.Perm.cons_inv (hlinks.symm.trans (h.perm.trans ?_))
    exact (victim_perm hv).map QEntry.link

/-- A put that links its object into a full map. -/
theorem put_evicted (h : Queued m) {obj : Obj κ β} (hf : Fresh m obj) (hpqe : obj.pqe = none)
    (hsup : Supplied m) {i : Nat} {before after : List (Obj κ β)}
    (hs : m.scan obj.key = some (.room i before after))
    (hr : Room m obj.key i before after) (hsz : m.opts.max ≤ m.sz)
    {e : QEntry κ β} {q : List (QEntry κ β)} (hv : victim m.opts m.queue = some (e, q))
    {l : Loc κ β}
    (hfind : (m.setBucket i (before ++ obj :: after)).find e.ho.key = some (some l))
    (hl : At (m.setBucket i (before ++ obj :: after)) l) (hho : l.obj.toHo = e.ho) :
    ∃ m', m.putPlace obj = some (⟨.errNone, handedOut m.opts e.ho⟩, m') ∧ Queued m' ∧
      Still m m' ∧ m'.queue = enqueue m.opts ⟨m.brk, obj.toHo, 0, false⟩ q ∧
      m'.sz = SizeT.add (SizeT.sub m.sz 1) 1 := by
  obtain ⟨rest', m₁, hpop, hw, hstill, hqueue, hsz₁, hbrk⟩ :=
    (h.waiting hf hr).pop hv hfind hl hho
  have hsup₁ : Supplied m₁ := by
    rw [Supplied, hstill.avail, hbrk, hstill.opts]
    exact hsup
  obtain ⟨m', hput, h', hstill', hqueue', hsz'⟩ :=
    hw.putCount hpqe hsup₁ (handedOut m.opts e.ho)
  have hall := hstill.trans hstill'
  refine ⟨m', ?_, h', ⟨hall.opts, hall.avail⟩, ?_, ?_⟩
  · have hend : (m.setBucket i (before ++ obj :: after)).putEnd obj
        = m₁.putCount obj (handedOut m.opts e.ho) := by
      rw [putEnd, if_pos ⟨hsz, h.policy⟩, hpop]
      rfl
    simp only [putPlace, hs, Option.bind_eq_bind, Option.bind_some, hend, hput]
  · rw [hqueue', hstill.opts, hqueue, hbrk]
    rfl
  · rw [hsz', hsz₁]
    rfl

/-- A put of a key that the map has: refused, or the new object takes the place of the old one, and
a new entry the place of the old one's. -/
theorem put_found (h : Queued m) {obj : Obj κ β} (hf : Fresh m obj)
    (hentry : m.opts.noOverwrite = false → obj.pqe = none ∧ Supplied m)
    {l : Loc κ β} (hs : m.scan obj.key = some (.found l)) (hl : At m l) (hk : l.obj.key = obj.key) :
    (m.opts.noOverwrite = true ∧ ∃ m',
      m.putPlace obj = some (⟨.errExists, handedOut m.opts l.obj.toHo⟩, m') ∧ Queued m' ∧
      Still m m' ∧ m'.queue = m.queue ∧ m'.sz = m.sz) ∨
    (m.opts.noOverwrite = false ∧ ∃ q₁ e q₂ m', m.queue = q₁ ++ e :: q₂ ∧ e.ho = l.obj.toHo ∧
      m.putPlace obj = some (⟨.errNone, handedOut m.opts l.obj.toHo⟩, m') ∧ Queued m' ∧
      Still m m' ∧ m'.queue = enqueue m.opts ⟨m.brk, obj.toHo, 0, false⟩ (q₁ ++ q₂) ∧
      m'.sz = m.sz) := by
  have hplace : m.putPlace obj = m.oOverwrite l obj := by
    simp only [putPlace, hs]
    rfl
  rw [hplace, oOverwrite]
  cases hno : m.opts.noOverwrite with
  | true =>
    refine Or.inl ⟨rfl, ?_⟩
    cases hown : m.opts.ownsData with
    | true =>
      refine ⟨m.oFree obj.toHo, by simp [handedOut, hown],
        ⟨h.toTable.of_buckets rfl rfl rfl, h.policy, h.ready, h.perm,
          h.ok.free hf.lt hf.not_mem, h.whole⟩, ⟨rfl, rfl⟩, rfl, rfl⟩
    | false => exact ⟨m, by simp [handedOut, hown], h, ⟨rfl, rfl⟩, rfl, rfl⟩
  | false =>
    refine Or.inr ⟨rfl, ?_⟩
    obtain ⟨hnil, hsup⟩ := hentry hno
    obtain ⟨p, q₁, e, q₂, hpqe, hsplit, hq, he, heho⟩ := h.split hl.mem
    have hwhole : ∀ x ∈ q₁ ++ q₂, x.bare = false := by
      intro x hx
      refine h.whole x ?_
      rw [hq]
      exact (List.Sublist.append_left (List.sublist_cons_self e q₂) q₁).subset hx
    obtain ⟨rest, hall, -, hrepl⟩ := hl.exists_rest
    have hput := opPut_of_ne h.policy
    have hdel : m.queueDel l.obj = some { m with queue := q₁ ++ q₂ } := by
      simp [queueDel, hpqe, hsplit]
    -- the pairs without the old object
    have hlink : l.obj.link = e.link := by rw [Obj.link, QEntry.link, hpqe, he, heho]
    have hlinks : links m ~ e.link :: rest.map Obj.link := hlink ▸ hall.map Obj.link
    have hqlinks : rest.map Obj.link ~ (q₁ ++ q₂).map QEntry.link := by
      refine List.Perm.cons_inv (hlinks.symm.trans (h.perm.trans ?_))
      rw [hq]
      exact List.perm_middle.map QEntry.link
    have hnot : obj.ptr ∉ (e.link :: rest.map Obj.link).map fun x => x.2.ptr := fun hmem =>
      hf.not_mem (((hlinks.map fun x => x.2.ptr).mem_iff).mpr hmem)
    have hok := h.ok.perm hlinks
    have hnot' := hnot
    rw [List.map_cons, List.mem_cons, not_or] at hnot'
    have hfresh : FreshHo (rest.map Obj.link) m.brk m.freed obj.toHo :=
      ⟨hf.lt, hnot'.2, hf.alive⟩
    have hpush := @push_new _ _ { m with queue := q₁ ++ q₂ } h.policy h.ready hsup obj.toHo
      (alive_of_not_mem hf.alive) fun _ => (hok.tail.perm hqlinks).alive_queue
    refine ⟨q₁, e, q₂, {
      m.setBucket l.idx (l.before ++ { obj with pqe := some m.brk } :: l.after) with
      queue := enqueue m.opts ⟨m.brk, obj.toHo, 0, false⟩ (q₁ ++ q₂), brk := m.brk + 1,
      freed := released m.opts l.obj.toHo m.freed }, hq, heho, ?_, ⟨?_, h.policy, h.ready, ?_, ?_,
      whole_enqueue _ hwhole⟩, ⟨rfl, rfl⟩, rfl, rfl⟩
    · rw [if_neg (by simp), hput, hdel, hnil]
      simp only [if_true, Option.bind_eq_bind, Option.bind_some, hpush, dispose_eq]
      rfl
    · exact (@Table.replace _ _ _ h.toTable l hl { obj with pqe := some m.brk } hk.symm).of_buckets
        rfl rfl rfl
    · refine ((hrepl _).map Obj.link).trans ((hqlinks.cons _).trans ?_)
      exact ((enqueue_perm m.opts ⟨m.brk, obj.toHo, 0, false⟩ (q₁ ++ q₂)).map QEntry.link).symm
    · refine LinksOk.perm ?_ ((hrepl { obj with pqe := some m.brk }).map Obj.link).symm
      have hlt := hok.ho_lt e.link (List.mem_cons_self ..)
      refine (hok.tail.cons hfresh).release m.opts (Nat.lt_succ_of_lt (heho ▸ hlt)) ?_
      rw [List.map_cons, List.mem_cons, not_or]
      have hne := (List.nodup_cons.mp hok.nodup_ho).1
      rw [← heho]
      exact ⟨fun heq => hnot'.1 heq.symm, hne⟩

/-! ## 5. Gets -/

/-- A push of an object that has an entry, by a policy that looks at gets. -/
theorem push_old (hget : opGet m.opts.policy = true) {ho : Ho κ β} (hho : m.alive ho = true)
    {p : Nat} {q₁ q₂ : List (QEntry κ β)} {e : QEntry κ β}
    (hsplit : splitQueue p m.queue = some (q₁, e, q₂)) (he : e.bare = false)
    (hq₂ : ∀ x ∈ q₂, x.bare = false) (hdata : m.opts.policy = .lfu → e.data < 2 ^ 31 - 1) :
    m.push ho (some p) = some (.errNone, some p, { m with queue := touch m.opts q₁ e q₂ }) := by
  rw [push, hho]
  cases hpol : m.opts.policy with
  | lru => simp [queuePush, hsplit, touch, hpol]
  | lfu =>
    have hgo : ¬ (e.bare = true ∨ 2 ^ 31 - 1 ≤ e.data) := by
      rw [he]
      simpa using hdata hpol
    simp only [queuePushCount, hsplit, Option.bind_some, Option.bind_eq_bind, if_neg hgo,
      countWalk_eq hq₂, touch, hpol]
    rfl
  | none | fifo | custom =>
    rw [hpol] at hget
    cases hget

/-- The object that a get has found, with the entry that it has. -/
theorem At.setBucket_pqe {l : Loc κ β} (hl : At m l) {p : Option Nat} (hp : l.obj.pqe = p)
    (q : List (QEntry κ β)) :
    ({ m with queue := q } : Hmap κ β).setBucket l.idx
        (l.before ++ { l.obj with pqe := p } :: l.after)
      = { m with queue := q } := by
  subst hp
  exact congrArg (fun b => { m with buckets := b, queue := q })
    (congrArg Hmap.buckets hl.setBucket_self)

/-- A get of a key that is found moves its entry, unless its use count overflows. -/
theorem get_found (h : Queued m) {k : κ} {l : Loc κ β} (hfind : m.find k = some (some l))
    (hl : At m l) : ∃ q₁ e q₂, m.queue = q₁ ++ e :: q₂ ∧ e.ho = l.obj.toHo ∧
      (m.opts.policy = .lfu → 2 ^ 31 - 1 ≤ e.data → m.get k = none) ∧
      ((m.opts.policy = .lfu → e.data < 2 ^ 31 - 1) →
        m.get k = some (⟨.errNone, some l.obj.toHo⟩,
          { m with queue := touch m.opts q₁ e q₂ })) := by
  obtain ⟨p, q₁, e, q₂, hpqe, hsplit, hq, he, heho⟩ := h.split hl.mem
  have halive : m.alive l.obj.toHo = true :=
    alive_of_not_mem (h.ok.alive _ (List.mem_map_of_mem hl.mem))
  have hwhole : e.bare = false ∧ ∀ x ∈ q₂, x.bare = false := by
    have hall := h.whole
    rw [hq, List.forall_mem_append] at hall
    exact List.forall_mem_cons.mp hall.2
  refine ⟨q₁, e, q₂, hq, heho, fun hpol hdata => ?_, fun hdata => ?_⟩
  · have hstop : e.bare = true ∨ 2 ^ 31 - 1 ≤ e.data := .inr hdata
    simp only [get, hfind, hpol, opGet, push, halive, hpqe, queuePushCount, hsplit,
      Option.bind_eq_bind, Option.bind_some, if_true, if_pos hstop]
    rfl
  · simp only [get, hfind, Option.bind_eq_bind, Option.bind_some]
    cases hget : opGet m.opts.policy with
    | true =>
      rw [if_pos rfl, hpqe, push_old hget halive hsplit hwhole.1 hwhole.2 hdata]
      simp only [Option.bind_some, if_true]
      rw [hl.setBucket_pqe hpqe]
    | false =>
      -- the queue stays as it is
      have htouch : touch m.opts q₁ e q₂ = m.queue := by
        unfold touch
        cases hpol : m.opts.policy <;> simp_all [opGet]
      rw [if_neg (by simp), htouch]

/-- A get leaves no bare entry. -/
theorem whole_touch (opts : Opts κ β) {q₁ q₂ : List (QEntry κ β)} {e : QEntry κ β}
    (h : ∀ x ∈ q₁ ++ e :: q₂, x.bare = false) : ∀ x ∈ touch opts q₁ e q₂, x.bare = false := by
  have hpair := List.forall_mem_append.mp h
  obtain ⟨he, h₂⟩ := List.forall_mem_cons.mp hpair.2
  unfold touch
  split
  · exact List.forall_mem_cons.mpr ⟨he, List.forall_mem_append.mpr ⟨hpair.1, h₂⟩⟩
  · refine List.forall_mem_append.mpr ⟨List.forall_mem_append.mpr ⟨hpair.1, fun x hx => ?_⟩,
      List.forall_mem_cons.mpr ⟨he, fun x hx => ?_⟩⟩
    · exact h₂ x ((List.takeWhile_sublist _).subset hx)
    · exact h₂ x ((List.dropWhile_sublist _).subset hx)
  · exact h

/-- Moving entries keeps the invariant. -/
theorem Queued.moved (h : Queued m) {q₁ q₂ : List (QEntry κ β)} {e : QEntry κ β}
    (hq : m.queue = q₁ ++ e :: q₂) : Queued { m with queue := touch m.opts q₁ e q₂ } := by
  have hlinks := touch_links m.opts q₁ e q₂
  rw [← hq] at hlinks
  exact ⟨h.toTable.of_buckets rfl rfl rfl, h.policy, h.ready, h.perm.trans hlinks.symm, h.ok,
    whole_touch m.opts (hq ▸ h.whole)⟩

/-! ## 6. Calls -/

/-- A lookup of `k` finds the object `ho`. -/
def Finds (m : Hmap κ β) (k : κ) (ho : Ho κ β) : Prop :=
  match m.find k with
  | some (some l) => l.obj.toHo = ho
  | _ => False

/-- An eviction for a put of `k` deletes the object of the victim, and no other. -/
def Evicts (m : Hmap κ β) (k : κ) : Prop :=
  match victim m.opts m.queue with
  | some (e, _) => e.ho.key ≠ k ∧ Finds m e.ho.key e.ho
  | none => False

/-- The use count of the object that a lookup of `k` finds can be incremented. -/
def Counts (m : Hmap κ β) (k : κ) : Prop :=
  match m.find k with
  | some (some l) => ∀ e ∈ m.queue, e.ho.ptr = l.obj.ptr → e.data < 2 ^ 31 - 1
  | _ => True

/-- The victim is found where the object of the put is linked already. -/
theorem Evicts.found {obj : Obj κ β} (hev : Evicts m obj.key) (ht : Table m) {i : Nat}
    {before after : List (Obj κ β)} (hr : Room m obj.key i before after) :
    ∃ e q l, victim m.opts m.queue = some (e, q) ∧ e.ho.key ≠ obj.key ∧
      (m.setBucket i (before ++ obj :: after)).find e.ho.key = some (some l) ∧
      At (m.setBucket i (before ++ obj :: after)) l ∧ l.obj.toHo = e.ho := by
  unfold Evicts at hev
  cases hv : victim m.opts m.queue with
  | none => simp [hv] at hev
  | some x =>
    obtain ⟨e, q⟩ := x
    rw [hv] at hev
    obtain ⟨hne, hfinds⟩ := hev
    unfold Finds at hfinds
    rcases find_spec ht e.ho.key with ⟨l, hfind, hl, hlk, hfirst⟩ | ⟨hfind, -⟩
    · rw [hfind] at hfinds
      obtain ⟨l', hfind', hl', hobj⟩ := find_link ht hr hne hl hlk hfirst
      exact ⟨e, q, l', rfl, hne, hfind', hl', hobj ▸ hfinds⟩
    · simp [hfind] at hfinds

/-- A put that has a place for its object comes to the push, once its eviction is over. -/
theorem Queued.room (h : Queued m) {obj : Obj κ β} (hf : Fresh m obj) {i : Nat}
    {before after : List (Obj κ β)} (hs : m.scan obj.key = some (.room i before after))
    (hr : Room m obj.key i before after) (hevict : m.opts.max ≤ m.sz → Evicts m obj.key) :
    ∃ old rest m₁, m.putPlace obj = m₁.putCount obj old ∧ Waiting m₁ obj rest ∧
      m₁.queue ⊆ m.queue ∧ m₁.brk = m.brk ∧ Still m m₁ := by
  have hw := h.waiting hf hr
  simp only [putPlace, hs, Option.bind_eq_bind, Option.bind_some, putEnd]
  by_cases hsz : m.opts.max ≤ m.sz
  · obtain ⟨e, q, l, hv, -, hfind, hl, hho⟩ := (hevict hsz).found h.toTable hr
    obtain ⟨rest', m₁, hpop, hw₁, hstill, hqueue, -, hbrk⟩ := hw.pop hv hfind hl hho
    refine ⟨handedOut m.opts e.ho, rest', m₁, ?_, hw₁, ?_, hbrk, ⟨hstill.opts, hstill.avail⟩⟩
    · rw [if_pos ⟨hsz, h.policy⟩, hpop]
      rfl
    · rw [hqueue]
      exact fun x hx => (victim_perm hv).mem_iff.mpr (List.mem_cons_of_mem _ hx)
  · refine ⟨none, stored m, m.setBucket i (before ++ obj :: after), ?_, hw, List.Subset.refl _, rfl,
      ⟨rfl, rfl⟩⟩
    rw [if_neg fun hc => hsz hc.1]
    rfl

/-- What there is memory for. -/
theorem Still.supplied_iff {m' : Hmap κ β} (h : Still m m') (hbrk : m'.brk = m.brk) :
    Supplied m' ↔ Supplied m := by
  rw [Supplied, Supplied, h.avail, hbrk, h.opts]

/-- What a put of `ho`, with an entry at `p`, makes of the result, the queue and the count. -/
inductive PutQ (m : Hmap κ β) (ho : Ho κ β) (p : Nat) :
    Res κ β → List (QEntry κ β) → Nat → Prop
  | refused {e : QEntry κ β} (he : e ∈ m.queue) (hk : e.ho.key = ho.key)
      (hno : m.opts.noOverwrite = true) :
      PutQ m ho p ⟨.errExists, handedOut m.opts e.ho⟩ m.queue m.sz
  | replaced {q₁ q₂ : List (QEntry κ β)} {e : QEntry κ β} (hq : m.queue = q₁ ++ e :: q₂)
      (hk : e.ho.key = ho.key) (hno : m.opts.noOverwrite = false) :
      PutQ m ho p ⟨.errNone, handedOut m.opts e.ho⟩ (enqueue m.opts ⟨p, ho, 0, false⟩ (q₁ ++ q₂))
        m.sz
  | added (hk : Adds m ho.key) (hsz : ¬ m.opts.max ≤ m.sz) :
      PutQ m ho p ⟨.errNone, none⟩ (enqueue m.opts ⟨p, ho, 0, false⟩ m.queue) (SizeT.add m.sz 1)
  | evicted {e : QEntry κ β} {q : List (QEntry κ β)} (hk : Adds m ho.key)
      (hsz : m.opts.max ≤ m.sz) (hv : victim m.opts m.queue = some (e, q)) :
      PutQ m ho p ⟨.errNone, handedOut m.opts e.ho⟩ (enqueue m.opts ⟨p, ho, 0, false⟩ q)
        (SizeT.add (SizeT.sub m.sz 1) 1)
  | full (htype : m.opts.type = .linear) : PutQ m ho p ⟨.errFail, none⟩ m.queue m.sz

/-- An object that a put stores has no entry yet, and gets the memory for one. -/
def Equipped (m : Hmap κ β) (obj : Obj κ β) : Prop :=
  Stores m obj.key → obj.pqe = none ∧ Supplied m

/-- What a put of `obj` must find so that its object comes to have an entry: a victim that is
deleted, if one has to go; and what the new entry needs. -/
structure Enters (m : Hmap κ β) (obj : Obj κ β) : Prop where
  evict : Adds m obj.key → m.opts.max ≤ m.sz → Evicts m obj.key
  entry : Equipped m obj

/-- **A put keeps the invariant** under its condition. -/
theorem put_queued (h : Queued m) {obj : Obj κ β} (hf : Fresh m obj) (hsafe : Enters m obj) :
    ∃ res m', m.putPlace obj = some (res, m') ∧ Queued m' ∧ Still m m' ∧
      PutQ m obj.toHo m.brk res m'.queue m'.sz := by
  rcases scan_spec h.toTable obj.key with
    ⟨l, hs, hl, hlk, -⟩ | ⟨i, b, a, hs, hr, hadds, -⟩ | ⟨hs, htype, -⟩
  · obtain ⟨e₀, he₀, -, hho₀⟩ := h.entry_of_mem hl.mem
    have hnfull : ¬ Full m obj.key := fun hfull => by
      simpa [hs] using (h.toTable.scan_full_iff obj.key).mpr hfull
    rcases put_found h hf (fun hno => hsafe.entry (.inr ⟨hno, hnfull⟩)) hs hl hlk with
      ⟨hno, m', hput, h', hstill, hq', hsz'⟩ | ⟨hno, q₁, e, q₂, m', hq, he, hput,
        h', hstill, hq', hsz'⟩
    · refine ⟨_, m', hput, h', hstill, ?_⟩
      rw [hq', hsz', hho₀]
      exact .refused he₀ (hho₀ ▸ hlk) hno
    · refine ⟨_, m', hput, h', hstill, ?_⟩
      rw [hq', hsz', ← he]
      exact .replaced hq (he ▸ hlk) hno
  · obtain ⟨hpqe, hsup⟩ := hsafe.entry (.inl hadds)
    by_cases hsz : m.opts.max ≤ m.sz
    · obtain ⟨e, q, l, hv, -, hfind, hl, hho⟩ := (hsafe.evict hadds hsz).found h.toTable hr
      obtain ⟨m', hput, h', hstill, hq', hsz'⟩ :=
        put_evicted h hf hpqe hsup hs hr hsz hv hfind hl hho
      refine ⟨_, m', hput, h', hstill, ?_⟩
      rw [hq', hsz']
      exact .evicted hadds hsz hv
    · obtain ⟨m', hput, h', hstill, hq', hsz'⟩ := put_added h hf hpqe hsup hs hr hsz
      refine ⟨_, m', hput, h', hstill, ?_⟩
      rw [hq', hsz']
      exact .added hadds hsz
  · refine ⟨⟨.errFail, none⟩, m, ?_, h, ⟨rfl, rfl⟩, .full htype⟩
    simp only [putPlace, hs, Option.bind_eq_bind, Option.bind_some]

/-- The new object of a put. -/
theorem Queued.oNew (h : Queued m) (k : κ) (v : β) :
    Queued (m.oNew k v).2 ∧ Fresh (m.oNew k v).2 (m.oNew k v).1 := by
  refine ⟨⟨h.toTable.of_buckets rfl rfl rfl, h.policy, h.ready, h.perm,
    h.ok.brk_le (Nat.le_succ _), h.whole⟩, ⟨Nat.lt_succ_self _, ?_, ?_⟩⟩
  · intro hmem
    obtain ⟨x, hx, heq⟩ := List.mem_map.mp hmem
    exact (h.ok.ho_lt x hx).ne heq
  · intro hmem
    exact (h.ok.freed_lt _ hmem).ne rfl

/-- **What the caller can put again**: an allocated object that is in no bucket.  An entry that
refers to it, if there is one, knows it as it is, and the object refers back unless the entry is
bare; an entry that it refers to is its own. -/
structure Outside (m : Hmap κ β) (obj : Obj κ β) : Prop where
  lt : obj.ptr < m.brk
  alive : obj.ptr ∉ m.freed.map Ho.ptr
  not_stored : obj.ptr ∉ (stored m).map fun o => o.ptr
  same : ∀ e ∈ m.queue, e.ho.ptr = obj.ptr → e.ho = obj.toHo
  entry : ∀ e ∈ m.queue, obj.pqe = some e.ptr → e.ho.ptr = obj.ptr
  known : ∀ e ∈ m.queue, e.bare = false → e.ho.ptr = obj.ptr → obj.pqe = some e.ptr

theorem Outside.fresh {obj : Obj κ β} (h : Outside m obj) : Fresh m obj := by
  refine ⟨h.lt, ?_, h.alive⟩
  rw [links, List.map_map]
  exact h.not_stored

/-- An object that is not stored has no entry. -/
theorem Queued.no_entry (h : Queued m) {obj : Obj κ β} (hf : Fresh m obj)
    (hown : ∀ e ∈ m.queue, obj.pqe = some e.ptr → e.ho.ptr = obj.ptr) :
    ∀ e ∈ m.queue, obj.pqe ≠ some e.ptr := by
  intro e he hpqe
  obtain ⟨o, ho, hoe⟩ := h.stored_of_mem he
  refine hf.not_mem (List.mem_map.mpr ⟨o.link, List.mem_map_of_mem ho, ?_⟩)
  exact (congrArg Ho.ptr hoe).trans (hown e he hpqe)

/-- A map with a policy is never resized. -/
theorem put_of_policy (hpol : m.opts.policy ≠ .none) (obj : Obj κ β) (mem : Mem) :
    m.put obj mem = m.putPlace obj := by
  rw [put, putAt, putWith, if_neg fun hc => hpol hc.2]
  rfl

theorem get_queued (h : Queued m) (k : κ) (hsafe : m.opts.policy = .lfu → Counts m k) :
    (∃ q₁ e q₂, m.queue = q₁ ++ e :: q₂ ∧ e.ho.key = k ∧
      m.get k = some (⟨.errNone, some e.ho⟩, { m with queue := touch m.opts q₁ e q₂ })) ∨
    (¬ Has m k ∧ m.get k = some (⟨.errFail, none⟩, m)) := by
  rcases find_spec h.toTable k with ⟨l, hfind, hl, hlk, -⟩ | ⟨hfind, hnot⟩
  · obtain ⟨q₁, e, q₂, hq, he, -, hget⟩ := get_found h hfind hl
    refine Or.inl ⟨q₁, e, q₂, hq, by rw [he, hlk], ?_⟩
    rw [he]
    refine hget fun hlfu => ?_
    have hcounts := hsafe hlfu
    rw [Counts, hfind] at hcounts
    exact hcounts e (by rw [hq]; simp) (congrArg Ho.ptr he)
  · refine Or.inr ⟨hnot, ?_⟩
    simp only [get, hfind, Option.bind_eq_bind, Option.bind_some]

/-- A get that overflows a use count has no result. -/
theorem get_breaks (h : Queued m) (k : κ) (hlfu : m.opts.policy = .lfu) (hc : ¬ Counts m k) :
    m.get k = none := by
  rcases find_spec h.toTable k with ⟨l, hfind, hl, hlk, -⟩ | ⟨hfind, -⟩
  · obtain ⟨q₁, e, q₂, hq, he, hget, -⟩ := get_found h hfind hl
    refine hget hlfu ?_
    rw [Counts, hfind] at hc
    obtain ⟨x, hc⟩ := not_forall.mp hc
    obtain ⟨hx, hc⟩ := Classical.not_imp.mp hc
    obtain ⟨hptr, hc⟩ := Classical.not_imp.mp hc
    -- the entry of an object is unique
    have hnodup := h.queue_ok.nodup_ho
    rw [List.map_map] at hnodup
    have hxe : x = e := List.inj_on_of_nodup_map hnodup hx (by rw [hq]; simp)
      (hptr.trans (congrArg Ho.ptr he).symm)
    exact Int.not_lt.mp (hxe ▸ hc)
  · rw [Counts, hfind] at hc
    exact absurd trivial hc

/-- A new map has an empty queue. -/
theorem new_queued {brk : Nat} {avail : Nat → QMem} (hl : Lawful opts) (hp : opts.policy ≠ .none)
    (hnew : new opts brk [] avail = some m) : Queued m ∧ m.queue = [] ∧ m.opts = opts ∧ m.sz = 0 ∧
      m.avail = avail := by
  unfold new at hnew
  split at hnew
  · cases hnew
  · next hcheck =>
    simp only [Option.bind_eq_bind, Option.bind_eq_some_iff, Prod.exists] at hnew
    obtain ⟨size, px, hprime, heq⟩ := hnew
    obtain rfl := Option.some.inj heq
    have hstored : stored ⟨opts, 0, size, 3 * size / 4, px, fun _ => [], [], brk, [], avail⟩
        = [] := by
      simp [stored]
    have hlinks : links ⟨opts, 0, size, 3 * size / 4, px, fun _ => [], [], brk, [], avail⟩
        = [] := by
      rw [links, hstored, List.map_nil]
    refine ⟨⟨table_of_empty hl (nextPrime_pos hprime) fun _ _ => rfl, hp,
      by simpa using hcheck, ?_, ?_, fun _ hx => absurd hx (by simp)⟩, rfl, rfl, rfl, rfl⟩
    · rw [hlinks]
      exact List.Perm.refl _
    · rw [hlinks]
      exact ⟨List.nodup_nil, List.nodup_nil, fun _ hx => absurd hx (by simp),
        fun _ hx => absurd hx (by simp), fun _ hx => absurd hx (by simp),
        fun _ hx => absurd hx (by simp)⟩

/-! ## 7. Deciding conditions -/

section Decide

variable [DecidableEq κ] [DecidableEq β]

instance (m : Hmap κ β) (k : κ) : Decidable (Has m k) :=
  inferInstanceAs (Decidable (∃ o ∈ stored m, o.key = k))

instance (m : Hmap κ β) (k : κ) (n : Nat) : Decidable (Passes m k n) :=
  inferInstanceAs (Decidable (∀ c < n, _ ∧ _))

instance (m : Hmap κ β) (k : κ) : Decidable (Adds m k) :=
  match htype : m.opts.type with
  | .chain => decidable_of_iff (¬ Has m k) (by rw [Adds, htype])
  | .linear => decidable_of_iff
      (∃ e < m.size - 1, keys m (slot m k e) = [] ∧ Passes m k e) (by rw [Adds, htype])

instance (m : Hmap κ β) (k : κ) : Decidable (Full m k) := inferInstanceAs (Decidable (_ ∧ _))

instance (m : Hmap κ β) (k : κ) : Decidable (Stores m k) := inferInstanceAs (Decidable (_ ∨ _))

instance (m : Hmap κ β) (k : κ) (ho : Ho κ β) : Decidable (Finds m k ho) :=
  match hfind : m.find k with
  | some (some l) => decidable_of_iff (l.obj.toHo = ho) (by rw [Finds, hfind])
  | some none => isFalse (by simp [Finds, hfind])
  | none => isFalse (by simp [Finds, hfind])

instance (m : Hmap κ β) (k : κ) : Decidable (Evicts m k) :=
  match hv : victim m.opts m.queue with
  | some (e, _) => decidable_of_iff (e.ho.key ≠ k ∧ Finds m e.ho.key e.ho) (by rw [Evicts, hv])
  | none => isFalse (by simp [Evicts, hv])

instance (m : Hmap κ β) (k : κ) : Decidable (Counts m k) :=
  match hfind : m.find k with
  | some (some l) => decidable_of_iff
      (∀ e ∈ m.queue, e.ho.ptr = l.obj.ptr → e.data < 2 ^ 31 - 1) (by rw [Counts, hfind])
  | some none => isTrue (by simp [Counts, hfind])
  | none => isTrue (by simp [Counts, hfind])

instance (m : Hmap κ β) (obj : Obj κ β) : Decidable (Equipped m obj) :=
  inferInstanceAs (Decidable (_ → _))

instance (m : Hmap κ β) (obj : Obj κ β) : Decidable (Enters m obj) :=
  decidable_of_iff ((Adds m obj.key → m.opts.max ≤ m.sz → Evicts m obj.key) ∧ Equipped m obj)
    ⟨fun h => ⟨h.1, h.2⟩, fun h => ⟨h.evict, h.entry⟩⟩

instance (m : Hmap κ β) (obj : Obj κ β) : Decidable (Outside m obj) :=
  decidable_of_iff (obj.ptr < m.brk ∧ obj.ptr ∉ m.freed.map Ho.ptr ∧
    obj.ptr ∉ ((stored m).map fun o => o.ptr) ∧
    (∀ e ∈ m.queue, e.ho.ptr = obj.ptr → e.ho = obj.toHo) ∧
    (∀ e ∈ m.queue, obj.pqe = some e.ptr → e.ho.ptr = obj.ptr) ∧
    ∀ e ∈ m.queue, e.bare = false → e.ho.ptr = obj.ptr → obj.pqe = some e.ptr)
    ⟨fun h => ⟨h.1, h.2.1, h.2.2.1, h.2.2.2.1, h.2.2.2.2.1, h.2.2.2.2.2⟩,
      fun h => ⟨h.lt, h.alive, h.not_stored, h.same, h.entry, h.known⟩⟩

end Decide

/-- Options for caches of two characters, by numbers, that own their objects and overwrite. -/
def cacheOpts (policy : Pcy) : Opts Nat Char where
  size := 1
  max := 2
  type := .chain
  policy
  ownsData := true
  noOverwrite := false
  hashStrong := true
  fHash k n := k % n
  defaultHash := false
  fComp a b := (a : Int) - b
  fPcyCmp := some fun a b => (a.toNat : Int) - b.toNat

theorem cacheOpts_lawful (policy : Pcy) : Lawful (cacheOpts policy) where
  hash_lt k _ hn := Nat.mod_lt k hn
  comp_zero a b := by
    simp only [cacheOpts]
    omega
  comp_order _ := by
    refine ⟨fun a b => ?_, fun a b c hab hbc => ?_⟩
    · simp only [cacheOpts]
      omega
    · simp only [cacheOpts] at *
      omega

/-- A new map with these options. -/
def cacheMap (policy : Pcy) : Hmap Nat Char where
  opts := cacheOpts policy
  sz := 0
  size := 13
  threshold := 9
  px := 0
  buckets _ := []
  queue := []
  brk := 0
  freed := []
  avail _ := .ok

theorem new_cacheOpts (policy : Pcy) : new (cacheOpts policy) 0 [] = some (cacheMap policy) := by
  cases policy <;> rfl

/-- A cache of objects that stay the caller's. -/
def lentOpts (policy : Pcy) : Opts Nat Char := { cacheOpts policy with ownsData := false }

theorem lentOpts_lawful (policy : Pcy) : Lawful (lentOpts policy) :=
  ⟨(cacheOpts_lawful policy).hash_lt, (cacheOpts_lawful policy).comp_zero,
    (cacheOpts_lawful policy).comp_order⟩

/-- A new map with these options, which gets no memory for an entry at the address `n`. -/
def lentMap (policy : Pcy) (n : Nat) : Hmap Nat Char :=
  { cacheMap policy with
    opts := lentOpts policy, avail := fun p => if p = n then .noEntry else .ok }

theorem new_lentOpts (policy : Pcy) (n : Nat) :
    new (lentOpts policy) 0 [] (fun p => if p = n then .noEntry else .ok)
      = some (lentMap policy n) := by
  cases policy <;> rfl

end Libu.Hmap
