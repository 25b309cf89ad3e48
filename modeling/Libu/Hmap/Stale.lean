/-
# Maps with stale entries

`u_hmap_del` leaves the entry of the object that it deletes in the policy queue, so that `Queued` is
lost.  What stays is that every stored object has its entry (`Backed`): the queue may know more
objects than the table.  That is enough for every call to be defined that does not go through a
stale entry.

An object that comes back to the map is not a new one: it still has the address of the entry that it
had, which may be in the queue, or released, or never have been there.  What a push makes of it, the
policy decides; a custom priority looks into the objects of all entries, also those of objects that
were released.  `Sound` is what has to be asked of one put for all that to be defined.

* §1: lists of objects, with a queue that knows them.
* §2 and §3: a push of an object, and a put, under the conditions that `Sound` sums up.
* §4: the other calls.  `exec_entered` is the step of any run.
-/
import Libu.Hmap.Corr

namespace Libu.Hmap

open Verif
open scoped List

variable {κ β : Type} {m m' : Hmap κ β} {opts : Opts κ β}

/-! ## 1. Objects that the queue knows -/

/-- **Each of the objects `l` has its entry in the queue `q`**, which may have others.  No address
is used twice, all are below `brk`, and no object of the list is released. -/
structure Backed (l : List (Obj κ β)) (q : List (QEntry κ β)) (brk : Nat) (freed : List (Ho κ β)) :
    Prop where
  entry : ∀ o ∈ l, ∃ e ∈ q, o.link = e.link
  nodup_ho : (l.map fun o => o.ptr).Nodup
  nodup_ptr : (q.map QEntry.ptr).Nodup
  nodup_known : (q.map fun e => e.ho.ptr).Nodup
  ho_lt : ∀ o ∈ l, o.ptr < brk
  entry_lt : ∀ e ∈ q, e.ptr < brk ∧ e.ho.ptr < brk
  alive : ∀ o ∈ l, o.ptr ∉ freed.map Ho.ptr
  freed_lt : ∀ p ∈ freed.map Ho.ptr, p < brk
  whole : ∀ e ∈ q, e.bare = false

section Backed

variable {l l' : List (Obj κ β)} {q q' : List (QEntry κ β)} {brk : Nat} {freed : List (Ho κ β)}

theorem Backed.perm (h : Backed l q brk freed) (p : l ~ l') : Backed l' q brk freed :=
  ⟨fun o ho => h.entry o (p.mem_iff.mpr ho), (p.map _).nodup_iff.mp h.nodup_ho, h.nodup_ptr,
    h.nodup_known, fun o ho => h.ho_lt o (p.mem_iff.mpr ho), h.entry_lt,
    fun o ho => h.alive o (p.mem_iff.mpr ho), h.freed_lt, h.whole⟩

theorem Backed.tail {o : Obj κ β} (h : Backed (o :: l) q brk freed) : Backed l q brk freed :=
  ⟨fun x hx => h.entry x (List.mem_cons_of_mem _ hx), (List.nodup_cons.mp h.nodup_ho).2,
    h.nodup_ptr, h.nodup_known, fun x hx => h.ho_lt x (List.mem_cons_of_mem _ hx), h.entry_lt,
    fun x hx => h.alive x (List.mem_cons_of_mem _ hx), h.freed_lt, h.whole⟩

theorem Backed.not_mem {o : Obj κ β} (h : Backed (o :: l) q brk freed) :
    o.ptr ∉ l.map fun o => o.ptr := (List.nodup_cons.mp h.nodup_ho).1

/-- The heap grows. -/
theorem Backed.brk_le (h : Backed l q brk freed) {brk' : Nat} (hle : brk ≤ brk') :
    Backed l q brk' freed :=
  ⟨h.entry, h.nodup_ho, h.nodup_ptr, h.nodup_known, fun o ho => (h.ho_lt o ho).trans_le hle,
    fun e he => ⟨(h.entry_lt e he).1.trans_le hle, (h.entry_lt e he).2.trans_le hle⟩, h.alive,
    fun p hp => (h.freed_lt p hp).trans_le hle, h.whole⟩

/-- An object that is not in the list is released. -/
theorem Backed.free (h : Backed l q brk freed) {ho : Ho κ β} (hlt : ho.ptr < brk)
    (hno : ho.ptr ∉ l.map fun o => o.ptr) : Backed l q brk (ho :: freed) := by
  refine ⟨h.entry, h.nodup_ho, h.nodup_ptr, h.nodup_known, h.ho_lt, h.entry_lt,
    fun o hmem hfreed => ?_, fun p hp => ?_, h.whole⟩
  · rcases List.mem_cons.mp hfreed with heq | hfreed
    · exact hno (List.mem_map.mpr ⟨o, hmem, heq⟩)
    · exact h.alive o hmem hfreed
  · rcases List.mem_cons.mp hp with rfl | hp
    · exact hlt
    · exact h.freed_lt p hp

theorem Backed.release (h : Backed l q brk freed) (opts : Opts κ β) {ho : Ho κ β}
    (hlt : ho.ptr < brk) (hno : ho.ptr ∉ l.map fun o => o.ptr) :
    Backed l q brk (released opts ho freed) := by
  unfold released
  split
  · exact h.free hlt hno
  · exact h

/-- The entry of an object goes with it. -/
theorem Backed.drop {o : Obj κ β} {e : QEntry κ β} (h : Backed (o :: l) q brk freed)
    (hq : q ~ e :: q') (he : o.toHo = e.ho) : Backed l q' brk freed := by
  have hnodup := (hq.map QEntry.ptr).nodup_iff.mp h.nodup_ptr
  have hknown := (hq.map fun e => e.ho.ptr).nodup_iff.mp h.nodup_known
  have hsub : ∀ x ∈ q', x ∈ q := fun x hx => hq.mem_iff.mpr (List.mem_cons_of_mem _ hx)
  refine ⟨fun x hx => ?_, h.tail.nodup_ho, (List.nodup_cons.mp hnodup).2,
    (List.nodup_cons.mp hknown).2, h.tail.ho_lt, fun x hx => h.entry_lt x (hsub x hx),
    h.tail.alive, h.freed_lt, fun x hx => h.whole x (hsub x hx)⟩
  obtain ⟨y, hy, hlink⟩ := h.tail.entry x hx
  rcases List.mem_cons.mp (hq.mem_iff.mp hy) with rfl | hy
  · -- another object would have the same address
    refine absurd (List.mem_map.mpr ⟨x, hx, ?_⟩) h.not_mem
    exact congrArg Ho.ptr ((Prod.mk.inj hlink).2.trans he.symm)
  · exact ⟨y, hy, hlink⟩

/-- The entries are moved, or counted. -/
theorem Backed.moved (h : Backed l q brk freed)
    (hq : q'.map QEntry.link ~ q.map QEntry.link) (hwhole : ∀ e ∈ q', e.bare = false) :
    Backed l q' brk freed := by
  have hptrs : ∀ {q : List (QEntry κ β)}, q.map QEntry.ptr = (q.map QEntry.link).map
      fun x => x.1.getD 0 := by
    intro q
    rw [List.map_map]
    rfl
  have hknown : ∀ {q : List (QEntry κ β)}, (q.map fun e => e.ho.ptr) = (q.map QEntry.link).map
      fun x => x.2.ptr := by
    intro q
    rw [List.map_map]
    rfl
  refine ⟨fun o ho => ?_, h.nodup_ho, ?_, ?_, h.ho_lt, fun e he => ?_, h.alive, h.freed_lt, hwhole⟩
  · obtain ⟨e, he, hlink⟩ := h.entry o ho
    obtain ⟨e', he', heq⟩ := List.mem_map.mp (hq.mem_iff.mpr (List.mem_map_of_mem he))
    exact ⟨e', he', hlink.trans heq.symm⟩
  · rw [hptrs, (hq.map _).nodup_iff, ← hptrs]
    exact h.nodup_ptr
  · rw [hknown, (hq.map _).nodup_iff, ← hknown]
    exact h.nodup_known
  · obtain ⟨x, hx, heq⟩ := List.mem_map.mp (hq.mem_iff.mp (List.mem_map_of_mem he))
    obtain ⟨hptr, hho⟩ := Prod.mk.inj heq
    rw [← hho, ← Option.some.inj hptr]
    exact h.entry_lt x hx

/-- A new entry, with the next address. -/
theorem Backed.enqueue (h : Backed l q brk freed) {ho : Ho κ β} (hlt : ho.ptr < brk)
    (hnew : ho.ptr ∉ q.map fun e => e.ho.ptr) (hq : q' ~ ⟨brk, ho, 0, false⟩ :: q) :
    Backed l q' (brk + 1) freed := by
  have h' := h.brk_le (Nat.le_succ brk)
  refine ⟨fun o ho => ?_, h.nodup_ho, ?_, (hq.map fun e => e.ho.ptr).nodup_iff.mpr
    (List.nodup_cons.mpr ⟨hnew, h.nodup_known⟩), h'.ho_lt, fun e he => ?_, h.alive, h'.freed_lt,
    fun e he => ?_⟩
  · obtain ⟨e, he, hlink⟩ := h.entry o ho
    exact ⟨e, hq.mem_iff.mpr (List.mem_cons_of_mem _ he), hlink⟩
  · refine (hq.map QEntry.ptr).nodup_iff.mpr (List.nodup_cons.mpr ⟨fun hmem => ?_, h.nodup_ptr⟩)
    obtain ⟨e, he, heq⟩ := List.mem_map.mp hmem
    exact (h.entry_lt e he).1.ne heq
  · rcases List.mem_cons.mp (hq.mem_iff.mp he) with rfl | he
    · exact ⟨Nat.lt_succ_self _, Nat.lt_succ_of_lt hlt⟩
    · exact h'.entry_lt e he
  · rcases List.mem_cons.mp (hq.mem_iff.mp he) with rfl | he
    · rfl
    · exact h.whole e he

/-- One more object, which has an entry. -/
theorem Backed.cons (h : Backed l q brk freed) {o : Obj κ β} {e : QEntry κ β} (he : e ∈ q)
    (hlink : o.link = e.link) (hlt : o.ptr < brk) (hno : o.ptr ∉ l.map fun o => o.ptr)
    (halive : o.ptr ∉ freed.map Ho.ptr) : Backed (o :: l) q brk freed :=
  ⟨List.forall_mem_cons.mpr ⟨⟨e, he, hlink⟩, h.entry⟩, List.nodup_cons.mpr ⟨hno, h.nodup_ho⟩,
    h.nodup_ptr, h.nodup_known, List.forall_mem_cons.mpr ⟨hlt, h.ho_lt⟩, h.entry_lt,
    List.forall_mem_cons.mpr ⟨halive, h.alive⟩, h.freed_lt, h.whole⟩

/-- The entry of an object, where `__queue_del` and a get find it. -/
theorem Backed.split (h : Backed l q brk freed) {o : Obj κ β} (ho : o ∈ l) :
    ∃ p q₁ e q₂, o.pqe = some p ∧ splitQueue p q = some (q₁, e, q₂) ∧ q = q₁ ++ e :: q₂ ∧
      e.ptr = p ∧ e.ho = o.toHo := by
  obtain ⟨x, hx, hlink⟩ := h.entry o ho
  obtain ⟨hpqe, hho⟩ := Prod.mk.inj hlink
  obtain ⟨q₁, e, q₂, hsplit, hq, he⟩ := splitQueue_spec (List.mem_map_of_mem hx)
  have hmem : e ∈ q := by rw [hq]; simp
  have hxe : e = x := List.inj_on_of_nodup_map h.nodup_ptr hmem hx he
  exact ⟨x.ptr, q₁, e, q₂, hpqe, hsplit, hq, he, by rw [hxe, hho]⟩

end Backed

/-- **The invariant of a map whose queue may have stale entries.** -/
structure Entered (m : Hmap κ β) : Prop extends Table m where
  policy : m.opts.policy ≠ .none
  ready : optsCheck m.opts = true
  backed : Backed (stored m) m.queue m.brk m.freed

/-! ## 2. Pushes -/

/-- A push of `obj` has an entry to make, or to move: there is memory for a new one, or it is in the
queue, where the policy moves entries, and has not been used too often. -/
def HasEntry (m : Hmap κ β) (obj : Obj κ β) : Prop :=
  obj.pqe = none ∧ Supplied m ∨
    m.opts.policy ≠ .custom ∧ ∃ e ∈ m.queue, obj.pqe = some e.ptr ∧
      (m.opts.policy = .lfu → e.data < 2 ^ 31 - 1)

/-- The object is none of `l`, and goes with the queue `q` as one that the caller has. -/
structure Loose (l : List (Obj κ β)) (q : List (QEntry κ β)) (brk : Nat) (freed : List (Ho κ β))
    (obj : Obj κ β) : Prop where
  lt : obj.ptr < brk
  not_mem : obj.ptr ∉ l.map fun o => o.ptr
  alive : obj.ptr ∉ freed.map Ho.ptr
  own : ∀ e ∈ q, obj.pqe = some e.ptr → e.ho = obj.toHo
  known : ∀ e ∈ q, e.ho.ptr = obj.ptr → obj.pqe = some e.ptr

/-- The object `obj` is linked, next to the objects `rest`, but need not have an entry. -/
structure Pending (m : Hmap κ β) (obj : Obj κ β) (rest : List (Obj κ β)) :
    Prop extends Table m where
  policy : m.opts.policy ≠ .none
  ready : optsCheck m.opts = true
  objs : stored m ~ obj :: rest
  backed : Backed rest m.queue m.brk m.freed
  loose : Loose rest m.queue m.brk m.freed obj

/-- A push that moves the entry of its object. -/
theorem push_moved (hpol : m.opts.policy ≠ .none) (hne : m.opts.policy ≠ .custom) {ho : Ho κ β}
    (hho : m.alive ho = true) {p : Nat} {q₁ q₂ : List (QEntry κ β)} {e : QEntry κ β}
    (hsplit : splitQueue p m.queue = some (q₁, e, q₂)) (hwhole : ∀ e ∈ m.queue, e.bare = false)
    (hdata : m.opts.policy = .lfu → e.data < 2 ^ 31 - 1) :
    ∃ q, m.push ho (some p) = some (.errNone, some p, { m with queue := q }) ∧
      q.map QEntry.link ~ m.queue.map QEntry.link ∧ ∀ e ∈ q, e.bare = false := by
  obtain ⟨hq, -⟩ := splitQueue_some hsplit
  rw [hq] at hwhole ⊢
  have hpair := List.forall_mem_append.mp hwhole
  obtain ⟨he, h₂⟩ := List.forall_mem_cons.mp hpair.2
  cases hget : opGet m.opts.policy with
  | true =>
    exact ⟨_, push_old hget hho hsplit he h₂ hdata, touch_links m.opts q₁ e q₂,
      whole_touch m.opts hwhole⟩
  | false =>
    have hfifo : m.opts.policy = .fifo := by
      cases hcase : m.opts.policy <;> simp_all [opGet]
    refine ⟨e :: (q₁ ++ q₂), ?_, List.perm_middle.symm.map _,
      List.forall_mem_cons.mpr ⟨he, List.forall_mem_append.mpr ⟨hpair.1, h₂⟩⟩⟩
    rw [push, hho, hfifo]
    simp [queuePush, hsplit]

/-- **A push** gives an object its entry. -/
theorem Backed.push {l : List (Obj κ β)} (h : Backed l m.queue m.brk m.freed)
    (hpol : m.opts.policy ≠ .none) (hready : optsCheck m.opts = true) {obj : Obj κ β}
    (hl : Loose l m.queue m.brk m.freed obj) (hentry : HasEntry m obj) (hwalks : Walks m) :
    ∃ p q brk, m.push obj.toHo obj.pqe = some (.errNone, some p, { m with queue := q, brk }) ∧
      m.brk ≤ brk ∧ Backed ({ obj with pqe := some p } :: l) q brk m.freed := by
  have hho : m.alive obj.toHo = true := alive_of_not_mem hl.alive
  rcases hentry with ⟨hpqe, hsup⟩ | ⟨hne, e, he, hpqe, hdata⟩
  · have hq := enqueue_perm m.opts ⟨m.brk, obj.toHo, 0, false⟩ m.queue
    have hnew : obj.ptr ∉ m.queue.map fun e => e.ho.ptr := by
      intro hmem
      obtain ⟨e, he, heq⟩ := List.mem_map.mp hmem
      have hsome := hl.known e he heq
      rw [hpqe] at hsome
      cases hsome
    refine ⟨m.brk, _, _, hpqe ▸ push_new hpol hready hsup hho hwalks, Nat.le_succ _, ?_⟩
    exact (h.enqueue hl.lt hnew hq).cons (hq.mem_iff.mpr (List.mem_cons_self ..)) rfl
      (Nat.lt_succ_of_lt hl.lt) hl.not_mem hl.alive
  · obtain ⟨q₁, x, q₂, hsplit, hq, hx⟩ := splitQueue_spec (List.mem_map_of_mem he)
    have hmem : x ∈ m.queue := by rw [hq]; simp
    obtain rfl : x = e := List.inj_on_of_nodup_map h.nodup_ptr hmem he hx
    obtain ⟨q, hpush, hlinks, hwhole⟩ := push_moved hpol hne hho hsplit h.whole hdata
    refine ⟨x.ptr, q, m.brk, hpqe ▸ hpush, Nat.le_refl _, ?_⟩
    obtain ⟨y, hy, hlink⟩ := List.mem_map.mp (hlinks.mem_iff.mpr (List.mem_map_of_mem he))
    refine (h.moved hlinks hwhole).cons hy ?_ hl.lt hl.not_mem hl.alive
    rw [hlink, QEntry.link, hl.own x he hpqe]
    rfl

/-! ## 3. Puts -/

/-- The objects once the linked object has its entry. -/
theorem stored_setPqe_perm {obj : Obj κ β} {rest : List (Obj κ β)} (hobjs : stored m ~ obj :: rest)
    (hno : obj.ptr ∉ rest.map fun o => o.ptr) (pqe : Option Nat) :
    stored (m.setPqe obj.ptr pqe) ~ { obj with pqe } :: rest := by
  rw [stored_setPqe]
  refine (hobjs.map _).trans ?_
  rw [List.map_cons, if_pos rfl]
  refine List.Perm.of_eq (congrArg _ ?_)
  conv_rhs => rw [← List.map_id rest]
  refine List.map_congr_left fun o ho => if_neg fun heq => hno (List.mem_map.mpr ⟨o, ho, heq⟩)

theorem Pending.putCount {obj : Obj κ β} {rest : List (Obj κ β)} (h : Pending m obj rest)
    (hentry : HasEntry m obj) (hwalks : Walks m) (old : Option (Ho κ β)) :
    ∃ m', m.putCount obj old = some (⟨.errNone, old⟩, m') ∧ Entered m' := by
  obtain ⟨p, q, brk, hpush, -, hbacked⟩ :=
    h.backed.push h.policy h.ready h.loose hentry hwalks
  refine ⟨{ Hmap.setPqe { m with queue := q, brk } obj.ptr (some p) with
    sz := SizeT.add m.sz 1 }, ?_, (h.toTable.setPqe obj.ptr (some p)).of_buckets rfl rfl rfl,
    h.policy, h.ready, ?_⟩
  · rw [Hmap.putCount, opPut_of_ne h.policy]
    simp only [if_true, hpush]
    rfl
  · exact hbacked.perm (stored_setPqe_perm h.objs h.loose.not_mem (some p)).symm

/-- An eviction takes the victim's object, and its entry. -/
theorem Pending.pop {obj : Obj κ β} {rest : List (Obj κ β)} (h : Pending m obj rest)
    {e : QEntry κ β}
    {q : List (QEntry κ β)} (hv : victim m.opts m.queue = some (e, q)) {l : Loc κ β}
    (hfind : m.find e.ho.key = some (some l)) (hl : At m l) (hho : l.obj.toHo = e.ho)
    (hne : e.ho.key ≠ obj.key) :
    ∃ rest' m', m.pop = some (⟨.errNone, handedOut m.opts e.ho⟩, m') ∧ Pending m' obj rest' ∧
      Still m m' ∧ m'.queue = q ∧ m'.brk = m.brk ∧
      ∀ x ∈ q, m.alive x.ho = true → m'.alive x.ho = true := by
  have hvq := victim_perm hv
  obtain ⟨others', hall, hrem, -⟩ := hl.exists_rest
  -- the object that is found is not the new one
  have hmem : l.obj ∈ rest := by
    rcases List.mem_cons.mp (h.objs.mem_iff.mp hl.mem) with heq | hmem
    · exact absurd (congrArg Ho.key (hho.symm.trans (congrArg Obj.toHo heq))) hne
    · exact hmem
  obtain ⟨rest', hrest'⟩ := exists_perm_cons hmem
  have hothers : others' ~ obj :: rest' := by
    have hswap := (hall.symm.trans h.objs).trans (hrest'.cons obj)
    exact (hswap.trans (List.Perm.swap l.obj obj rest')).cons_inv
  have hbacked := h.backed.perm hrest'
  have halive : m.alive e.ho = true := by
    rw [← hho]
    exact alive_of_not_mem (h.backed.alive l.obj hmem)
  have hdel := del_of_find hfind
  rw [hho] at hdel
  generalize SizeT.sub m.sz 1 = sz at hdel
  have hstored : stored { m.setBucket l.idx (l.before ++ l.after) with
      freed := released m.opts e.ho m.freed, sz, queue := q }
      = stored (m.setBucket l.idx (l.before ++ l.after)) := stored_of_buckets rfl rfl
  have hno : obj.ptr ∉ (l.obj :: rest').map fun o => o.ptr := fun hin =>
    h.loose.not_mem ((hrest'.map _).mem_iff.mpr hin)
  rw [List.map_cons, List.mem_cons, not_or] at hno
  have hlptr : l.obj.ptr = e.ho.ptr := congrArg Ho.ptr hho
  refine ⟨rest', { m.setBucket l.idx (l.before ++ l.after) with
    freed := released m.opts e.ho m.freed, sz, queue := q }, ?_,
    ⟨(h.toTable.remove hl).of_buckets rfl rfl rfl, h.policy, h.ready, ?_, ?_, ?_⟩, ⟨rfl, rfl⟩, rfl,
    rfl, ?_⟩
  · rw [pop_eq h.policy, hv]
    simp only [popEntry, halive, hdel]
    rfl
  · rw [hstored]
    exact hrem.trans hothers
  · refine (hbacked.drop hvq hho).release m.opts ?_ ?_
    · exact hlptr ▸ h.backed.ho_lt l.obj hmem
    · exact hlptr ▸ hbacked.not_mem
  · have hsub : ∀ x ∈ q, x ∈ m.queue := fun x hx => hvq.mem_iff.mpr (List.mem_cons_of_mem _ hx)
    refine ⟨h.loose.lt, hno.2, ?_, fun x hx => h.loose.own x (hsub x hx),
      fun x hx => h.loose.known x (hsub x hx)⟩
    change obj.ptr ∉ (released m.opts e.ho m.freed).map Ho.ptr
    unfold released
    split
    · rw [List.map_cons, List.mem_cons, not_or]
      exact ⟨hlptr ▸ hno.1, h.loose.alive⟩
    · exact h.loose.alive
  · intro x hx hxa
    have hnodup := (hvq.map fun e => e.ho.ptr).nodup_iff.mp h.backed.nodup_known
    have hxe : x.ho.ptr ≠ e.ho.ptr := fun heq =>
      (List.nodup_cons.mp hnodup).1 (List.mem_map.mpr ⟨x, hx, heq⟩)
    refine alive_of_not_mem ?_
    have hxm : x.ho.ptr ∉ m.freed.map Ho.ptr := of_decide_eq_true hxa
    change x.ho.ptr ∉ (released m.opts e.ho m.freed).map Ho.ptr
    unfold released
    split
    · rw [List.map_cons, List.mem_cons, not_or]
      exact ⟨hxe, hxm⟩
    · exact hxm

/-- **What a put of `obj` must find so that it is defined, and the queue goes on to know all
objects**: the victim's own object, if one has to be discarded; and if the object is stored, an
entry for it, and no released object on the walk to its place. -/
structure Sound (m : Hmap κ β) (obj : Obj κ β) : Prop where
  evict : Adds m obj.key → m.opts.max ≤ m.sz → Evicts m obj.key
  entry : Stores m obj.key → HasEntry m obj ∧ Walks m

theorem Outside.loose {obj : Obj κ β} (h : Outside m obj)
    (hwhole : ∀ e ∈ m.queue, e.bare = false) : Loose (stored m) m.queue m.brk m.freed obj :=
  ⟨h.lt, h.not_stored, h.alive, fun e he hpqe => h.same e he (h.entry e he hpqe),
    fun e he => h.known e he (hwhole e he)⟩

theorem Loose.mono {l l' : List (Obj κ β)} {q q' : List (QEntry κ β)} {brk : Nat}
    {freed : List (Ho κ β)} {obj : Obj κ β} (h : Loose l q brk freed obj) (hl : l' ⊆ l)
    (hq : q' ⊆ q) : Loose l' q' brk freed obj := by
  refine ⟨h.lt, fun hmem => ?_, h.alive, fun e he => h.own e (hq he),
    fun e he => h.known e (hq he)⟩
  obtain ⟨o, ho, heq⟩ := List.mem_map.mp hmem
  exact h.not_mem (List.mem_map.mpr ⟨o, hl ho, heq⟩)

/-- A put that has a place for its object comes to the push, once its eviction is over. -/
theorem Entered.room (h : Entered m) {obj : Obj κ β}
    (hloose : Loose (stored m) m.queue m.brk m.freed obj) (hsafe : Sound m obj) {i : Nat}
    {before after : List (Obj κ β)} (hs : m.scan obj.key = some (.room i before after))
    (hr : Room m obj.key i before after) (hadds : Adds m obj.key) :
    ∃ old rest m₁, m.putPlace obj = m₁.putCount obj old ∧ Pending m₁ obj rest ∧ HasEntry m₁ obj ∧
      Walks m₁ := by
  obtain ⟨hentry, hwalks⟩ := hsafe.entry (.inl hadds)
  have hw : Pending (m.setBucket i (before ++ obj :: after)) obj (stored m) :=
    ⟨hr.link obj rfl, h.policy, h.ready, stored_link hr.idx_lt hr.eq obj, h.backed, hloose⟩
  simp only [putPlace, hs, Option.bind_eq_bind, Option.bind_some, putEnd]
  by_cases hsz : m.opts.max ≤ m.sz
  · obtain ⟨e, q, l, hv, hne, hfind, hl, hho⟩ := (hsafe.evict hadds hsz).found h.toTable hr
    obtain ⟨rest', m₁, hpop, hw₁, hstill, hqueue, hbrk, halive⟩ := hw.pop hv hfind hl hho hne
    have hpol : m₁.opts.policy = m.opts.policy := congrArg Opts.policy hstill.opts
    refine ⟨handedOut m.opts e.ho, rest', m₁, ?_, hw₁, ?_, fun hcustom x hx => ?_⟩
    · rw [if_pos ⟨hsz, h.policy⟩, hpop]
      rfl
    · rcases hentry with ⟨hpqe, hsup⟩ | ⟨hcustom, e₀, he₀, hpqe, hdata⟩
      · exact .inl ⟨hpqe, (hstill.supplied_iff hbrk).mpr hsup⟩
      · -- its entry is not the one that is discarded
        refine .inr ⟨hpol ▸ hcustom, e₀, ?_, hpqe, hpol ▸ hdata⟩
        rw [hqueue]
        rcases List.mem_cons.mp ((victim_perm hv).mem_iff.mp he₀) with rfl | hmem
        · exact absurd (congrArg Ho.key (hloose.own e₀ he₀ hpqe)) hne
        · exact hmem
    · rw [hqueue] at hx
      have hmem : x ∈ m.queue := (victim_perm hv).mem_iff.mpr (List.mem_cons_of_mem _ hx)
      exact halive x hx (hwalks (hpol ▸ hcustom) x hmem)
  · refine ⟨none, stored m, m.setBucket i (before ++ obj :: after), ?_, hw, hentry, hwalks⟩
    rw [if_neg fun hc => hsz hc.1]
    rfl

/-- A put that meets an object with its key. -/
theorem Entered.oOverwrite (h : Entered m) {obj : Obj κ β}
    (hloose : Loose (stored m) m.queue m.brk m.freed obj) {l : Loc κ β} (hl : At m l)
    (hk : l.obj.key = obj.key)
    (hsafe : m.opts.noOverwrite = false → HasEntry m obj ∧ Walks m) :
    ∃ res m', m.oOverwrite l obj = some (res, m') ∧ Entered m' := by
  unfold Hmap.oOverwrite
  cases hno : m.opts.noOverwrite with
  | true =>
    cases hown : m.opts.ownsData with
    | true =>
      refine ⟨⟨.errExists, none⟩, m.oFree obj.toHo, by simp,
        h.toTable.of_buckets rfl rfl rfl, h.policy, h.ready,
        h.backed.free hloose.lt hloose.not_mem⟩
    | false => exact ⟨⟨.errExists, some l.obj.toHo⟩, m, by simp, h⟩
  | false =>
    obtain ⟨hentry, hwalks⟩ := hsafe hno
    obtain ⟨p, q₁, e, q₂, hpqe, hsplit, hq, -, heho⟩ := h.backed.split hl.mem
    obtain ⟨rest, hall, -, hrepl⟩ := hl.exists_rest
    have hdel : m.queueDel l.obj = some { m with queue := q₁ ++ q₂ } := by
      simp [queueDel, hpqe, hsplit]
    have hperm : m.queue ~ e :: (q₁ ++ q₂) := by
      rw [hq]
      exact List.perm_middle
    have hsub : q₁ ++ q₂ ⊆ m.queue := fun x hx => hperm.mem_iff.mpr (List.mem_cons_of_mem _ hx)
    have hbacked := h.backed.perm hall
    have hloose' : Loose rest (q₁ ++ q₂) m.brk m.freed obj :=
      hloose.mono (fun o ho => hall.mem_iff.mpr (List.mem_cons_of_mem _ ho)) hsub
    have hne : obj.ptr ≠ l.obj.ptr := fun heq =>
      hloose.not_mem (List.mem_map.mpr ⟨l.obj, hl.mem, heq.symm⟩)
    have hentry' : HasEntry { m with queue := q₁ ++ q₂ } obj := by
      rcases hentry with hnew | ⟨hcustom, e₀, he₀, hpqe₀, hdata⟩
      · exact .inl hnew
      · refine .inr ⟨hcustom, e₀, ?_, hpqe₀, hdata⟩
        rcases List.mem_cons.mp (hperm.mem_iff.mp he₀) with rfl | hmem
        · exact absurd (congrArg Ho.ptr ((hloose.own e₀ he₀ hpqe₀).symm.trans heho)) hne
        · exact hmem
    obtain ⟨p', q, brk, hpush, hle, hnew⟩ := @Backed.push _ _ { m with queue := q₁ ++ q₂ } rest
      (hbacked.drop hperm heho.symm) h.policy h.ready obj hloose' hentry'
      fun hcustom x hx => hwalks hcustom x (hsub hx)
    refine ⟨⟨.errNone, handedOut m.opts l.obj.toHo⟩, {
      m.setBucket l.idx (l.before ++ { obj with pqe := some p' } :: l.after) with
      queue := q, brk, freed := released m.opts l.obj.toHo m.freed }, ?_, ?_, h.policy, h.ready, ?_⟩
    · rw [if_neg (by simp), opPut_of_ne h.policy, hdel]
      simp only [if_true, Option.bind_eq_bind, Option.bind_some, hpush, dispose_eq]
      rfl
    · exact (@Table.replace _ _ _ h.toTable l hl { obj with pqe := some p' } hk.symm).of_buckets
        rfl rfl rfl
    · refine ((hnew.perm (hrepl { obj with pqe := some p' }).symm).release m.opts ?_ ?_)
      · exact (h.backed.ho_lt l.obj hl.mem).trans_le hle
      · rw [((hrepl { obj with pqe := some p' }).map _).mem_iff, List.map_cons, List.mem_cons,
          not_or]
        exact ⟨hne.symm, hbacked.not_mem⟩

/-- **A put is defined, and the queue goes on to know all objects,** under its condition. -/
theorem Entered.put (h : Entered m) {obj : Obj κ β}
    (hloose : Loose (stored m) m.queue m.brk m.freed obj) (hsafe : Sound m obj) (mem : Mem) :
    ∃ res m', m.put obj mem = some (res, m') ∧ Entered m' := by
  rw [put_of_policy h.policy]
  rcases scan_spec h.toTable obj.key with
    ⟨l, hs, hl, hk, -⟩ | ⟨i, before, after, hs, hr, hadds, -⟩ | ⟨hs, -⟩
  · have hnfull : ¬ Full m obj.key := fun hfull => by
      simpa [hs] using (h.toTable.scan_full_iff obj.key).mpr hfull
    have hplace : m.putPlace obj = m.oOverwrite l obj := by
      simp only [putPlace, hs]
      rfl
    rw [hplace]
    exact h.oOverwrite hloose hl hk fun hno => hsafe.entry (.inr ⟨hno, hnfull⟩)
  · obtain ⟨old, rest, m₁, hend, hw, hentry, hwalks⟩ := h.room hloose hsafe hs hr hadds
    obtain ⟨m', hput, h'⟩ := hw.putCount hentry hwalks old
    exact ⟨_, m', hend.trans hput, h'⟩
  · refine ⟨⟨.errFail, none⟩, m, ?_, h⟩
    simp only [putPlace, hs, Option.bind_eq_bind, Option.bind_some]

/-! ## 4. Calls -/

/-- The new object of a put. -/
theorem Entered.oNew (h : Entered m) (k : κ) (v : β) :
    Entered (m.oNew k v).2 ∧ Loose (stored (m.oNew k v).2) (m.oNew k v).2.queue (m.oNew k v).2.brk
      (m.oNew k v).2.freed (m.oNew k v).1 := by
  refine ⟨⟨h.toTable.of_buckets rfl rfl rfl, h.policy, h.ready,
    h.backed.brk_le (Nat.le_succ _)⟩, Nat.lt_succ_self _, fun hmem => ?_, fun hmem => ?_,
    fun e _ hpqe => (by cases hpqe), fun e he heq => ?_⟩
  · obtain ⟨o, ho, heq⟩ := List.mem_map.mp hmem
    exact (h.backed.ho_lt o ho).ne heq
  · have hlt : m.brk < m.brk := h.backed.freed_lt m.brk hmem
    exact absurd hlt (lt_irrefl m.brk)
  · exact absurd heq (h.backed.entry_lt e he).2.ne

theorem Entered.get (h : Entered m) (k : κ) (hsafe : m.opts.policy = .lfu → Counts m k) :
    ∃ res m', m.get k = some (res, m') ∧ Entered m' := by
  rcases find_spec h.toTable k with ⟨l, hfind, hl, hlk, -⟩ | ⟨hfind, hnot⟩
  · simp only [Hmap.get, hfind, Option.bind_eq_bind, Option.bind_some]
    cases hget : opGet m.opts.policy with
    | false => exact ⟨_, m, rfl, h⟩
    | true =>
      obtain ⟨p, q₁, e, q₂, hpqe, hsplit, hq, he, heho⟩ := h.backed.split hl.mem
      have hwhole := h.backed.whole
      rw [hq] at hwhole
      have hpair := List.forall_mem_cons.mp (List.forall_mem_append.mp hwhole).2
      have halive : m.alive l.obj.toHo = true := alive_of_not_mem (h.backed.alive l.obj hl.mem)
      have hdata : m.opts.policy = .lfu → e.data < 2 ^ 31 - 1 := by
        intro hlfu
        have hcounts := hsafe hlfu
        rw [Counts, hfind] at hcounts
        exact hcounts e (by rw [hq]; simp) (congrArg Ho.ptr heho)
      have hlinks := touch_links m.opts q₁ e q₂
      rw [← hq] at hlinks
      refine ⟨⟨.errNone, some l.obj.toHo⟩, { m with queue := touch m.opts q₁ e q₂ }, ?_,
        h.toTable.of_buckets rfl rfl rfl, h.policy, h.ready,
        h.backed.moved hlinks (whole_touch m.opts hwhole)⟩
      rw [if_pos rfl, hpqe, push_old hget halive hsplit hpair.1 hpair.2 hdata]
      simp only [Option.bind_some, if_true]
      rw [hl.setBucket_pqe hpqe]
  · exact ⟨⟨.errFail, none⟩, m, by simp [Hmap.get, hfind], h⟩

theorem Entered.del (h : Entered m) (k : κ) : ∃ res m', m.del k = some (res, m') ∧ Entered m' := by
  rcases find_spec h.toTable k with ⟨l, hfind, hl, hlk, -⟩ | ⟨hfind, hnot⟩
  · obtain ⟨rest, hall, hrem, -⟩ := hl.exists_rest
    have hbacked := h.backed.perm hall
    have hdel := del_of_find hfind
    generalize SizeT.sub m.sz 1 = sz at hdel
    have hstored : stored { m.setBucket l.idx (l.before ++ l.after) with
        freed := released m.opts l.obj.toHo m.freed, sz }
        = stored (m.setBucket l.idx (l.before ++ l.after)) := stored_of_buckets rfl rfl
    refine ⟨_, _, hdel, (h.toTable.remove hl).of_buckets rfl rfl rfl, h.policy, h.ready, ?_⟩
    rw [hstored]
    refine (hbacked.tail.release m.opts ?_ hbacked.not_mem).perm hrem.symm
    exact h.backed.ho_lt l.obj hl.mem
  · exact ⟨⟨.errFail, none⟩, m, by simp [Hmap.del, hfind], h⟩

theorem Entered.of_del (h : Entered m) {k : κ} {res : Res κ β} (hdel : m.del k = some (res, m')) :
    Entered m' := by
  obtain ⟨res₁, m₁, hdel₁, h₁⟩ := h.del k
  obtain ⟨-, rfl⟩ : res = res₁ ∧ m' = m₁ := by simpa [hdel] using hdel₁
  exact h₁

theorem Entered.clear (h : Entered m) : Entered m.clear := by
  have hempty : ∀ i < m.size, m.clear.buckets i = [] := fun i hi => if_pos hi
  have hstored : stored m.clear = [] :=
    List.flatMap_eq_nil_iff.mpr fun i hi => hempty i (List.mem_range.mp hi)
  have hfreed : ∀ p ∈ m.clear.freed.map Ho.ptr, p < m.brk := by
    intro p hp
    simp only [Hmap.clear] at hp
    split at hp
    · rw [List.map_append, List.mem_append] at hp
      rcases hp with hp | hp
      · obtain ⟨ho, hho, rfl⟩ := List.mem_map.mp hp
        obtain ⟨o, ho', rfl⟩ := List.mem_map.mp hho
        exact h.backed.ho_lt o (List.mem_reverse.mp ho')
      · exact h.backed.freed_lt p hp
    · exact h.backed.freed_lt p hp
  refine ⟨table_of_empty h.lawful h.size_pos hempty, h.policy, h.ready, ?_⟩
  rw [hstored]
  exact ⟨fun _ ho => absurd ho (by simp), List.nodup_nil, List.nodup_nil, List.nodup_nil,
    fun _ ho => absurd ho (by simp), fun _ he => absurd he (by simp [Hmap.clear]),
    fun _ ho => absurd ho (by simp), hfreed, fun _ he => absurd he (by simp [Hmap.clear])⟩

theorem Queued.entered (h : Queued m) (hlt : ∀ e ∈ m.queue, e.ho.ptr < m.brk) : Entered m := by
  have hok := h.queue_ok
  refine ⟨h.toTable, h.policy, h.ready, fun o ho => ?_, ?_, ?_, ?_, fun o ho => ?_, fun e he => ?_,
    fun o ho => ?_, h.ok.freed_lt, h.whole⟩
  · obtain ⟨e, he, hpqe, hho⟩ := h.entry_of_mem ho
    exact ⟨e, he, Prod.ext hpqe hho⟩
  · have hnodup := h.ok.nodup_ho
    rwa [links, List.map_map] at hnodup
  · have hnodup := hok.nodup_ptr
    rw [List.map_map] at hnodup
    exact List.Nodup.of_map some (by rwa [List.map_map])
  · have hnodup := hok.nodup_ho
    rwa [List.map_map] at hnodup
  · exact h.ok.ho_lt o.link (List.mem_map_of_mem ho)
  · obtain ⟨p, hp, heq⟩ := hok.ptr_lt e.link (List.mem_map_of_mem he)
    rw [← Option.some.inj heq] at hp
    exact ⟨hp, hlt e he⟩
  · exact h.ok.alive o.link (List.mem_map_of_mem ho)

theorem new_entered {brk : Nat} {avail : Nat → QMem} (hl : Lawful opts) (hp : opts.policy ≠ .none)
    (hnew : new opts brk [] avail = some m) : Entered m := by
  obtain ⟨h, hqueue, -⟩ := new_queued hl hp hnew
  refine h.entered fun e he => ?_
  rw [hqueue] at he
  cases he

section Decide

variable [DecidableEq κ] [DecidableEq β]

instance (m : Hmap κ β) (obj : Obj κ β) : Decidable (HasEntry m obj) :=
  inferInstanceAs (Decidable (_ ∨ _ ∧ ∃ e ∈ m.queue, _))

instance (m : Hmap κ β) : Decidable (Walks m) :=
  inferInstanceAs (Decidable (_ → ∀ e ∈ m.queue, _))

instance (m : Hmap κ β) (obj : Obj κ β) : Decidable (Sound m obj) :=
  decidable_of_iff ((Adds m obj.key → m.opts.max ≤ m.sz → Evicts m obj.key) ∧
    (Stores m obj.key → HasEntry m obj ∧ Walks m))
    ⟨fun h => ⟨h.1, h.2⟩, fun h => ⟨h.evict, h.entry⟩⟩

end Decide

end Libu.Hmap
