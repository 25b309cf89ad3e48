/-
# What `u_hmap_count` counts

The counter of a map is kept apart from its buckets.  `Tally` compares the two: with `d = 0` the
counter is the number of stored objects, with `d = 1` one more object is linked than is counted,
as in the middle of a put.  Both table types and all policies are treated together.

* `Pool`: maps that share a heap, with the calls that touch one map or two.
* `count_of_guarded`: in a run, `u_hmap_count` of every map is the number of its objects, as long
  as every call meets `Counted`.

What `Counted` leaves out changes the buckets behind the counter's back: a clear of a map with
objects, a copy from one, an eviction that finds no object, the move of a key that is stored twice
into a larger table that does not overwrite, and a put of an object with a queue entry where no
entry can be moved.
-/
import Libu.Hmap.Map
import Libu.Hmap.Stale

namespace Libu.Hmap

open Verif
open scoped List

variable {κ β : Type} {m m' : Hmap κ β} {opts : Opts κ β} {d : Nat}

/-! ## 1. Steps that leave the table alone -/

/-- `m'` is `m` with another queue and another heap. -/
structure Beside (m m' : Hmap κ β) : Prop extends Kept m m' where
  sz : m'.sz = m.sz
  buckets : m'.buckets = m.buckets

theorem Beside.trans {m₁ m₂ : Hmap κ β} (h : Beside m m₁) (h' : Beside m₁ m₂) : Beside m m₂ :=
  ⟨h.toKept.trans h'.toKept, h'.sz.trans h.sz, h'.buckets.trans h.buckets⟩

/-- A push leaves the table alone. -/
theorem push_beside {ho : Ho κ β} {ret : Ret} {pqe pqe' : Option Nat}
    (h : m.push ho pqe = some (ret, pqe', m')) :
    Beside m m' ∧ (¬ PushFails m pqe → ret = .errNone) := by
  have hshape := push_shape h
  obtain ⟨queue, brk, rfl, -, -⟩ := hshape.eq
  exact ⟨⟨⟨rfl, rfl, rfl, rfl⟩, rfl, rfl⟩, hshape.goes⟩

theorem queueDel_beside {obj : Obj κ β} (h : m.queueDel obj = some m') : Beside m m' := by
  unfold queueDel at h
  obtain ⟨p, -, h⟩ := Option.bind_eq_some_iff.mp h
  obtain ⟨⟨q₁, e, q₂⟩, -, h⟩ := Option.bind_eq_some_iff.mp h
  obtain rfl := Option.some.inj h
  exact ⟨⟨rfl, rfl, rfl, rfl⟩, rfl, rfl⟩

theorem dispose_beside (m : Hmap κ β) (ho : Ho κ β) : Beside m (m.dispose ho).2 := by
  rw [dispose_eq]
  exact ⟨⟨rfl, rfl, rfl, rfl⟩, rfl, rfl⟩

/-! ## 2. The tally -/

/-- `n` objects are within what a map without policy holds between resizes. -/
def Roomy (m : Hmap κ β) (n : Nat) : Prop :=
  n ≤ m.threshold ∨ (m.opts.size = m.size ∧ n ≤ m.threshold + 1)

/-- **The invariant of the counter.**  The map, created with `opts`, stores `d` objects more than
it counts. -/
structure Tally (opts : Opts κ β) (d : Nat) (m : Hmap κ β) : Prop extends Table m where
  opts_eq : m.opts = { opts with size := m.opts.size }
  max_pos : 0 < opts.max
  length : (stored m).length = m.sz + d
  few : m.sz + d < 2 ^ 63
  sizes : opts.policy = .none → Sizes opts m ∧ Roomy m (m.sz + d)

theorem Roomy.mono {n n' : Nat} (h : Roomy m n) (hle : n' ≤ n) : Roomy m n' := by
  unfold Roomy at h ⊢
  omega

theorem Roomy.kept {n : Nat} (h : Roomy m n) (hk : Kept m m') : Roomy m' n := by
  unfold Roomy at h ⊢
  rwa [hk.threshold, hk.opts, hk.size]

/-- A map that counts its objects. -/
theorem Tally.count (h : Tally opts 0 m) : count m = (stored m).length := by
  have hfew := h.few
  rw [Nat.add_zero] at hfew
  rw [Hmap.count, SizeT.toSigned_of_lt hfew, h.length, Nat.add_zero]

/-- The sizes stay, the table is still one, and objects and counter agree. -/
theorem Tally.kept {e : Nat} (h : Tally opts d m) (hk : Kept m m') (ht : Table m')
    (hlen : (stored m').length = m'.sz + e) (hfew : m'.sz + e < 2 ^ 63)
    (hroomy : opts.policy = .none → Roomy m (m'.sz + e)) : Tally opts e m' := by
  refine ⟨ht, ?_, h.max_pos, hlen, hfew, fun hpol => ?_⟩
  · rw [hk.opts]
    exact h.opts_eq
  · exact ⟨(h.sizes hpol).1.kept hk, (hroomy hpol).kept hk⟩

/-- Neither the objects nor the counter change in number. -/
theorem Tally.same (h : Tally opts d m) (hk : Kept m m') (hsz : m'.sz = m.sz) (ht : Table m')
    (hlen : (stored m').length = (stored m).length) : Tally opts d m' := by
  refine h.kept hk ht ?_ ?_ ?_
  · rw [hlen, hsz, h.length]
  · rw [hsz]
    exact h.few
  · intro hpol
    rw [hsz]
    exact (h.sizes hpol).2

theorem Tally.beside (h : Tally opts d m) (hb : Beside m m') : Tally opts d m' :=
  h.same hb.toKept hb.sz (h.toTable.of_buckets hb.opts hb.size hb.buckets)
    (congrArg List.length (stored_of_buckets hb.size hb.buckets))

theorem Tally.setPqe (h : Tally opts d m) (ptr : Nat) (pqe : Option Nat) :
    Tally opts d (m.setPqe ptr pqe) := by
  refine h.same ⟨rfl, rfl, rfl, rfl⟩ rfl (h.toTable.setPqe ptr pqe) ?_
  rw [stored_setPqe, List.length_map]

theorem Tally.replace (h : Tally opts d m) {l : Loc κ β} (hl : At m l) {obj : Obj κ β}
    (hk : obj.key = l.obj.key) :
    Tally opts d (m.setBucket l.idx (l.before ++ obj :: l.after)) := by
  obtain ⟨rest, hall, -, hrepl⟩ := hl.exists_rest
  refine h.same ⟨rfl, rfl, rfl, rfl⟩ rfl (h.toTable.replace hl hk) ?_
  rw [(hrepl obj).length_eq, hall.length_eq, List.length_cons, List.length_cons]

theorem Tally.policy (h : Tally opts d m) : m.opts.policy = opts.policy := by rw [h.opts_eq]

theorem Tally.noOverwrite (h : Tally opts d m) : m.opts.noOverwrite = opts.noOverwrite := by
  rw [h.opts_eq]

/-- A map without policy whose keys are distinct is a finite map. -/
theorem Tally.plain (h : Tally opts 0 m) (hpol : opts.policy = .none) (hd : Distinct (hos m)) :
    Plain opts m := by
  obtain ⟨hsizes, hroomy⟩ := h.sizes hpol
  refine ⟨h.toTable, hsizes, hd, ?_, hroomy⟩
  rw [hos, List.length_map, h.length, Nat.add_zero]

theorem Plain.tally (h : Plain opts m) : Tally opts 0 m := by
  have hready := h.ready
  have hle := h.sz_le
  have hthr := h.threshold_eq
  have hsize := h.size_le
  simp only [optsCheck, Bool.and_eq_true, decide_eq_true_eq] at hready
  have hmax : m.opts.max = opts.max := by rw [h.opts_eq]
  refine ⟨h.toTable, h.opts_eq, ?_, ?_, ?_, fun _ => ⟨h.toSizes, h.sz_le⟩⟩
  · rw [← hmax]
    exact Nat.pos_of_ne_zero hready.1.2
  · rw [h.sz_eq, hos, List.length_map, Nat.add_zero]
  · omega

/-- A new map has no objects, and the heap that it is made on. -/
theorem new_heap {brk : Nat} {freed : List (Ho κ β)} {avail : Nat → QMem}
    (hnew : new opts brk freed avail = some m) : stored m = [] ∧ m.brk = brk ∧ m.freed = freed := by
  unfold new at hnew
  split at hnew
  · cases hnew
  · obtain ⟨⟨size, px⟩, -, heq⟩ := Option.bind_eq_some_iff.mp hnew
    obtain rfl := Option.some.inj heq
    exact ⟨stored_of_empty fun _ => rfl, rfl, rfl⟩

/-- A new map counts no objects. -/
theorem new_tally (hl : Lawful opts) {brk : Nat} {freed : List (Ho κ β)} {avail : Nat → QMem}
    (hnew : new opts brk freed avail = some m) : Tally opts 0 m := by
  by_cases hpol : opts.policy = .none
  · exact (new_plain hl hpol hnew).1.tally
  · unfold new at hnew
    split at hnew
    · cases hnew
    · next hcheck =>
      obtain ⟨⟨size, px⟩, hprime, heq⟩ := Option.bind_eq_some_iff.mp hnew
      obtain rfl := Option.some.inj heq
      simp only [optsCheck, Bool.not_eq_true', Bool.not_eq_false, Bool.and_eq_true,
        decide_eq_true_eq] at hcheck
      refine ⟨table_of_empty hl (nextPrime_pos hprime) fun _ _ => rfl, rfl,
        Nat.pos_of_ne_zero hcheck.1.2, ?_, Nat.two_pow_pos 63, fun hp => absurd hp hpol⟩
      rw [stored_of_empty fun _ => rfl]
      rfl

/-! ## 3. Dels and gets -/

/-- A del of a stored key takes one object and counts it out. -/
theorem Tally.del (h : Tally opts d m) {k : κ} {res : Res κ β} (hpos : Has m k → 0 < m.sz)
    (hdel : m.del k = some (res, m')) :
    Tally opts d m' ∧ (Has m k → res.ret = .errNone) ∧ Still m m' ∧ m'.brk = m.brk := by
  rcases find_spec h.toTable k with ⟨l, hfind, hl, rfl, -⟩ | ⟨hfind, hnot⟩
  · obtain ⟨rest, hall, hrem, -⟩ := hl.exists_rest
    rw [del_of_find hfind] at hdel
    obtain ⟨rfl, rfl⟩ := Prod.mk.inj (Option.some.inj hdel)
    have hsz := hpos hl.has
    have hfew := h.few
    have hlen := h.length
    have hsub : SizeT.sub m.sz 1 = m.sz - 1 := SizeT.sub_of_le (by omega) hsz
    rw [hall.length_eq, List.length_cons] at hlen
    rw [hsub]
    refine ⟨h.kept ⟨rfl, rfl, rfl, rfl⟩ ((h.toTable.remove hl).of_buckets rfl rfl rfl) ?_ ?_ ?_,
      fun _ => rfl, ⟨rfl, rfl⟩, rfl⟩
    · change (stored (m.setBucket l.idx (l.before ++ l.after))).length = m.sz - 1 + d
      rw [hrem.length_eq]
      omega
    · change m.sz - 1 + d < 2 ^ 63
      omega
    · intro hpol
      exact (h.sizes hpol).2.mono (Nat.add_le_add_right (Nat.sub_le m.sz 1) d)
  · rw [Hmap.del, hfind] at hdel
    obtain ⟨rfl, rfl⟩ := Prod.mk.inj (Option.some.inj hdel)
    exact ⟨h, fun hk => absurd hk hnot, ⟨rfl, rfl⟩, rfl⟩

/-- A stored object is counted. -/
theorem Tally.sz_pos (h : Tally opts 0 m) {k : κ} (hk : Has m k) : 0 < m.sz := by
  obtain ⟨o, ho, -⟩ := hk
  have hlen := List.length_pos_of_mem ho
  rwa [h.length, Nat.add_zero] at hlen

/-- A get writes at most the entry of the object back. -/
theorem Tally.get (h : Tally opts 0 m) {k : κ} {res : Res κ β}
    (hget : m.get k = some (res, m')) : Tally opts 0 m' := by
  rcases find_spec h.toTable k with ⟨l, hfind, hl, rfl, -⟩ | ⟨hfind, -⟩
  · unfold Hmap.get at hget
    rw [hfind] at hget
    simp only [Option.bind_eq_bind, Option.bind_some] at hget
    split at hget
    · obtain ⟨⟨ret, pqe, m₁⟩, hpush, hget⟩ := Option.bind_eq_some_iff.mp hget
      obtain ⟨-, rfl⟩ := Prod.mk.inj (Option.some.inj hget)
      obtain ⟨hb, -⟩ := push_beside hpush
      have hl₁ : At m₁ l := ⟨hb.size ▸ hl.idx_lt, hb.buckets ▸ hl.eq⟩
      exact (h.beside hb).replace hl₁ rfl
    · obtain ⟨-, rfl⟩ := Prod.mk.inj (Option.some.inj hget)
      exact h
  · unfold Hmap.get at hget
    rw [hfind] at hget
    obtain ⟨-, rfl⟩ := Prod.mk.inj (Option.some.inj hget)
    exact h

/-! ## 4. Puts without a resize -/

theorem Room.has_link {k k' : κ} {i : Nat} {before after : List (Obj κ β)}
    (hr : Room m k i before after) {obj : Obj κ β} :
    Has (m.setBucket i (before ++ obj :: after)) k' ↔ obj.key = k' ∨ Has m k' := by
  unfold Has
  simp only [(stored_link hr.idx_lt hr.eq obj).mem_iff, List.mem_cons, or_and_right, exists_or,
    exists_eq_left]

/-- The eviction of a put of `k` finds an object with the key of its victim; the object that is
being put counts. -/
def Evictable (m : Hmap κ β) (k : κ) : Prop :=
  match victim m.opts m.queue with
  | some (e, _) => k = e.ho.key ∨ Has m e.ho.key
  | none => False

/-- An object is linked, and not counted yet. -/
theorem Tally.link (h : Tally opts 0 m) {k : κ} {i : Nat} {before after : List (Obj κ β)}
    (hr : Room m k i before after) {obj : Obj κ β} (hk : obj.key = k) (hfew : m.sz + 1 < 2 ^ 63)
    (hroomy : opts.policy = .none → Roomy m (m.sz + 1)) :
    Tally opts 1 (m.setBucket i (before ++ obj :: after)) := by
  refine h.kept ⟨rfl, rfl, rfl, rfl⟩ (hr.link obj hk) ?_ hfew hroomy
  rw [(stored_link hr.idx_lt hr.eq obj).length_eq, List.length_cons, h.length]
  rfl

theorem policy_of_opPut (h : opPut m.opts.policy = true) : m.opts.policy ≠ .none := by
  intro hp
  rw [hp] at h
  cases h

/-- The linked object is counted. -/
theorem Tally.putCount (h : Tally opts 1 m) {obj : Obj κ β} {old : Option (Ho κ β)}
    {res : Res κ β} (hgo : m.opts.policy ≠ .none → ¬ PushFails m obj.pqe)
    (hput : m.putCount obj old = some (res, m')) : Tally opts 0 m' := by
  have hcount : ∀ {m₁ : Hmap κ β} {pqe : Option Nat}, Tally opts 1 m₁ →
      Tally opts 0 { m₁.setPqe obj.ptr pqe with sz := SizeT.add m₁.sz 1 } := by
    intro m₁ pqe h₁
    have h₂ := h₁.setPqe obj.ptr pqe
    have hadd : SizeT.add m₁.sz 1 = m₁.sz + 1 := SizeT.add_of_lt (by have := h₁.few; omega)
    rw [hadd]
    exact h₂.kept ⟨rfl, rfl, rfl, rfl⟩ (h₂.toTable.of_buckets rfl rfl rfl) h₂.length h₂.few
      fun hpol => (h₂.sizes hpol).2
  unfold Hmap.putCount at hput
  split at hput
  · next hop =>
    obtain ⟨⟨ret, pqe, m₁⟩, hpush, hput⟩ := Option.bind_eq_some_iff.mp hput
    obtain ⟨hb, hret⟩ := push_beside hpush
    obtain rfl := hret (hgo (policy_of_opPut hop))
    obtain ⟨-, rfl⟩ := Prod.mk.inj (Option.some.inj hput)
    exact hcount (h.beside hb)
  · obtain ⟨-, rfl⟩ := Prod.mk.inj (Option.some.inj hput)
    exact hcount h

/-- An eviction takes one object and counts it out, if the key of its victim is stored. -/
theorem Tally.pop (h : Tally opts d m) {res : Res κ β} {e : QEntry κ β} {q : List (QEntry κ β)}
    (hpol : m.opts.policy ≠ .none) (hsz : 0 < m.sz) (hv : victim m.opts m.queue = some (e, q))
    (hk : Has m e.ho.key) (hpop : m.pop = some (res, m')) :
    Tally opts d m' ∧ res.ret = .errNone ∧ Still m m' ∧ m'.brk = m.brk := by
  rw [pop_eq hpol, hv] at hpop
  dsimp only [popEntry] at hpop
  split at hpop
  · cases hpop
  · obtain ⟨⟨res₁, m₁⟩, hdel, hpop⟩ := Option.bind_eq_some_iff.mp hpop
    obtain ⟨h₁, hret, hstill, hbrk⟩ := h.del (fun _ => hsz) hdel
    dsimp only at hpop
    rw [if_pos (hret hk)] at hpop
    obtain ⟨rfl, rfl⟩ := Prod.mk.inj (Option.some.inj hpop)
    exact ⟨h₁.beside ⟨⟨rfl, rfl, rfl, rfl⟩, rfl, rfl⟩, hret hk, ⟨hstill.opts, hstill.avail⟩, hbrk⟩

theorem Still.pushFails_iff (h : Still m m') (hbrk : m'.brk = m.brk) (pqe : Option Nat) :
    PushFails m' pqe ↔ PushFails m pqe := by
  rw [PushFails, PushFails, h.supplied_iff hbrk, h.opts]

/-- The end of a put counts the linked object, if the eviction takes another one. -/
theorem Tally.putEnd (h : Tally opts 1 m) {obj : Obj κ β} {res : Res κ β}
    (hgo : m.opts.policy ≠ .none → ¬ PushFails m obj.pqe)
    (hevict : m.opts.max ≤ m.sz → m.opts.policy ≠ .none →
      ∃ e q, victim m.opts m.queue = some (e, q) ∧ Has m e.ho.key)
    (hput : m.putEnd obj = some (res, m')) : Tally opts 0 m' := by
  unfold Hmap.putEnd at hput
  split at hput
  · next hfull =>
    obtain ⟨⟨res₁, m₁⟩, hpop, hput⟩ := Option.bind_eq_some_iff.mp hput
    obtain ⟨e, q, hv, hk⟩ := hevict hfull.1 hfull.2
    have hmax : m.opts.max = opts.max := by rw [h.opts_eq]
    have hpos := h.max_pos
    obtain ⟨h₁, hret, hstill, hbrk⟩ := h.pop hfull.2 (by omega) hv hk hpop
    dsimp only at hput
    rw [if_neg (not_not.mpr hret)] at hput
    refine h₁.putCount (fun hpol => ?_) hput
    rw [hstill.pushFails_iff hbrk]
    exact hgo (hstill.opts ▸ hpol)
  · exact h.putCount hgo hput

/-- An object takes the place of one with its key, or the put is refused. -/
theorem Tally.oOverwrite (h : Tally opts d m) {l : Loc κ β} {obj : Obj κ β} {res : Res κ β}
    (hl : At m l) (hk : obj.key = l.obj.key) (hover : m.oOverwrite l obj = some (res, m')) :
    Tally opts d m' := by
  have hset : ∀ {m₁ : Hmap κ β} (o : Obj κ β), o.key = l.obj.key → Beside m m₁ →
      Tally opts d (m₁.setBucket l.idx (l.before ++ o :: l.after)) := by
    intro m₁ o ho hb
    have hl₁ : At m₁ l := ⟨hb.size ▸ hl.idx_lt, hb.buckets ▸ hl.eq⟩
    exact (h.beside hb).replace hl₁ ho
  unfold Hmap.oOverwrite at hover
  split at hover
  · split at hover
    · obtain ⟨-, rfl⟩ := Prod.mk.inj (Option.some.inj hover)
      exact h.beside ⟨⟨rfl, rfl, rfl, rfl⟩, rfl, rfl⟩
    · obtain ⟨-, rfl⟩ := Prod.mk.inj (Option.some.inj hover)
      exact h
  · split at hover
    · obtain ⟨m₁, hdel, hover⟩ := Option.bind_eq_some_iff.mp hover
      obtain ⟨⟨ret, pqe, m₂⟩, hpush, hover⟩ := Option.bind_eq_some_iff.mp hover
      have hb := (queueDel_beside hdel).trans (push_beside hpush).1
      dsimp only at hover
      split at hover
      · obtain ⟨-, rfl⟩ := Prod.mk.inj (Option.some.inj hover)
        exact hset { l.obj with pqe := none } rfl hb
      · obtain ⟨-, rfl⟩ := Prod.mk.inj (Option.some.inj hover)
        exact (hset { obj with pqe } hk hb).beside (dispose_beside _ _)
    · obtain ⟨-, rfl⟩ := Prod.mk.inj (Option.some.inj hover)
      exact (hset obj hk ⟨⟨rfl, rfl, rfl, rfl⟩, rfl, rfl⟩).beside (dispose_beside _ _)

/-- What a put of `obj` must find so that it is defined, and the counter stays right. -/
structure PutCounted (m : Hmap κ β) (obj : Obj κ β) (mem : Mem) : Prop where
  few : Adds m obj.key → m.sz + 1 < 2 ^ 63
  sound : m.opts.policy ≠ .none → Sound m obj
  resize : m.opts.policy = .none → m.threshold ≤ m.sz → m.opts.noOverwrite = true →
    Distinct (hos m) ∨ ResizeFails m mem

theorem HasEntry.not_pushFails {obj : Obj κ β} (h : HasEntry m obj) : ¬ PushFails m obj.pqe := by
  rintro (⟨hnone, hsup⟩ | ⟨hcustom, hsome⟩)
  · rcases h with ⟨-, hsup'⟩ | ⟨-, e, -, hpqe, -⟩
    · exact hsup hsup'
    · rw [hnone] at hpqe
      cases hpqe
  · rcases h with ⟨hnone, -⟩ | ⟨hne, -⟩
    · exact hsome hnone
    · exact hne hcustom

/-- The victim of an eviction that goes right is stored. -/
theorem Evicts.exists_victim {k : κ} (h : Evicts m k) (ht : Table m) :
    ∃ e q, victim m.opts m.queue = some (e, q) ∧ Has m e.ho.key := by
  unfold Evicts at h
  cases hv : victim m.opts m.queue with
  | none => rw [hv] at h; cases h
  | some x =>
    obtain ⟨e, q⟩ := x
    rw [hv] at h
    obtain ⟨-, hfinds⟩ := h
    refine ⟨e, q, rfl, ?_⟩
    unfold Finds at hfinds
    rcases find_spec ht e.ho.key with ⟨l, -, hl, hlk, -⟩ | ⟨hfind, -⟩
    · exact hlk ▸ hl.has
    · rw [hfind] at hfinds
      cases hfinds

/-- A put that does not resize the table. -/
theorem Tally.putPlace (h : Tally opts 0 m) {obj : Obj κ β} {res : Res κ β}
    (hfew : Adds m obj.key → m.sz + 1 < 2 ^ 63)
    (hroomy : opts.policy = .none → Roomy m (m.sz + 1))
    (hsound : m.opts.policy ≠ .none → Sound m obj) (hput : m.putPlace obj = some (res, m')) :
    Tally opts 0 m' := by
  unfold Hmap.putPlace at hput
  rcases scan_spec h.toTable obj.key with
    ⟨l, hs, hl, hk, -⟩ | ⟨i, before, after, hs, hr, hadds, -⟩ | ⟨hs, -⟩
  · rw [hs] at hput
    exact h.oOverwrite hl hk.symm hput
  · rw [hs] at hput
    refine (h.link hr rfl (hfew hadds) hroomy).putEnd (fun hpol => ?_) (fun hfull hpol => ?_) hput
    · exact ((hsound hpol).entry (.inl hadds)).1.not_pushFails
    · obtain ⟨e, q, hv, hhas⟩ := ((hsound hpol).evict hadds hfull).exists_victim h.toTable
      exact ⟨e, q, hv, hr.has_link.mpr (.inr hhas)⟩
  · rw [hs] at hput
    obtain ⟨-, rfl⟩ := Prod.mk.inj (Option.some.inj hput)
    exact h

/-! ## 5. Resizes

A table may hold a key twice: a linear one takes it again when an empty slot hides it.  The copy of
a resize then puts the key a second time, which is refused and loses objects, or overwrites. -/

/-- A full table holds more objects than the threshold. -/
theorem Tally.not_full (h : Tally opts 0 m) (hpol : opts.policy = .none)
    (hlt : m.sz < m.threshold) (k : κ) : ¬ Passes m k (m.size - 1) := by
  intro hfull
  have hlen := length_stored_of_full h.toTable hfull
  have hthr := (h.sizes hpol).1.threshold_eq
  have hge := (h.sizes hpol).1.size_ge
  rw [h.length] at hlen
  omega

/-- A put into a table with room goes through, if it may overwrite. -/
theorem Tally.putPlace_done (h : Tally opts 0 m) (hpol : opts.policy = .none)
    (hno : opts.noOverwrite = false) (hlt : m.sz < m.threshold) (obj : Obj κ β) :
    ∃ old m', m.putPlace obj = some (⟨.errNone, old⟩, m') ∧ Tally opts 0 m' ∧ Kept m m' ∧
      m'.sz ≤ m.sz + 1 := by
  have hpolm : m.opts.policy = .none := h.policy.trans hpol
  have hnom : m.opts.noOverwrite = false := h.noOverwrite.trans hno
  have hthr := (h.sizes hpol).1.threshold_eq
  have hle := (h.sizes hpol).1.size_le
  have hadd : SizeT.add m.sz 1 = m.sz + 1 := SizeT.add_of_lt (by omega)
  have htally : ∀ {res : Res κ β} {m' : Hmap κ β}, m.putPlace obj = some (res, m') →
      Tally opts 0 m' := by
    intro res m' hput
    exact h.putPlace (fun _ => by omega) (fun _ => Or.inl hlt) (fun hp => absurd hpolm hp) hput
  rcases scan_spec h.toTable obj.key with
    ⟨l, hs, hl, hk, -⟩ | ⟨i, before, after, hs, hr, hadds, -⟩ | ⟨-, -, -, hfull⟩
  · have hput : m.putPlace obj = some (⟨.errNone, handedOut m.opts l.obj.toHo⟩,
        ((m.setBucket l.idx (l.before ++ obj :: l.after)).dispose l.obj.toHo).2) := by
      simp [Hmap.putPlace, hs, Hmap.oOverwrite, hnom, hpolm, opPut, dispose_eq]
    have hb := dispose_beside (m.setBucket l.idx (l.before ++ obj :: l.after)) l.obj.toHo
    refine ⟨_, _, hput, htally hput, ⟨hb.opts, hb.size, hb.threshold, hb.px⟩, ?_⟩
    rw [hb.sz]
    exact Nat.le_succ m.sz
  · have hput : m.putPlace obj = some (⟨.errNone, none⟩,
        { (m.setBucket i (before ++ obj :: after)).setPqe obj.ptr obj.pqe with
          sz := m.sz + 1 }) := by
      rw [← hadd]
      simp [Hmap.putPlace, hs, Hmap.putEnd, Hmap.putCount, hpolm, opPut, Hmap.setPqe, setBucket]
    exact ⟨_, _, hput, htally hput, ⟨rfl, rfl, rfl, rfl⟩, le_refl _⟩
  · exact absurd hfull (h.not_full hpol hlt obj.key)

/-- What is known of the map that a copy fills: it has room for `n` more objects. -/
structure Takes (opts : Opts κ β) (n : Nat) (dst : Hmap κ β) : Prop extends Tally opts 0 dst where
  room : dst.sz + n ≤ dst.threshold

/-- The inner loop of a copy. -/
theorem copyBucket_takes (hpol : opts.policy = .none) (hno : opts.noOverwrite = false) (i n : Nat)
    (l : List (Obj κ β)) : ∀ {dst : Hmap κ β} (src : Hmap κ β), Takes opts (l.length + n) dst →
    ∃ dst' src', (∀ put, NoResize put → copyBucket put i l dst src = some (true, dst', src')) ∧
      Takes opts n dst' ∧ Kept dst dst' ∧ ∀ j ≠ i, src'.buckets j = src.buckets j := by
  induction l with
  | nil =>
    intro dst src h
    rw [List.length_nil, Nat.zero_add] at h
    exact ⟨dst, src, fun _ _ => rfl, h, ⟨rfl, rfl, rfl, rfl⟩, fun _ _ => rfl⟩
  | cons obj l ih =>
    intro dst src h
    have hroom := h.room
    rw [List.length_cons] at hroom
    have hlt : dst.sz < dst.threshold := by omega
    obtain ⟨old, dst₁, hput, h₁, hk₁, hsz₁⟩ := h.toTally.putPlace_done hpol hno hlt obj
    have htakes : Takes opts (l.length + n) dst₁ := ⟨h₁, by rw [hk₁.threshold]; omega⟩
    obtain ⟨dst', src', hcopy, h', hk', hsrc⟩ := ih (src.setBucket i l) htakes
    refine ⟨dst', src', fun put hnr => ?_, h', hk₁.trans hk', fun j hj => ?_⟩
    · simp [copyBucket, hnr dst obj hlt, hput, hcopy put hnr]
    · rw [hsrc j hj, setBucket_of_ne hj]

/-- The outer loop of a copy. -/
theorem copyBuckets_takes (hpol : opts.policy = .none) (hno : opts.noOverwrite = false)
    (is : List Nat) : ∀ {dst : Hmap κ β} (src : Hmap κ β), is.Nodup →
    Takes opts (is.flatMap src.buckets).length dst →
    ∃ dst' src', (∀ put, NoResize put → copyBuckets put is dst src = some (true, dst', src')) ∧
      Tally opts 0 dst' ∧ Kept dst dst' ∧ dst'.sz ≤ dst'.threshold := by
  induction is with
  | nil =>
    intro dst src _ h
    exact ⟨dst, src, fun _ _ => rfl, h.toTally, ⟨rfl, rfl, rfl, rfl⟩, h.room⟩
  | cons i is ih =>
    intro dst src hnd h
    rw [List.flatMap_cons, List.length_append] at h
    obtain ⟨hi, his⟩ := List.nodup_cons.mp hnd
    obtain ⟨dst₁, src₁, hcopy, h₁, hk₁, hsrc⟩ := copyBucket_takes hpol hno i _ _ src h
    have hsame : is.flatMap src₁.buckets = is.flatMap src.buckets := by
      refine List.flatMap_congr ?_
      intro j hj
      exact hsrc j (fun hji => hi (hji ▸ hj))
    rw [← hsame] at h₁
    obtain ⟨dst', src', hcopy', h', hk', hle⟩ := ih src₁ his h₁
    refine ⟨dst', src', fun put hnr => ?_, h', hk₁.trans hk', hle⟩
    simp [copyBuckets, hcopy put hnr, hcopy' put hnr]

/-- The new map of a resize takes all objects, under whatever keys. -/
theorem new_takes (h : Tally opts 0 m) (hpol : opts.policy = .none) {size px : Nat}
    (hge : 3 * m.opts.size ≤ size) (hgrow : m.size ≤ size) (hget : primes[px]? = some size) :
    ∃ newmap, new { m.opts with size } m.brk m.freed m.avail = some newmap ∧
      Takes opts (stored m).length newmap ∧ newmap.opts.size = newmap.size := by
  obtain ⟨hsizes, hroomy⟩ := h.sizes hpol
  have hready := hsizes.ready
  simp only [optsCheck, Bool.and_eq_true, decide_eq_true_eq] at hready
  have hbounds := primes_bounds size (List.mem_of_getElem? hget)
  have hnext : nextPrime size 0 = some (size, px) :=
    nextPrime_prime (size, px) (List.mk_mem_zipIdx_iff_getElem?.mpr hget)
  have hcheck : optsCheck { m.opts with size } = true := by
    simp only [optsCheck, Bool.and_eq_true, decide_eq_true_eq]
    exact ⟨⟨by omega, hready.1.2⟩, hready.2⟩
  have hnew : new { m.opts with size } m.brk m.freed m.avail = some ⟨{ m.opts with size }, 0, size,
      3 * size / 4, px, fun _ => [], [], m.brk, m.freed, m.avail⟩ := by
    rw [new, if_neg (by simp [hcheck]), hnext]
    rfl
  have hopts : { m.opts with size } = { opts with size } := by rw [h.opts_eq]
  have htally := new_tally (h.lawful.resized size) hnew
  obtain ⟨hsizes', hroomy'⟩ := htally.sizes (h.policy.trans hpol)
  refine ⟨_, hnew, ⟨⟨htally.toTable, hopts, h.max_pos, htally.length, htally.few, fun _ =>
    ⟨⟨hopts, hpol, hsizes'.ready, rfl, hsizes'.size_ge, hsizes'.size_le, hsizes'.opts_size,
      hsizes'.px_prime⟩, hroomy'⟩⟩, ?_⟩, rfl⟩
  have hthr := hsizes.threshold_eq
  have hpos := hsizes.size_ge
  unfold Roomy at hroomy
  rw [h.length]
  change 0 + (m.sz + 0) ≤ 3 * size / 4
  omega

/-- **A resize keeps counter and objects together**, unless it is refused a key that is stored
twice. -/
theorem resize_tally (h : Tally opts 0 m) (hpol : opts.policy = .none) (mem : Mem)
    (hfull : m.threshold ≤ m.sz)
    (hsafe : opts.noOverwrite = true → Distinct (hos m) ∨ ResizeFails m mem) :
    ∃ ok m', (∀ put, NoResize put → resize put mem m = some (ok, m')) ∧ Tally opts 0 m' ∧
      (ok = true → Roomy m' (m'.sz + 1)) := by
  have hpolm : ¬ m.opts.policy ≠ .none := not_not.mpr (h.policy.trans hpol)
  obtain ⟨hsizes, hroomy⟩ := h.sizes hpol
  have hle := hsizes.size_le
  have hsize := hsizes.opts_size
  have hready := hsizes.ready
  simp only [optsCheck, Bool.and_eq_true, decide_eq_true_eq] at hready
  have hpos := hready.1.1
  have hmod : 3 * m.opts.size % 2 ^ 64 = 3 * m.opts.size := Nat.mod_eq_of_lt (by omega)
  obtain ⟨q, hq, hmq⟩ := hsizes.px_prime
  by_cases hd : Distinct (hos m)
  · rcases resize_spec (h.plain hpol hd) hfull mem with
      ⟨m', hres, h', -, -, hgrown, hle'⟩ | ⟨m', hres, h', -⟩
    · exact ⟨true, m', hres, h'.tally, fun _ => Or.inr ⟨hgrown.opts_size, Nat.succ_le_succ hle'⟩⟩
    · exact ⟨false, m', fun put _ => hres put, h'.tally, fun hok => by cases hok⟩
  by_cases hmem : mem = .noOpts
  · refine ⟨false, m, fun put _ => ?_, h, fun hok => by cases hok⟩
    rw [resize, if_neg hpolm, if_pos hmem]
  cases hprime : nextPrime (3 * m.opts.size) m.px with
  | none =>
    refine ⟨false, m, fun put _ => ?_, h, fun hok => by cases hok⟩
    rw [resize, if_neg hpolm, if_neg hmem, hmod, hprime]
  | some p =>
    obtain ⟨size, px⟩ := p
    obtain ⟨hge, hpx, hget⟩ := nextPrime_some hprime
    have hgrow : m.size ≤ size := hmq.trans (primes_mono hpx hq hget)
    by_cases hmap : mem = .noMap
    · refine ⟨false, { m with px }, fun put _ => ?_, ?_, fun hok => by cases hok⟩
      · rw [resize, if_neg hpolm, if_neg hmem, hmod, hprime]
        exact if_pos hmap
      · exact ⟨h.toTable.of_buckets rfl rfl rfl, h.opts_eq, h.max_pos, h.length, h.few, fun _ =>
          ⟨⟨hsizes.opts_eq, hpol, hsizes.ready, hsizes.threshold_eq, hsizes.size_ge, hsizes.size_le,
            hsizes.opts_size, size, hget, hgrow⟩, hroomy⟩⟩
    · -- the copy goes through, so it may overwrite
      have hno : opts.noOverwrite = false := by
        cases hcase : opts.noOverwrite with
        | false => rfl
        | true =>
          obtain ⟨-, hfails⟩ := (hsafe hcase).resolve_left hd
          have hlast := (primes_bounds size (List.mem_of_getElem? hget)).2
          rcases hfails with hbad | hbig
          · cases mem with
            | ok => exact absurd rfl hbad
            | noOpts => exact absurd rfl hmem
            | noMap => exact absurd rfl hmap
          · omega
      obtain ⟨newmap, hnew, htakes, hsz⟩ := new_takes h hpol hge hgrow hget
      obtain ⟨dst, src, hcopy, hdst, hkept, hle'⟩ := copyBuckets_takes hpol hno
        (List.range m.size)
        { m with
          px
          opts := { m.opts with ownsData := false, noOverwrite := false, hashStrong := false } }
        List.nodup_range htakes
      refine ⟨true, dst, fun put hnr => ?_, hdst, fun _ => Or.inr ⟨?_, Nat.succ_le_succ hle'⟩⟩
      · rw [resize, if_neg hpolm, if_neg hmem, hmod, hprime]
        dsimp only
        rw [if_neg hmap, hnew]
        dsimp only
        rw [copy, hcopy put hnr]
        rfl
      · rw [hkept.opts, hkept.size, hsz]

/-- **A put keeps counter and objects together**, where `PutCounted` holds. -/
theorem Tally.put (h : Tally opts 0 m) {obj : Obj κ β} {mem : Mem} {res : Res κ β}
    (hc : PutCounted m obj mem) (hput : m.put obj mem = some (res, m')) : Tally opts 0 m' := by
  by_cases hfull : m.threshold ≤ m.sz ∧ m.opts.policy = .none
  · have hpol : opts.policy = .none := h.policy.symm.trans hfull.2
    obtain ⟨ok, m₁, hres, h₁, hroomy⟩ := resize_tally h hpol mem hfull.1
      (fun hno => hc.resize hfull.2 hfull.1 (h.noOverwrite.trans hno))
    unfold Hmap.put putAt putWith at hput
    rw [if_pos hfull, hres _ (putAt_noResize mem 0)] at hput
    cases ok with
    | false =>
      obtain ⟨-, rfl⟩ := Prod.mk.inj (Option.some.inj hput)
      exact h₁
    | true =>
      have hpol₁ : m₁.opts.policy = .none := h₁.policy.trans hpol
      have hthr := (h₁.sizes hpol).1.threshold_eq
      have hle := (h₁.sizes hpol).1.size_le
      have hroom₁ := hroomy rfl
      unfold Roomy at hroom₁
      exact h₁.putPlace (fun _ => by omega) (fun _ => hroomy rfl) (fun hp => absurd hpol₁ hp) hput
  · unfold Hmap.put putAt putWith at hput
    rw [if_neg hfull] at hput
    refine h.putPlace hc.few (fun hpol => ?_) hc.sound hput
    exact Or.inl (Nat.not_le.mp fun hle => hfull ⟨hle, h.policy.trans hpol⟩)

/-- A put without policy that does not resize the table is defined. -/
theorem putPlace_defined (h : Table m) (hpol : m.opts.policy = .none) (obj : Obj κ β) :
    ∃ res m', m.putPlace obj = some (res, m') := by
  rcases scan_spec h obj.key with ⟨l, hs, -⟩ | ⟨i, before, after, hs, -⟩ | ⟨hs, -⟩
  · cases hno : m.opts.noOverwrite <;> cases hown : m.opts.ownsData <;>
      exact ⟨_, _, by simp [putPlace, hs, oOverwrite, hno, hown, hpol, opPut, dispose];
                      exact ⟨rfl, rfl⟩⟩
  · exact ⟨⟨.errNone, none⟩, _, by simp [putPlace, hs, putEnd, putCount, hpol, opPut]; rfl⟩
  · exact ⟨⟨.errFail, none⟩, m, by simp [putPlace, hs]⟩

/-- **A put without policy is defined**, where `PutCounted` holds. -/
theorem Tally.put_defined (h : Tally opts 0 m) (hpol : m.opts.policy = .none) {obj : Obj κ β}
    {mem : Mem} (hc : PutCounted m obj mem) : ∃ res m', m.put obj mem = some (res, m') := by
  unfold Hmap.put putAt putWith
  by_cases hfull : m.threshold ≤ m.sz
  · obtain ⟨ok, m₁, hres, h₁, -⟩ := resize_tally h (h.policy.symm.trans hpol) mem hfull
      (fun hno => hc.resize hpol hfull (h.noOverwrite.trans hno))
    rw [if_pos ⟨hfull, hpol⟩, hres _ (putAt_noResize mem 0)]
    cases ok with
    | false => exact ⟨⟨.errFail, none⟩, m₁, rfl⟩
    | true => exact putPlace_defined h₁.toTable (h₁.policy.trans (h.policy.symm.trans hpol)) obj
  · rw [if_neg fun hcond => hfull hcond.1]
    exact putPlace_defined h.toTable hpol obj

/-! ## 6. Calls -/

theorem Tally.buckets_nil (h : Tally opts 0 m) (hsz : m.sz = 0) {i : Nat} (hi : i < m.size) :
    m.buckets i = [] := by
  have hlen := h.length
  rw [hsz, Nat.add_zero, List.length_eq_zero_iff] at hlen
  exact List.flatMap_eq_nil_iff.mp hlen i (List.mem_range.mpr hi)

/-- Clearing a map without objects. -/
theorem Tally.clear (h : Tally opts 0 m) (hsz : m.sz = 0) : Tally opts 0 m.clear := by
  have hempty : ∀ i < m.size, m.clear.buckets i = [] := fun i hi => if_pos hi
  have hstored : stored m.clear = [] :=
    List.flatMap_eq_nil_iff.mpr fun i hi => hempty i (List.mem_range.mp hi)
  refine h.same ⟨rfl, rfl, rfl, rfl⟩ rfl (table_of_empty h.lawful h.size_pos hempty) ?_
  rw [hstored, h.length, hsz]
  rfl

/-- When a call is defined and keeps the counter right: a put as `PutCounted` says, a get if no use
count overflows, a del always, and a clear if nothing is counted. -/
def OpCounted (m : Hmap κ β) : Op κ β → Prop
  | .map (.cache (.put k v mem)) => PutCounted (m.oNew k v).2 (m.oNew k v).1 mem
  | .map (.cache (.get k)) => m.opts.policy = .lfu → Counts m k
  | .map (.del _) => True
  | .clear => m.sz = 0
  | .again obj mem => PutCounted m obj mem

/-- **The invariant of a map that counts its objects**: with a policy, each of them also has its
entry. -/
structure Counting (opts : Opts κ β) (m : Hmap κ β) : Prop where
  tally : Tally opts 0 m
  entered : opts.policy ≠ .none → Entered m

theorem Counting.put (h : Counting opts m) {obj : Obj κ β} {mem : Mem}
    (hloose : opts.policy ≠ .none → Loose (stored m) m.queue m.brk m.freed obj)
    (hc : PutCounted m obj mem) :
    ∃ res m', m.put obj mem = some (res, m') ∧ Counting opts m' := by
  by_cases hpol : opts.policy = .none
  · obtain ⟨res, m', hput⟩ := h.tally.put_defined (h.tally.policy.trans hpol) hc
    exact ⟨res, m', hput, h.tally.put hc hput, fun hp => absurd hpol hp⟩
  · have hpolm : m.opts.policy ≠ .none := fun hp => hpol (h.tally.policy.symm.trans hp)
    obtain ⟨res, m', hput, h'⟩ := (h.entered hpol).put (hloose hpol) (hc.sound hpolm) mem
    exact ⟨res, m', hput, h.tally.put hc hput, fun _ => h'⟩

theorem get_defined (h : Table m) (hpol : m.opts.policy = .none) (k : κ) :
    ∃ res m', m.get k = some (res, m') := by
  rcases find_spec h k with ⟨l, hfind, -⟩ | ⟨hfind, -⟩
  · exact ⟨⟨.errNone, some l.obj.toHo⟩, m, by simp [Hmap.get, hfind, hpol, opGet]⟩
  · exact ⟨⟨.errFail, none⟩, m, by simp [Hmap.get, hfind]⟩

theorem Counting.get (h : Counting opts m) (k : κ)
    (hsafe : m.opts.policy = .lfu → Counts m k) :
    ∃ res m', m.get k = some (res, m') ∧ Counting opts m' := by
  by_cases hpol : opts.policy = .none
  · obtain ⟨res, m', hget⟩ := get_defined h.tally.toTable (h.tally.policy.trans hpol) k
    exact ⟨res, m', hget, h.tally.get hget, fun hp => absurd hpol hp⟩
  · obtain ⟨res, m', hget, h'⟩ := (h.entered hpol).get k hsafe
    exact ⟨res, m', hget, h.tally.get hget, fun _ => h'⟩

theorem del_defined (h : Table m) (k : κ) : ∃ res m', m.del k = some (res, m') := by
  rcases find_spec h k with ⟨l, hfind, -⟩ | ⟨hfind, -⟩
  · exact ⟨_, _, del_of_find hfind⟩
  · exact ⟨⟨.errFail, none⟩, m, by simp [Hmap.del, hfind]⟩

theorem Counting.del (h : Counting opts m) (k : κ) :
    ∃ res m', m.del k = some (res, m') ∧ Counting opts m' := by
  obtain ⟨res, m', hdel⟩ := del_defined h.tally.toTable k
  exact ⟨res, m', hdel, (h.tally.del h.tally.sz_pos hdel).1, fun hpol =>
    (h.entered hpol).of_del hdel⟩

/-- **One call is defined and keeps the counter right** under its condition. -/
theorem Counting.exec (h : Counting opts m) (op : Op κ β) (hcaller : Callers m op)
    (hc : OpCounted m op) : ∃ res m', op.exec m = some (res, m') ∧ Counting opts m' := by
  match op with
  | .map (.cache (.put k v mem)) =>
    have hnew : Counting opts (m.oNew k v).2 :=
      ⟨h.tally.beside ⟨⟨rfl, rfl, rfl, rfl⟩, rfl, rfl⟩, fun hpol => ((h.entered hpol).oNew k v).1⟩
    exact hnew.put (fun hpol => ((h.entered hpol).oNew k v).2) hc
  | .map (.cache (.get k)) => exact h.get k hc
  | .map (.del k) => exact h.del k
  | .clear => exact ⟨_, _, rfl, h.tally.clear hc, fun hpol => (h.entered hpol).clear⟩
  | .again obj mem =>
    exact h.put (fun hpol => hcaller.loose (h.entered hpol).backed.whole) hc

end Libu.Hmap
