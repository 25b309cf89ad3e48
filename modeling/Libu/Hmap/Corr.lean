/-
# When queue and table of a hash map correspond

The correspondence of `toolbox/hmap.c`: exactly one queue entry refers to a stored object, and
every entry refers to an object that is stored.  `queue_corr_iff` says when it survives a run of
arbitrary calls.  It does not survive `u_hmap_del`, which leaves the entry of the deleted object
behind; nor a put into a map that was full before it was cleared, because the count is not reset
and the eviction finds an empty queue; nor an eviction in a linear table that holds the key of
the victim twice.

The theorem is about runs of five calls, with puts of new objects and of objects that the caller has
had before, and with any outcome of the allocations.  Each condition of a call is on the state
before it, and each is needed: a call out of its condition loses the correspondence at once, unless
it is the memory for a use count that was missing.
-/
import Libu.Hmap.Queue
import Libu.Verif.Run

namespace Libu.Hmap

open Verif
open scoped List

variable {κ β : Type} {m : Hmap κ β} {opts : Opts κ β}

/-! ## 1. The correspondence -/

/-- **The correspondence**: exactly one entry refers to a stored object, and an entry refers to
one that is stored. -/
structure Corr (m : Hmap κ β) : Prop where
  one : ∀ o ∈ stored m, (m.queue.countP fun e => e.ho.ptr = o.ptr) = 1
  stored : ∀ e ∈ m.queue, ∃ o ∈ stored m, o.toHo = e.ho

/-- Where the correspondence holds, an entry refers to every stored object. -/
theorem not_corr_of_unreferred {o : Obj κ β} (ho : o ∈ stored m)
    (hno : ∀ e ∈ m.queue, e.ho.ptr ≠ o.ptr) : ¬ Corr m := by
  intro h
  have hone := h.one o ho
  rw [List.countP_eq_zero.mpr fun e he heq => hno e he (of_decide_eq_true heq)] at hone
  cases hone

/-- The invariant implies the correspondence. -/
theorem Queued.corr (h : Queued m) : Corr m := by
  refine ⟨fun o ho => ?_, fun e he => h.stored_of_mem he⟩
  obtain ⟨e, he, -, hoe⟩ := h.entry_of_mem ho
  have hnodup : (m.queue.map fun e => e.ho.ptr).Nodup := by
    have := h.queue_ok.nodup_ho
    rwa [List.map_map] at this
  have hcount := List.count_eq_one_of_mem hnodup (List.mem_map_of_mem he)
  rw [List.count, List.countP_map] at hcount
  have hptr : o.ptr = e.ho.ptr := congrArg Ho.ptr hoe
  rw [← hcount, hptr]
  refine List.countP_congr ?_
  intro x _
  simp

/-! ## 2. How the correspondence breaks -/

/-- A del leaves the entry of the deleted object behind. -/
theorem del_breaks (h : Queued m) {k : κ} {l : Loc κ β} (hfind : m.find k = some (some l))
    (hl : At m l) : ∃ res m', m.del k = some (res, m') ∧ ¬ Corr m' := by
  obtain ⟨rest, hall, hrem, -⟩ := hl.exists_rest
  have hdel := del_of_find hfind
  generalize SizeT.sub m.sz 1 = sz at hdel
  have hstored : stored { m.setBucket l.idx (l.before ++ l.after) with
      freed := released m.opts l.obj.toHo m.freed, sz }
      = stored (m.setBucket l.idx (l.before ++ l.after)) := stored_of_buckets rfl rfl
  refine ⟨_, _, hdel, fun hcorr => ?_⟩
  obtain ⟨e, he, -, hoe⟩ := h.entry_of_mem hl.mem
  obtain ⟨o, ho, hoe'⟩ := hcorr.stored e he
  have horest : o ∈ rest := hrem.mem_iff.mp (hstored ▸ ho)
  have hptr : o.ptr = l.obj.ptr := congrArg Ho.ptr (hoe'.trans hoe.symm)
  have hnodup := h.ok.nodup_ho
  rw [links, List.map_map, (hall.map _).nodup_iff, List.map_cons] at hnodup
  exact (List.nodup_cons.mp hnodup).1 (List.mem_map.mpr ⟨o, horest, hptr⟩)

/-- The eviction finds no entry: the new object stays linked without one. -/
theorem put_breaks_of_empty (h : Queued m) {obj : Obj κ β} {i : Nat}
    {before after : List (Obj κ β)} (hs : m.scan obj.key = some (.room i before after))
    (hr : Room m obj.key i before after) (hsz : m.opts.max ≤ m.sz) (hq : m.queue = []) :
    ∃ res m', m.putPlace obj = some (res, m') ∧ ¬ Corr m' := by
  have hpop : (m.setBucket i (before ++ obj :: after)).pop
      = some (⟨.errFail, none⟩, m.setBucket i (before ++ obj :: after)) := by
    have hv : victim m.opts m.queue = none := victim_eq_none.mpr hq
    have heq := @pop_eq _ _ (m.setBucket i (before ++ obj :: after)) h.policy
    simp only [setBucket, hv] at heq
    exact heq
  refine ⟨⟨.errFail, none⟩, m.setBucket i (before ++ obj :: after), ?_, fun hcorr => ?_⟩
  · simp only [putPlace, hs, Option.bind_eq_bind, Option.bind_some, putEnd]
    rw [if_pos ⟨hsz, h.policy⟩, hpop]
    rfl
  · have hone := hcorr.one obj ((stored_link hr.idx_lt hr.eq obj).mem_iff.mpr
      (List.mem_cons_self ..))
    have hnil : (m.setBucket i (before ++ obj :: after)).queue = [] := hq
    rw [hnil] at hone
    cases hone

/-- However the end of a put goes, it keeps the objects, and no entry comes to refer to another. -/
theorem putCount_inv (hpol : m.opts.policy ≠ .none) {obj : Obj κ β} {old : Option (Ho κ β)}
    {res : Res κ β} {m' : Hmap κ β} (h : m.putCount obj old = some (res, m')) :
    RefersTo m.queue obj.toHo m'.queue ∧ ∀ o ∈ stored m, ∃ o' ∈ stored m', o'.ptr = o.ptr := by
  simp only [putCount, opPut_of_ne hpol, if_true, Option.bind_eq_bind,
    Option.bind_eq_some_iff, Prod.exists] at h
  obtain ⟨ret, pqe, m₁, hpush, h⟩ := h
  obtain ⟨queue, brk, rfl, -, hqueue⟩ := (push_shape hpush).eq
  split at h
  · obtain ⟨-, rfl⟩ := Prod.mk.inj (Option.some.inj h)
    exact ⟨hqueue, fun o ho => ⟨o, ho, rfl⟩⟩
  · obtain ⟨-, rfl⟩ := Prod.mk.inj (Option.some.inj h)
    refine ⟨hqueue, fun o ho => ⟨if o.ptr = obj.ptr then { o with pqe } else o, ?_, ?_⟩⟩
    · have hmap := stored_setPqe { m with queue, brk } obj.ptr pqe
      exact hmap.symm ▸ List.mem_map_of_mem ho
    · split <;> rfl

/-- The eviction deletes another object with the key of the victim: the victim stays without an
entry, if the put goes on at all. -/
theorem put_breaks_of_other (h : Queued m) {obj : Obj κ β} (hf : Fresh m obj) {i : Nat}
    {before after : List (Obj κ β)} (hs : m.scan obj.key = some (.room i before after))
    (hr : Room m obj.key i before after) (hsz : m.opts.max ≤ m.sz)
    {e : QEntry κ β} {q : List (QEntry κ β)} (hv : victim m.opts m.queue = some (e, q))
    {l : Loc κ β}
    (hfind : (m.setBucket i (before ++ obj :: after)).find e.ho.key = some (some l))
    (hl : At (m.setBucket i (before ++ obj :: after)) l) (hho : l.obj.toHo ≠ e.ho) :
    ∀ res m', m.putPlace obj = some (res, m') → ¬ Corr m' := by
  intro res m' hput hcorr
  have hw := h.waiting hf hr
  have hvq := victim_perm hv
  have hemem : e ∈ m.queue := hvq.mem_iff.mpr (List.mem_cons_self ..)
  obtain ⟨x, hx, hxe⟩ := h.stored_of_mem hemem
  have halive : (m.setBucket i (before ++ obj :: after)).alive e.ho = true :=
    h.queue_ok.alive_queue e hemem
  -- the victim is still stored after the wrong object is unlinked
  obtain ⟨rest, hall, hrem, -⟩ := hl.exists_rest
  have hxrest : x ∈ rest := by
    have hxs : x ∈ stored (m.setBucket i (before ++ obj :: after)) :=
      hw.objs.mem_iff.mpr (List.mem_cons_of_mem _ hx)
    rcases List.mem_cons.mp (hall.mem_iff.mp hxs) with rfl | hxr
    · exact absurd hxe hho
    · exact hxr
  have hdel := del_of_find hfind
  generalize SizeT.sub (m.setBucket i (before ++ obj :: after)).sz 1 = sz at hdel
  obtain ⟨m₁, hm₁⟩ : ∃ m₁ : Hmap κ β, m₁ =
      { (m.setBucket i (before ++ obj :: after)).setBucket l.idx (l.before ++ l.after) with
        freed := released m.opts l.obj.toHo m.freed, sz, queue := q } := ⟨_, rfl⟩
  have hpop : (m.setBucket i (before ++ obj :: after)).pop
      = some (⟨.errNone, handedOut m.opts l.obj.toHo⟩, m₁) := by
    have heq := @pop_eq _ _ (m.setBucket i (before ++ obj :: after)) h.policy
    simp only [setBucket_opts] at heq
    have hqueue : (m.setBucket i (before ++ obj :: after)).queue = m.queue := rfl
    rw [hqueue, hv] at heq
    rw [heq, hm₁]
    simp only [popEntry, halive, hdel]
    rfl
  have hend : m.putPlace obj = m₁.putCount obj (handedOut m.opts l.obj.toHo) := by
    simp only [putPlace, hs, Option.bind_eq_bind, Option.bind_some, putEnd]
    rw [if_pos ⟨hsz, h.policy⟩, hpop]
    rfl
  -- but no entry refers to it
  have hm₁pol : m₁.opts.policy ≠ .none := by rw [hm₁]; exact h.policy
  have hm₁queue : m₁.queue = q := by rw [hm₁]
  have hm₁stored : stored m₁ = stored ((m.setBucket i (before ++ obj :: after)).setBucket l.idx
      (l.before ++ l.after)) := by rw [hm₁]; exact stored_of_buckets rfl rfl
  rw [hend] at hput
  obtain ⟨hqueue, hkeep⟩ := putCount_inv hm₁pol hput
  obtain ⟨x', hx', hptr⟩ := hkeep x (hm₁stored ▸ hrem.mem_iff.mpr hxrest)
  have hxptr : x.ptr = e.ho.ptr := congrArg Ho.ptr hxe
  have hobj : obj.ptr ≠ e.ho.ptr := fun heq =>
    hf.not_mem (List.mem_map.mpr ⟨x.link, List.mem_map_of_mem hx, hxptr.trans heq.symm⟩)
  have hnodup := (h.queue_ok.perm (hvq.map QEntry.link)).nodup_ho
  refine not_corr_of_unreferred hx' (fun y hy heq => ?_) hcorr
  rw [hptr, hxptr] at heq
  rcases hqueue y hy with hyobj | ⟨z, hz, hzy⟩
  · exact hobj ((congrArg Ho.ptr hyobj).symm.trans heq)
  · rw [hm₁queue] at hz
    refine (List.nodup_cons.mp hnodup).1 (List.mem_map.mpr ⟨z.link, List.mem_map_of_mem hz, ?_⟩)
    exact (congrArg Ho.ptr hzy).trans heq

/-- **A put whose eviction goes wrong breaks the correspondence.** -/
theorem put_breaks_of_not_evicts (h : Queued m) {obj : Obj κ β} (hf : Fresh m obj)
    (hadds : Adds m obj.key)
    (hsz : m.opts.max ≤ m.sz) (hev : ¬ Evicts m obj.key) {res : Res κ β} {m' : Hmap κ β}
    (hput : m.putPlace obj = some (res, m')) : ¬ Corr m' := by
  rcases scan_spec h.toTable obj.key with
    ⟨l, hs, hl, hlk, -, hnot⟩ | ⟨i, b, a, hs, hr, -, -⟩ | ⟨hs, htype, hnot, -⟩
  · exact absurd hadds hnot
  · cases hv : victim m.opts m.queue with
    | none =>
      obtain ⟨res₂, m₂, hput₂, hc⟩ := put_breaks_of_empty h hs hr hsz (victim_eq_none.mp hv)
      obtain ⟨rfl, rfl⟩ : res = res₂ ∧ m' = m₂ := by simpa [hput] using hput₂
      exact hc
    | some p =>
      obtain ⟨e, q⟩ := p
      obtain ⟨x, hx, hxe⟩ :=
        h.stored_of_mem ((victim_perm hv).mem_iff.mpr (List.mem_cons_self ..))
      have hhas : Has m e.ho.key := ⟨x, hx, congrArg Ho.key hxe⟩
      by_cases hkey : e.ho.key = obj.key
      · -- only a linear table can link a key that it has
        cases htype : m.opts.type with
        | chain =>
          rw [Adds, htype] at hadds
          exact absurd (hkey ▸ hhas) hadds
        | linear =>
          obtain ⟨l, hfind, hl, hobj⟩ := find_link_self h.toTable htype hr
          rw [← hkey] at hfind
          refine put_breaks_of_other h hf hs hr hsz hv hfind hl ?_ res m' hput
          intro heq
          rw [hobj] at heq
          refine hf.not_mem (List.mem_map.mpr ⟨x.link, List.mem_map_of_mem hx, ?_⟩)
          exact congrArg Ho.ptr (hxe.trans heq.symm)
      · rcases find_spec h.toTable e.ho.key with ⟨l, hfind, hl, hlk, hfirst⟩ | ⟨-, hnot⟩
        · obtain ⟨l', hfind', hl', hobj⟩ := find_link h.toTable hr hkey hl hlk hfirst
          refine put_breaks_of_other h hf hs hr hsz hv hfind' hl' ?_ res m' hput
          intro heq
          refine hev ?_
          rw [Evicts, hv]
          refine ⟨hkey, ?_⟩
          rw [Finds, hfind]
          exact (congrArg Obj.toHo hobj).symm.trans heq
        · exact absurd hhas hnot
  · exact absurd hadds hnot

/-- The linked object stays without an entry. -/
theorem Waiting.putCount_breaks {obj : Obj κ β} {rest : List (Obj κ β)} (h : Waiting m obj rest)
    (hout : ∀ e ∈ m.queue, obj.pqe ≠ some e.ptr) (hno : ¬ (obj.pqe = none ∧ Supplied m))
    (hdata : m.opts.policy = .lfu → m.avail m.brk ≠ .noData) {old : Option (Ho κ β)}
    {res : Res κ β} {m' : Hmap κ β} (hput : m.putCount obj old = some (res, m')) : ¬ Corr m' := by
  simp only [Hmap.putCount, opPut_of_ne h.policy, if_true, Option.bind_eq_bind,
    Option.bind_eq_some_iff, Prod.exists] at hput
  obtain ⟨ret, pqe, m₁, hpush, hput⟩ := hput
  obtain ⟨rfl, hsame⟩ := push_refused hout hno hpush
  obtain ⟨brk, rfl⟩ := hsame hdata
  rw [if_pos (by decide)] at hput
  obtain ⟨-, rfl⟩ := Prod.mk.inj (Option.some.inj hput)
  have hmem : obj ∈ stored { m with brk } := h.objs.mem_iff.mpr (List.mem_cons_self ..)
  refine not_corr_of_unreferred hmem fun e he heq => h.fresh.not_mem ?_
  have hlink := h.perm.mem_iff.mpr (List.mem_map_of_mem he)
  exact List.mem_map.mpr ⟨e.link, hlink, heq⟩

/-- The object that should have been replaced stays, without its entry. -/
theorem put_breaks_of_found (h : Queued m) {obj : Obj κ β} {l : Loc κ β}
    (hs : m.scan obj.key = some (.found l)) (hl : At m l) (hover : m.opts.noOverwrite = false)
    (hout : ∀ e ∈ m.queue, obj.pqe ≠ some e.ptr) (hno : ¬ (obj.pqe = none ∧ Supplied m))
    (hdata : m.opts.policy = .lfu → m.avail m.brk ≠ .noData) {res : Res κ β} {m' : Hmap κ β}
    (hput : m.putPlace obj = some (res, m')) : ¬ Corr m' := by
  obtain ⟨p, q₁, e, q₂, hpqe, hsplit, hq, he, heho⟩ := h.split hl.mem
  obtain ⟨rest, hall, -, hrepl⟩ := hl.exists_rest
  have hdel : m.queueDel l.obj = some { m with queue := q₁ ++ q₂ } := by
    simp [queueDel, hpqe, hsplit]
  have hsub : q₁ ++ q₂ ⊆ m.queue := by
    rw [hq]
    exact (List.Sublist.append_left (List.sublist_cons_self e q₂) q₁).subset
  simp only [putPlace, hs, Option.bind_eq_bind, Option.bind_some, oOverwrite, hover,
    Bool.false_eq_true, if_false, opPut_of_ne h.policy, if_true, hdel, Option.bind_eq_some_iff,
    Prod.exists] at hput
  obtain ⟨ret, pqe, m₁, hpush, hput⟩ := hput
  obtain ⟨rfl, hsame⟩ := @push_refused _ _ { m with queue := q₁ ++ q₂ } _ _ _ _ _
    (fun x hx => hout x (hsub hx)) hno hpush
  obtain ⟨brk, rfl⟩ := hsame hdata
  rw [if_pos (by decide)] at hput
  obtain ⟨-, rfl⟩ := Prod.mk.inj (Option.some.inj hput)
  have hmem := (hrepl { l.obj with pqe := none }).mem_iff.mpr (List.mem_cons_self ..)
  refine not_corr_of_unreferred hmem fun x hx heq => ?_
  -- the entry that was removed was the only one for it
  have hnodup := h.queue_ok.nodup_ho
  rw [hq, (List.perm_middle.map QEntry.link).map _ |>.nodup_iff] at hnodup
  refine (List.nodup_cons.mp hnodup).1 (List.mem_map.mpr ⟨x.link, List.mem_map_of_mem hx, ?_⟩)
  exact heq.trans (congrArg Ho.ptr heho).symm

/-- **A put breaks the correspondence** without its condition, where use counts can be had. -/
theorem put_breaks (h : Queued m) {obj : Obj κ β} (hf : Fresh m obj)
    (hout : ∀ e ∈ m.queue, obj.pqe ≠ some e.ptr)
    (hdata : m.opts.policy = .lfu → m.avail m.brk ≠ .noData) (hbad : ¬ Enters m obj)
    {res : Res κ β} {m' : Hmap κ β} (hput : m.putPlace obj = some (res, m')) : ¬ Corr m' := by
  by_cases hevict : Adds m obj.key → m.opts.max ≤ m.sz → Evicts m obj.key
  · have hentry : ¬ Equipped m obj := fun hentry => hbad ⟨hevict, hentry⟩
    obtain ⟨hstores, hno⟩ := Classical.not_imp.mp hentry
    rcases scan_spec h.toTable obj.key with
      ⟨l, hs, hl, -, -, hnot⟩ | ⟨i, b, a, hs, hr, hadds, -⟩ | ⟨hs, -, hnot, -⟩
    · exact put_breaks_of_found h hs hl (hstores.resolve_left hnot).1 hout hno hdata hput
    · obtain ⟨old, rest, m₁, hend, hw, hsub, hbrk, hstill⟩ := h.room hf hs hr (hevict hadds)
      rw [hend] at hput
      refine hw.putCount_breaks (fun x hx => hout x (hsub hx)) ?_ ?_ hput
      · rwa [hstill.supplied_iff hbrk]
      · rw [hstill.avail, hbrk, hstill.opts]
        exact hdata
    · have hfull := (h.toTable.scan_full_iff obj.key).mp hs
      rcases hstores with hadds | ⟨-, hnfull⟩
      · exact absurd hadds hnot
      · exact absurd hfull hnfull
  · obtain ⟨hadds, hev⟩ := Classical.not_imp.mp hevict
    obtain ⟨hsz, hev⟩ := Classical.not_imp.mp hev
    exact put_breaks_of_not_evicts h hf hadds hsz hev hput

/-! ## 3. Calls and runs -/

/-- What the caller sees to: an object that is put again is its own. -/
def Callers (m : Hmap κ β) : Op κ β → Prop
  | .again obj _ => Outside m obj
  | _ => True

/-- When a call keeps the correspondence. -/
def QueueSafe (m : Hmap κ β) : Op κ β → Prop
  | .map (.cache (.put k v _)) => Enters (m.oNew k v).2 (m.oNew k v).1
  | .map (.cache (.get k)) => m.opts.policy = .lfu → Counts m k
  | .map (.del k) => ¬ Has m k
  | .clear => True
  | .again obj _ => Enters m obj

/-- A cleared map has no objects and no entries. -/
theorem Queued.clear (h : Queued m) : Queued m.clear := by
  have hempty : ∀ i < m.size, m.clear.buckets i = [] := fun i hi => if_pos hi
  have hstored : stored m.clear = [] := by
    refine List.flatMap_eq_nil_iff.mpr ?_
    intro i hi
    exact hempty i (List.mem_range.mp hi)
  have hfreed : ∀ p ∈ m.clear.freed.map Ho.ptr, p < m.brk := by
    have hobjs : ∀ o ∈ stored m, o.ptr < m.brk := fun o ho =>
      h.ok.ho_lt o.link (List.mem_map_of_mem ho)
    intro p hp
    simp only [Hmap.clear] at hp
    split at hp
    · rw [List.map_append, List.mem_append] at hp
      rcases hp with hp | hp
      · obtain ⟨ho, hho, rfl⟩ := List.mem_map.mp hp
        obtain ⟨o, ho', rfl⟩ := List.mem_map.mp hho
        exact hobjs o (List.mem_reverse.mp ho')
      · exact h.ok.freed_lt p hp
    · exact h.ok.freed_lt p hp
  have hlinks : links m.clear = [] := by rw [links, hstored, List.map_nil]
  refine ⟨table_of_empty h.lawful h.size_pos hempty, h.policy, h.ready, ?_, ?_,
    fun _ he => absurd he (by simp [Hmap.clear])⟩
  · rw [hlinks]
    exact List.Perm.refl _
  · rw [hlinks]
    exact ⟨List.nodup_nil, List.nodup_nil, fun _ hx => absurd hx (by simp),
      fun _ hx => absurd hx (by simp), fun _ hx => absurd hx (by simp), hfreed⟩

/-- **One call keeps the invariant** under its condition. -/
theorem exec_queued (h : Queued m) (op : Op κ β) (hcaller : Callers m op) (hsafe : QueueSafe m op) :
    ∃ res m', op.exec m = some (res, m') ∧ Queued m' ∧ Still m m' := by
  match op with
  | .map (.cache (.put k v mem)) =>
    obtain ⟨h₁, hf⟩ := h.oNew k v
    obtain ⟨res, m', hput, h', hstill, -⟩ := put_queued h₁ hf hsafe
    exact ⟨res, m', (put_of_policy h₁.policy _ mem).trans hput, h', ⟨hstill.opts, hstill.avail⟩⟩
  | .map (.cache (.get k)) =>
    rcases get_queued h k hsafe with ⟨q₁, e, q₂, hq, -, hget⟩ | ⟨-, hget⟩
    · exact ⟨_, _, hget, h.moved hq, ⟨rfl, rfl⟩⟩
    · exact ⟨_, m, hget, h, ⟨rfl, rfl⟩⟩
  | .map (.del k) =>
    rcases find_spec h.toTable k with ⟨l, hfind, hl, hlk, -⟩ | ⟨hfind, -⟩
    · exact absurd (hlk ▸ hl.has) hsafe
    · refine ⟨⟨.errFail, none⟩, m, ?_, h, ⟨rfl, rfl⟩⟩
      change m.del k = _
      simp only [del, hfind, Option.bind_eq_bind, Option.bind_some]
  | .clear => exact ⟨_, _, rfl, h.clear, ⟨rfl, rfl⟩⟩
  | .again obj mem =>
    obtain ⟨res, m', hput, h', hstill, -⟩ := put_queued h hcaller.fresh hsafe
    exact ⟨res, m', (put_of_policy h.policy _ mem).trans hput, h', hstill⟩

/-- **One call breaks the correspondence**, or has no result, without its condition. -/
theorem exec_breaks (h : Queued m) (hdata : m.opts.policy = .lfu → ∀ n, m.avail n ≠ .noData)
    (op : Op κ β) (hcaller : Callers m op) (hop : ¬ QueueSafe m op) {res : Res κ β}
    {m' : Hmap κ β} (hst : op.exec m = some (res, m')) : ¬ Corr m' := by
  match op with
  | .map (.cache (.put k v mem)) =>
    obtain ⟨h₁, hf⟩ := h.oNew k v
    have hout : ∀ e ∈ (m.oNew k v).2.queue, (m.oNew k v).1.pqe ≠ some e.ptr :=
      fun e _ hpqe => (by cases hpqe)
    exact put_breaks h₁ hf hout (fun hlfu => hdata hlfu _) hop
      ((put_of_policy h₁.policy _ mem).symm.trans hst)
  | .map (.cache (.get k)) =>
    obtain ⟨hlfu, hc⟩ := Classical.not_imp.mp hop
    have hnone := get_breaks h k hlfu hc
    change m.get k = _ at hst
    rw [hnone] at hst
    cases hst
  | .map (.del k) =>
    rcases find_spec h.toTable k with ⟨l, hfind, hl, -, -⟩ | ⟨-, hnot⟩
    · obtain ⟨res₂, m₂, hdel, hc⟩ := del_breaks h hfind hl
      change m.del k = _ at hst
      obtain ⟨rfl, rfl⟩ : res = res₂ ∧ m' = m₂ := by simpa [hdel, eq_comm] using hst
      exact hc
    · exact absurd hnot hop
  | .clear => exact absurd trivial hop
  | .again obj mem =>
    exact put_breaks h hcaller.fresh (h.no_entry hcaller.fresh hcaller.entry)
      (fun hlfu => hdata hlfu _) hop ((put_of_policy h.policy _ mem).symm.trans hst)

/-- The correspondence holds after a call. -/
def CorrAfter (_ : Hmap κ β) (_ : Op κ β) (_ : Res κ β) (m' : Hmap κ β) : Prop := Corr m'

/-- **When queue and table correspond.**  In every run of puts (of new objects, or of objects that
the caller has had before), gets, dels and clears on a map with a policy, whatever memory there is,
the correspondence holds after every call if no del finds its key, no get overflows a use count,
every eviction finds a victim whose key leads to it, and every object that is stored has no entry
yet and gets the memory for one.  Where no allocation of a use count fails, it holds only then. -/
theorem queue_corr_iff (hl : Lawful opts) (hp : opts.policy ≠ .none) {brk : Nat}
    {avail : Nat → QMem} (hnew : new opts brk [] avail = some m) {ops : List (Op κ β)}
    (hcaller : Guarded Op.exec Callers m ops) :
    (Guarded Op.exec QueueSafe m ops → Always Op.exec CorrAfter m ops) ∧
      ((opts.policy = .lfu → ∀ n, avail n ≠ .noData) → Always Op.exec CorrAfter m ops →
        Guarded Op.exec QueueSafe m ops) := by
  obtain ⟨hqueued, -, hopts, -, havail⟩ := new_queued hl hp hnew
  constructor
  · intro hsafe
    refine always_of_guarded Queued ?_ hqueued (hcaller.and hsafe)
    rintro m op h ⟨hcaller, hsafe⟩
    obtain ⟨res, m', hst, h', -⟩ := exec_queued h op hcaller hsafe
    exact ⟨res, m', hst, h'.corr, h'⟩
  · intro hdata
    have hinit : Queued m ∧ (m.opts.policy = .lfu → ∀ n, m.avail n ≠ .noData) := by
      rw [hopts, havail]
      exact ⟨hqueued, hdata⟩
    refine (always_iff_guarded Callers
      (fun m => Queued m ∧ (m.opts.policy = .lfu → ∀ n, m.avail n ≠ .noData)) ?_ ?_ hinit
      hcaller).mp
    · rintro m op ⟨h, hdata⟩ hcaller
      constructor
      · rintro ⟨res, m', hst, hcorr⟩
        by_contra hop
        exact exec_breaks h hdata op hcaller hop hst hcorr
      · intro hop
        obtain ⟨res, m', hst, h', -⟩ := exec_queued h op hcaller hop
        exact ⟨res, m', hst, h'.corr⟩
    · rintro m op res m' ⟨h, hdata⟩ hcaller hst hcorr
      have hsafe : QueueSafe m op := by
        by_contra hop
        exact exec_breaks h hdata op hcaller hop hst hcorr
      obtain ⟨res₂, m₂, hst₂, h', hstill⟩ := exec_queued h op hcaller hsafe
      obtain ⟨rfl, rfl⟩ : res = res₂ ∧ m' = m₂ := by simpa [hst] using hst₂
      rw [hstill.opts, hstill.avail]
      exact ⟨h', hdata⟩

/-! ## 4. Runs on natural numbers -/

section Decide

variable [DecidableEq κ] [DecidableEq β]

instance (m : Hmap κ β) : ∀ op, Decidable (Callers m op)
  | .map _ => inferInstanceAs (Decidable True)
  | .clear => inferInstanceAs (Decidable True)
  | .again obj _ => inferInstanceAs (Decidable (Outside m obj))

instance (m : Hmap κ β) : ∀ op, Decidable (QueueSafe m op)
  | .map (.cache (.put k v _)) =>
    inferInstanceAs (Decidable (Enters (m.oNew k v).2 (m.oNew k v).1))
  | .map (.cache (.get k)) => inferInstanceAs (Decidable (m.opts.policy = .lfu → Counts m k))
  | .map (.del k) => inferInstanceAs (Decidable (¬ Has m k))
  | .clear => inferInstanceAs (Decidable True)
  | .again obj _ => inferInstanceAs (Decidable (Enters m obj))

end Decide

/-- An LFU run with a hit, an overwrite whose old object is put again, and an eviction. -/
def lentRun : List (Op Nat Char) :=
  [.map (.cache (.put 1 'a' .ok)), .map (.cache (.put 14 'b' .ok)), .map (.cache (.get 1)),
    .map (.cache (.put 14 'c' .ok)), .again ⟨⟨2, 14, 'b'⟩, none⟩ .ok,
    .map (.cache (.put 3 'd' .ok)), .map (.del 14)]

theorem queue_corr_iff_lfu : Always Op.exec CorrAfter (lentMap .lfu 100) lentRun :=
  (queue_corr_iff (lentOpts_lawful .lfu) (by decide) (new_lentOpts .lfu 100)
    (by decide +kernel)).1 (by decide +kernel)

/-- A put and a del. -/
def staleRun : List (Op Nat Char) := [.map (.cache (.put 1 'a' .ok))]

/-- After a put and a del the table is empty, but the queue has an entry, for a released object. -/
theorem del_leaves_entry :
    (run Op.exec (cacheMap .fifo) (staleRun ++ [.map (.del 1)])).map
        (fun p => (p.2.queue.map fun e => e.ho, stored p.2, p.2.freed))
      = some ([⟨0, 1, 'a'⟩], [], [⟨0, 1, 'a'⟩]) ∧
    ¬ Always Op.exec CorrAfter (cacheMap .fifo) (staleRun ++ [.map (.del 1)]) := by
  have hrun : (run Op.exec (cacheMap .fifo) (staleRun ++ [.map (.del 1)])).map
      (fun p => (p.2.queue.map fun e => e.ho, stored p.2, p.2.freed))
        = some ([⟨0, 1, 'a'⟩], [], [⟨0, 1, 'a'⟩]) := by decide +kernel
  refine ⟨hrun, fun h => ?_⟩
  obtain ⟨rs, m', hrun', m₁, res, hcorr⟩ := h.run_last
  rw [hrun', Option.map_some, Option.some.injEq, Prod.mk.injEq, Prod.mk.injEq] at hrun
  obtain ⟨hqueue, hstored, -⟩ := hrun
  obtain ⟨e, q, heq, -, -⟩ := List.map_eq_cons_iff.mp hqueue
  obtain ⟨o, ho, -⟩ := Corr.stored hcorr e (by rw [heq]; simp)
  rw [hstored] at ho
  cases ho

end Libu.Hmap
