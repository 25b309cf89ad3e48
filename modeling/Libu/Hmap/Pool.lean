/-
# Maps that share a heap

Objects go from one hash map to another, and what one map releases another may still point to.  A
`Pool` is any family of maps on one heap, with all calls on each of them and the copies between two
of them.

Any run of calls is admitted, with any outcome of the allocations and with any object that a caller
may put, the one it got back from an eviction included.  What a caller sees to is only that the
object is not in a map already and was not released (`Callers`).  The condition `Counted` of a call
is on the state before it, and is asked step by step along the run.

* §1: which addresses a call on one map touches (`Within`): those of its objects and of the object
  that it brings.  Whatever the call does, the other maps find their objects as they were.
* §2: pools, their calls, and what a caller sees to.
* §3: the invariant of a pool.  `count_of_guarded`: in a run whose calls all meet `Counted`, every
  call is defined, and `u_hmap_count` of every map is the number of its objects.
* §4: a run of a chained map and of a cache on natural numbers.

What `Counted` leaves out changes the buckets behind the counter's back, or leads there: a clear of
a map with objects, a copy from one, an eviction whose victim is not stored, the move of a key that
is stored twice into a larger table that does not overwrite, and a put of an object that gets no
entry in the queue.
-/
import Libu.Hmap.Count
import Mathlib.Data.Fintype.Defs

namespace Libu.Hmap

open Verif
open scoped List

variable {κ β : Type} {m m' : Hmap κ β} {a : Nat → Prop}

/-! ## 1. The addresses that a call touches -/

/-- The addresses of the stored objects. -/
def addrs (m : Hmap κ β) : List Nat := (stored m).map fun o => o.ptr

/-- All stored objects have their addresses in `a`. -/
def StoresIn (a : Nat → Prop) (m : Hmap κ β) : Prop := ∀ o ∈ stored m, a o.ptr

/-- **What a call that touches only the addresses `a` makes of the map `m`**: the objects that it
stores then, and those that it has released by then, have their addresses in `a`. -/
structure Within (a : Nat → Prop) (m m' : Hmap κ β) : Prop where
  brk : m.brk ≤ m'.brk
  freed : ∀ ho ∈ m'.freed, ho ∈ m.freed ∨ a ho.ptr
  holds : StoresIn a m'

/-- A call that does nothing touches nothing. -/
theorem Within.refl (h : StoresIn a m) : Within a m m := ⟨le_refl m.brk, fun _ hho => .inl hho, h⟩

/-- Two steps of a call touch what the one and the other touch. -/
theorem Within.trans {m₁ m₂ : Hmap κ β} (h : Within a m m₁) (h' : Within a m₁ m₂) :
    Within a m m₂ :=
  ⟨h.brk.trans h'.brk, fun ho hho => (h'.freed ho hho).elim (h.freed ho) .inr, h'.holds⟩

/-- Another bucket list, with addresses that may be touched. -/
theorem StoresIn.setBucket (h : StoresIn a m) {i : Nat} {l : List (Obj κ β)}
    (hl : ∀ o ∈ l, a o.ptr) :
    StoresIn a (m.setBucket i l) := by
  intro o ho
  obtain ⟨j, hj, hmem⟩ := mem_stored.mp ho
  by_cases hji : j = i
  · rw [hji, setBucket_self] at hmem
    exact hl o hmem
  · rw [setBucket_of_ne hji] at hmem
    exact h o (mem_stored.mpr ⟨j, hj, hmem⟩)

/-- Setting the entry of an object leaves the addresses. -/
theorem StoresIn.setPqe (h : StoresIn a m) (ptr : Nat) (pqe : Option Nat) :
    StoresIn a (m.setPqe ptr pqe) := by
  intro o ho
  rw [stored_setPqe] at ho
  obtain ⟨o', ho', rfl⟩ := List.mem_map.mp ho
  have haddr := h o' ho'
  split <;> exact haddr

/-- A bucket of the map. -/
theorem StoresIn.bucket (h : StoresIn a m) {i : Nat} (hi : i < m.size) :
    ∀ o ∈ m.buckets i, a o.ptr :=
  fun o ho => h o (mem_stored.mpr ⟨i, hi, ho⟩)

/-- The object at a pointer and those around it. -/
theorem At.holds {l : Loc κ β} (hl : At m l) (h : StoresIn a m) :
    a l.obj.ptr ∧ ∀ o ∈ l.before ++ l.after, a o.ptr := by
  have hall := h.bucket hl.idx_lt
  rw [hl.eq] at hall
  refine ⟨hall l.obj (by simp), fun o ho => hall o ?_⟩
  exact (List.perm_middle.mem_iff).mpr (List.mem_cons_of_mem _ ho)

/-- An object in the place of another one. -/
theorem At.holds_set {l : Loc κ β} (hl : At m l) (h : StoresIn a m) {obj : Obj κ β}
    (hobj : a obj.ptr) : StoresIn a (m.setBucket l.idx (l.before ++ obj :: l.after)) := by
  refine h.setBucket fun o ho => ?_
  rcases List.mem_cons.mp (List.perm_middle.mem_iff.mp ho) with rfl | ho
  · exact hobj
  · exact (hl.holds h).2 o ho

/-- The walk along a chain finds an object of the chain. -/
theorem chainScan_found {comp : κ → κ → Int} {k : κ} {i : Nat} {loc : Loc κ β} :
    ∀ {before l : List (Obj κ β)}, chainScan comp k i before l = .found loc →
      loc.idx = i ∧ before ++ l = loc.before ++ loc.obj :: loc.after
  | before, [], h => by cases h
  | before, o :: after, h => by
    simp only [chainScan] at h
    split at h
    · cases h
      exact ⟨rfl, rfl⟩
    · split at h
      · cases h
      · obtain ⟨hidx, heq⟩ := chainScan_found h
        refine ⟨hidx, ?_⟩
        rw [← heq, List.append_assoc]
        rfl

/-- The walk along a chain that finds room finds it between two objects of the chain. -/
theorem chainScan_room {comp : κ → κ → Int} {k : κ} {i j : Nat} {b c : List (Obj κ β)} :
    ∀ {before l : List (Obj κ β)}, chainScan comp k i before l = .room j b c →
      j = i ∧ before ++ l = b ++ c
  | before, [], h => by
    cases h
    exact ⟨rfl, rfl⟩
  | before, o :: after, h => by
    simp only [chainScan] at h
    split at h
    · cases h
    · split at h
      · cases h
        exact ⟨rfl, rfl⟩
      · obtain ⟨hidx, heq⟩ := chainScan_room h
        refine ⟨hidx, ?_⟩
        rw [← heq, List.append_assoc]
        rfl

/-- A probe finds an object of the table. -/
theorem linearScan_found {k : κ} {last : Nat} {loc : Loc κ β} : ∀ {n h : Nat}, h < m.size →
    linearScan m k last n h = .found loc → At m loc
  | 0, _, _, hs => by cases hs
  | n + 1, h, hlt, hs => by
    rw [linearScan] at hs
    split at hs
    · cases hs
    · split at hs
      · cases hs
      · next heq =>
        split at hs
        · cases hs
          exact ⟨hlt, heq⟩
        · exact linearScan_found (Nat.mod_lt _ (Nat.zero_lt_of_lt hlt)) hs

/-- A probe that finds a slot with room finds one of the table. -/
theorem linearScan_room {k : κ} {last j : Nat} {b c : List (Obj κ β)} : ∀ {n h : Nat}, h < m.size →
    linearScan m k last n h = .room j b c → j < m.size ∧ m.buckets j = b ++ c
  | 0, _, _, hs => by cases hs
  | n + 1, h, hlt, hs => by
    rw [linearScan] at hs
    split at hs
    · cases hs
    · split at hs
      · next heq =>
        cases hs
        exact ⟨hlt, heq⟩
      · split at hs
        · cases hs
        · exact linearScan_room (Nat.mod_lt _ (Nat.zero_lt_of_lt hlt)) hs

/-- A lookup by probing finds an object of the table. -/
theorem linearGet_at {k : κ} {last : Nat} {loc : Loc κ β} : ∀ {n h : Nat}, h < m.size →
    linearGet m k last n h = some loc → At m loc
  | 0, _, _, hs => by cases hs
  | n + 1, h, hlt, hs => by
    rw [linearGet] at hs
    split at hs
    · cases hs
    · split at hs
      · exact linearGet_at (Nat.mod_lt _ (Nat.zero_lt_of_lt hlt)) hs
      · next heq =>
        split at hs
        · cases hs
          exact ⟨hlt, heq⟩
        · exact linearGet_at (Nat.mod_lt _ (Nat.zero_lt_of_lt hlt)) hs

/-- What a put finds is in the table, whatever the callbacks do. -/
theorem scan_found {k : κ} {l : Loc κ β} (hs : m.scan k = some (.found l)) : At m l := by
  by_cases hge : m.size ≤ m.hashOf k
  · simp [scan, hge] at hs
  · cases htype : m.opts.type <;> simp only [scan, htype, if_neg hge, Option.some.injEq] at hs
    · obtain ⟨hidx, heq⟩ := chainScan_found hs
      rw [List.nil_append, ← hidx] at heq
      exact ⟨hidx ▸ Nat.not_le.mp hge, heq⟩
    · exact linearScan_found (Nat.not_le.mp hge) hs

/-- The place that a put finds is in the table as well. -/
theorem scan_room {k : κ} {i : Nat} {b c : List (Obj κ β)} (hs : m.scan k = some (.room i b c)) :
    i < m.size ∧ m.buckets i = b ++ c := by
  by_cases hge : m.size ≤ m.hashOf k
  · simp [scan, hge] at hs
  · cases htype : m.opts.type <;> simp only [scan, htype, if_neg hge, Option.some.injEq] at hs
    · obtain ⟨rfl, heq⟩ := chainScan_room hs
      exact ⟨Nat.not_le.mp hge, heq⟩
    · exact linearScan_room (Nat.not_le.mp hge) hs

/-- What a get finds is in the table. -/
theorem find_found {k : κ} {l : Loc κ β} (hs : m.find k = some (some l)) : At m l := by
  by_cases hge : m.size ≤ m.hashOf k
  · simp [find, hge] at hs
  · cases htype : m.opts.type <;> simp only [find, htype, if_neg hge, Option.some.injEq] at hs
    · obtain ⟨hidx, heq, -⟩ := chainGet_some hs
      rw [List.nil_append, ← hidx] at heq
      exact ⟨hidx ▸ Nat.not_le.mp hge, heq⟩
    · exact linearGet_at (Nat.not_le.mp hge) hs

/-- Of what has been released by a disposal, all but the one object had been released before. -/
theorem mem_released {opts : Opts κ β} {ho x : Ho κ β} {freed : List (Ho κ β)}
    (h : x ∈ released opts ho freed) : x ∈ freed ∨ x = ho := by
  unfold released at h
  split at h
  · exact (List.mem_cons.mp h).symm
  · exact .inl h

/-- A push touches no object but the one that gets the entry. -/
theorem push_within (h : StoresIn a m) {ho : Ho κ β} {ret : Ret} {pqe pqe' : Option Nat}
    (hpush : m.push ho pqe = some (ret, pqe', m')) : Within a m m' := by
  obtain ⟨queue, brk, rfl, hle, -⟩ := (push_shape hpush).eq
  exact ⟨hle, fun _ hho => .inl hho, h⟩

/-- Taking an entry out of the queue touches no object. -/
theorem queueDel_within (h : StoresIn a m) {obj : Obj κ β} (hdel : m.queueDel obj = some m') :
    Within a m m' := by
  obtain ⟨p, -, hdel⟩ := Option.bind_eq_some_iff.mp hdel
  obtain ⟨⟨q₁, e, q₂⟩, -, hdel⟩ := Option.bind_eq_some_iff.mp hdel
  obtain rfl := Option.some.inj hdel
  exact ⟨le_refl m.brk, fun _ hho => .inl hho, h⟩

/-- A disposal releases the object at hand. -/
theorem dispose_within (h : StoresIn a m) {ho : Ho κ β} (hho : a ho.ptr) :
    Within a m (m.dispose ho).2 := by
  rw [dispose_eq]
  refine ⟨le_refl m.brk, fun x hx => ?_, h⟩
  rcases mem_released hx with hx | rfl
  · exact .inl hx
  · exact .inr hho

/-- A delete touches objects of the map. -/
theorem del_within (h : StoresIn a m) {k : κ} {res : Res κ β} (hdel : m.del k = some (res, m')) :
    Within a m m' := by
  cases hfind : m.find k with
  | none => simp [Hmap.del, hfind] at hdel
  | some r =>
    cases r with
    | none =>
      obtain ⟨-, rfl⟩ : (⟨.errFail, none⟩ : Res κ β) = res ∧ m = m' := by
        simpa [Hmap.del, hfind] using hdel
      exact .refl h
    | some l =>
      obtain ⟨hobj, hrest⟩ := (find_found hfind).holds h
      have hset : StoresIn a (m.setBucket l.idx (l.before ++ l.after)) := h.setBucket hrest
      rw [del_of_find hfind] at hdel
      generalize SizeT.sub m.sz 1 = sz at hdel
      obtain ⟨-, rfl⟩ := Prod.mk.inj (Option.some.inj hdel)
      have hstored : stored { m.setBucket l.idx (l.before ++ l.after) with
          freed := released m.opts l.obj.toHo m.freed, sz }
          = stored (m.setBucket l.idx (l.before ++ l.after)) := stored_of_buckets rfl rfl
      refine ⟨le_refl m.brk, fun x hx => ?_, ?_⟩
      · rcases mem_released hx with hx | rfl
        · exact .inl hx
        · exact .inr hobj
      · rw [StoresIn, hstored]
        exact hset

theorem popEntry_within (h : StoresIn a m) {e : QEntry κ β} {q : List (QEntry κ β)} {res : Res κ β}
    (hpop : m.popEntry e q = some (res, m')) : Within a m m' := by
  unfold popEntry at hpop
  split at hpop
  · cases hpop
  · obtain ⟨⟨res₁, m₁⟩, hdel, hpop⟩ := Option.bind_eq_some_iff.mp hpop
    have hw := del_within h hdel
    dsimp only at hpop
    split at hpop
    · obtain ⟨-, rfl⟩ := Prod.mk.inj (Option.some.inj hpop)
      exact ⟨hw.brk, hw.freed, hw.holds⟩
    · obtain ⟨-, rfl⟩ := Prod.mk.inj (Option.some.inj hpop)
      exact hw

/-- So does an eviction: its victim is looked up by its key, and whatever is found is stored. -/
theorem pop_within (h : StoresIn a m) {res : Res κ β} (hpop : m.pop = some (res, m')) :
    Within a m m' := by
  by_cases hpol : m.opts.policy = .none
  · rw [pop, hpol] at hpop
    cases hpop
  · rw [pop_eq hpol] at hpop
    cases hv : victim m.opts m.queue with
    | none =>
      rw [hv] at hpop
      obtain ⟨-, rfl⟩ := Prod.mk.inj (Option.some.inj hpop)
      exact .refl h
    | some x =>
      rw [hv] at hpop
      exact popEntry_within h hpop

/-- Counting, and pushing what was linked. -/
theorem putCount_within (h : StoresIn a m) {obj : Obj κ β} {old : Option (Ho κ β)} {res : Res κ β}
    (hput : m.putCount obj old = some (res, m')) : Within a m m' := by
  unfold putCount at hput
  split at hput
  · obtain ⟨⟨ret, pqe, m₁⟩, hpush, hput⟩ := Option.bind_eq_some_iff.mp hput
    have hw := push_within h hpush
    dsimp only at hput
    split at hput
    · obtain ⟨-, rfl⟩ := Prod.mk.inj (Option.some.inj hput)
      exact hw
    · obtain ⟨-, rfl⟩ := Prod.mk.inj (Option.some.inj hput)
      exact ⟨hw.brk, hw.freed, hw.holds.setPqe obj.ptr pqe⟩
  · obtain ⟨-, rfl⟩ := Prod.mk.inj (Option.some.inj hput)
    exact ⟨le_refl m.brk, fun _ hho => .inl hho, h.setPqe obj.ptr obj.pqe⟩

theorem putEnd_within (h : StoresIn a m) {obj : Obj κ β} {res : Res κ β}
    (hput : m.putEnd obj = some (res, m')) : Within a m m' := by
  unfold putEnd at hput
  split at hput
  · obtain ⟨⟨res₁, m₁⟩, hpop, hput⟩ := Option.bind_eq_some_iff.mp hput
    have hw := pop_within h hpop
    dsimp only at hput
    split at hput
    · obtain ⟨-, rfl⟩ := Prod.mk.inj (Option.some.inj hput)
      exact hw
    · exact hw.trans (putCount_within hw.holds hput)
  · exact putCount_within h hput

/-- An object takes the place of another one, which leaves the map. -/
theorem replace_within {l : Loc κ β} (hl : At m l) (h : StoresIn a m) {obj : Obj κ β}
    (hobj : a obj.ptr) {ho : Ho κ β} (hho : a ho.ptr) :
    Within a m ((m.setBucket l.idx (l.before ++ obj :: l.after)).dispose ho).2 := by
  have hw := dispose_within (hl.holds_set h hobj) hho
  exact ⟨hw.brk, hw.freed, hw.holds⟩

/-- An object in the place of another one. -/
theorem oOverwrite_within (h : StoresIn a m) {l : Loc κ β} (hl : At m l) {obj : Obj κ β}
    (hobj : a obj.ptr) {res : Res κ β} (hput : m.oOverwrite l obj = some (res, m')) :
    Within a m m' := by
  obtain ⟨hold, -⟩ := hl.holds h
  unfold oOverwrite at hput
  split at hput
  · split at hput
    · obtain ⟨-, rfl⟩ := Prod.mk.inj (Option.some.inj hput)
      refine ⟨le_refl m.brk, fun x hx => ?_, h⟩
      rcases List.mem_cons.mp hx with rfl | hx
      · exact .inr hobj
      · exact .inl hx
    · obtain ⟨-, rfl⟩ := Prod.mk.inj (Option.some.inj hput)
      exact .refl h
  · split at hput
    · obtain ⟨m₁, hdel, hput⟩ := Option.bind_eq_some_iff.mp hput
      obtain ⟨⟨ret, pqe, m₂⟩, hpush, hput⟩ := Option.bind_eq_some_iff.mp hput
      have hb := (queueDel_beside hdel).trans (push_beside hpush).1
      have hl₂ : At m₂ l := ⟨hb.size ▸ hl.idx_lt, hb.buckets ▸ hl.eq⟩
      have hw₁ := queueDel_within h hdel
      have hw := hw₁.trans (push_within hw₁.holds hpush)
      dsimp only at hput
      split at hput
      · obtain ⟨-, rfl⟩ := Prod.mk.inj (Option.some.inj hput)
        have hold' : a ({ l.obj with pqe := none } : Obj κ β).ptr := hold
        exact ⟨hw.brk, hw.freed, hl₂.holds_set hw.holds hold'⟩
      · obtain ⟨-, rfl⟩ := Prod.mk.inj (Option.some.inj hput)
        exact hw.trans (@replace_within _ _ _ _ _ hl₂ hw.holds { obj with pqe } hobj _ hold)
    · obtain ⟨-, rfl⟩ := Prod.mk.inj (Option.some.inj hput)
      exact replace_within hl h hobj hold

/-- A put without a resize touches the map's objects and its own. -/
theorem putPlace_within (h : StoresIn a m) {obj : Obj κ β} (hobj : a obj.ptr) {res : Res κ β}
    (hput : m.putPlace obj = some (res, m')) : Within a m m' := by
  obtain ⟨place, hs, hput⟩ := Option.bind_eq_some_iff.mp hput
  cases place with
  | found l => exact oOverwrite_within h (scan_found hs) hobj hput
  | room i before after =>
    obtain ⟨hi, heq⟩ := scan_room hs
    have hall := h.bucket hi
    rw [heq] at hall
    have hset : StoresIn a (m.setBucket i (before ++ obj :: after)) := by
      refine h.setBucket fun o ho => ?_
      rcases List.mem_cons.mp (List.perm_middle.mem_iff.mp ho) with rfl | ho
      · exact hobj
      · exact hall o ho
    have hw := putEnd_within hset hput
    exact ⟨hw.brk, hw.freed, hw.holds⟩
  | full =>
    obtain ⟨-, rfl⟩ := Prod.mk.inj (Option.some.inj hput)
    exact .refl h

/-- The copy of a bucket, with puts that touch only the addresses `a`. -/
theorem copyBucket_within {put : Hmap κ β → Obj κ β → Option (Res κ β × Hmap κ β)}
    (hput : ∀ {m m' obj res}, put m obj = some (res, m') → StoresIn a m → a obj.ptr → Within a m m')
    {i : Nat} : ∀ {l : List (Obj κ β)} {dst src dst' src' : Hmap κ β} {ok : Bool},
      copyBucket put i l dst src = some (ok, dst', src') → (∀ o ∈ l, a o.ptr) → StoresIn a dst →
      StoresIn a src → Within a dst dst' ∧ StoresIn a src' ∧ src'.size = src.size
  | [], dst, src, dst', src', ok, hcopy, _, hdst, hsrc => by
    obtain ⟨-, rfl, rfl⟩ : true = ok ∧ dst = dst' ∧ src = src' := by simpa [copyBucket] using hcopy
    exact ⟨.refl hdst, hsrc, rfl⟩
  | obj :: rest, dst, src, dst', src', ok, hcopy, hl, hdst, hsrc => by
    obtain ⟨hobj, hrest⟩ := List.forall_mem_cons.mp hl
    have hset : StoresIn a (src.setBucket i rest) := hsrc.setBucket hrest
    obtain ⟨⟨res, dst₁⟩, hone, hcopy⟩ := Option.bind_eq_some_iff.mp hcopy
    have hw := hput hone hdst hobj
    dsimp only at hcopy
    split at hcopy
    · obtain ⟨-, rfl, rfl⟩ : false = ok ∧ dst₁ = dst' ∧ src.setBucket i rest = src' := by
        simpa using hcopy
      exact ⟨hw, hset, rfl⟩
    · obtain ⟨hw', hsrc', hsize⟩ := copyBucket_within hput hcopy hrest hw.holds hset
      exact ⟨hw.trans hw', hsrc', hsize⟩

theorem copyBuckets_within {put : Hmap κ β → Obj κ β → Option (Res κ β × Hmap κ β)}
    (hput : ∀ {m m' obj res}, put m obj = some (res, m') → StoresIn a m → a obj.ptr →
      Within a m m') :
    ∀ {is : List Nat} {dst src dst' src' : Hmap κ β} {ok : Bool},
      copyBuckets put is dst src = some (ok, dst', src') → (∀ i ∈ is, i < src.size) →
      StoresIn a dst → StoresIn a src → Within a dst dst' ∧ StoresIn a src'
  | [], dst, src, dst', src', ok, hcopy, _, hdst, hsrc => by
    obtain ⟨-, rfl, rfl⟩ : true = ok ∧ dst = dst' ∧ src = src' := by simpa [copyBuckets] using hcopy
    exact ⟨.refl hdst, hsrc⟩
  | i :: is, dst, src, dst', src', ok, hcopy, hlt, hdst, hsrc => by
    obtain ⟨hi, his⟩ := List.forall_mem_cons.mp hlt
    obtain ⟨⟨ok₁, dst₁, src₁⟩, hone, hcopy⟩ := Option.bind_eq_some_iff.mp hcopy
    obtain ⟨hw, hsrc₁, hsize⟩ := copyBucket_within hput hone (hsrc.bucket hi) hdst hsrc
    dsimp only at hcopy
    split at hcopy
    · obtain ⟨-, rfl, rfl⟩ : false = ok ∧ dst₁ = dst' ∧ src₁ = src' := by simpa using hcopy
      exact ⟨hw, hsrc₁⟩
    · obtain ⟨hw', hsrc'⟩ :=
        copyBuckets_within hput hcopy (fun j hj => hsize ▸ his j hj) hw.holds hsrc₁
      exact ⟨hw.trans hw', hsrc'⟩

/-- A resize touches what the puts of its copy touch. -/
theorem resize_within {put : Hmap κ β → Obj κ β → Option (Res κ β × Hmap κ β)}
    (hput : ∀ {m m' obj res}, put m obj = some (res, m') → StoresIn a m → a obj.ptr → Within a m m')
    {mem : Mem} {ok : Bool} (h : StoresIn a m) (hres : resize put mem m = some (ok, m')) :
    Within a m m' := by
  unfold resize at hres
  split at hres
  · obtain ⟨-, rfl⟩ := Prod.mk.inj (Option.some.inj hres)
    exact .refl h
  split at hres
  · obtain ⟨-, rfl⟩ := Prod.mk.inj (Option.some.inj hres)
    exact .refl h
  split at hres
  · obtain ⟨-, rfl⟩ := Prod.mk.inj (Option.some.inj hres)
    exact .refl h
  split at hres
  · obtain ⟨-, rfl⟩ := Prod.mk.inj (Option.some.inj hres)
    exact ⟨le_refl m.brk, fun _ hho => .inl hho, h⟩
  dsimp only at hres
  split at hres
  · obtain ⟨-, rfl⟩ := Prod.mk.inj (Option.some.inj hres)
    exact ⟨le_refl m.brk, fun _ hho => .inl hho, h⟩
  · next newmap hnew =>
    obtain ⟨⟨ok₁, dst, src⟩, hcopy, hres⟩ := Option.bind_eq_some_iff.mp hres
    obtain ⟨hnil, hbrk, hfreed⟩ := new_heap hnew
    have hempty : StoresIn a newmap := fun o ho => absurd ho (by simp [hnil])
    obtain ⟨hw, hsrc⟩ := copyBuckets_within hput hcopy (fun i hi => List.mem_range.mp hi) hempty h
    have hheap : m.brk ≤ dst.brk ∧ ∀ x ∈ dst.freed, x ∈ m.freed ∨ a x.ptr :=
      ⟨hbrk ▸ hw.brk, fun x hx => hfreed ▸ hw.freed x hx⟩
    have heq := Option.some.inj hres
    cases ok₁ with
    | true =>
      obtain ⟨-, rfl⟩ := Prod.mk.inj heq
      exact ⟨hheap.1, hheap.2, hw.holds⟩
    | false =>
      obtain ⟨-, rfl⟩ := Prod.mk.inj heq
      exact ⟨hheap.1, hheap.2, hsrc⟩

/-- A put with a resize in front of it. -/
theorem putWith_within {resize : Hmap κ β → Option (Bool × Hmap κ β)}
    (hresize : ∀ {m m' ok}, resize m = some (ok, m') → StoresIn a m → Within a m m')
    (h : StoresIn a m)
    {obj : Obj κ β} (hobj : a obj.ptr) {res : Res κ β}
    (hput : putWith resize m obj = some (res, m')) : Within a m m' := by
  unfold putWith at hput
  split at hput
  · obtain ⟨⟨ok, m₁⟩, hres, hput⟩ := Option.bind_eq_some_iff.mp hput
    have hw := hresize hres h
    dsimp only at hput
    split at hput
    · obtain ⟨-, rfl⟩ := Prod.mk.inj (Option.some.inj hput)
      exact hw
    · exact hw.trans (putPlace_within hw.holds hobj hput)
  · exact putPlace_within h hobj hput

/-- The copy of a resize puts again, one level down. -/
theorem putAt_within (mem : Mem) : ∀ (depth : Nat) {m m' : Hmap κ β} {obj : Obj κ β}
    {res : Res κ β}, putAt mem depth m obj = some (res, m') → StoresIn a m → a obj.ptr →
    Within a m m'
  | 0, _, _, _, _, hput, h, hobj => putWith_within (fun hres => by cases hres) h hobj hput
  | depth + 1, _, _, _, _, hput, h, hobj =>
    putWith_within (fun hres h => resize_within (putAt_within mem depth) h hres) h hobj hput

/-- A get touches the object that it finds. -/
theorem get_within (h : StoresIn a m) {k : κ} {res : Res κ β} (hget : m.get k = some (res, m')) :
    Within a m m' := by
  cases hfind : m.find k with
  | none => simp [Hmap.get, hfind] at hget
  | some r =>
    simp only [Hmap.get, hfind, Option.bind_eq_bind, Option.bind_some] at hget
    cases r with
    | none =>
      obtain ⟨-, rfl⟩ := Prod.mk.inj (Option.some.inj hget)
      exact .refl h
    | some l =>
      dsimp only at hget
      split at hget
      · obtain ⟨⟨ret, pqe, m₁⟩, hpush, hget⟩ := Option.bind_eq_some_iff.mp hget
        have hl := find_found hfind
        have hw := push_within h hpush
        obtain ⟨hb, -⟩ := push_beside hpush
        obtain ⟨-, rfl⟩ := Prod.mk.inj (Option.some.inj hget)
        have hl₁ : At m₁ l := ⟨hb.size ▸ hl.idx_lt, hb.buckets ▸ hl.eq⟩
        have hobj : a ({ l.obj with pqe } : Obj κ β).ptr := (hl.holds h).1
        exact ⟨hw.brk, hw.freed, hl₁.holds_set hw.holds hobj⟩
      · obtain ⟨-, rfl⟩ := Prod.mk.inj (Option.some.inj hget)
        exact .refl h

/-- A clear touches the objects of the map. -/
theorem clear_within (h : StoresIn a m) : Within a m m.clear := by
  refine ⟨le_refl m.brk, fun x hx => ?_, fun o ho => ?_⟩
  · simp only [Hmap.clear] at hx
    split at hx
    · rcases List.mem_append.mp hx with hx | hx
      · obtain ⟨o, ho, rfl⟩ := List.mem_map.mp hx
        exact .inr (h o (List.mem_reverse.mp ho))
      · exact .inl hx
    · exact .inl hx
  · obtain ⟨i, hi, hmem⟩ := mem_stored.mp ho
    have hnil : m.clear.buckets i = [] := if_pos hi
    rw [hnil] at hmem
    cases hmem

/-- The address of an object that a call brings with it. -/
def Brings (m : Hmap κ β) : Op κ β → Nat → Prop
  | .map (.cache (.put _ _ _)), x => x = m.brk
  | .again obj _, x => x = obj.ptr
  | _, _ => False

/-- **A call touches the addresses of the map's objects, and of the object that it brings.** -/
theorem exec_within {op : Op κ β} {res : Res κ β} (hst : op.exec m = some (res, m')) :
    Within (fun x => x ∈ addrs m ∨ Brings m op x) m m' := by
  have hself : ∀ {b : Nat → Prop}, StoresIn (fun x => x ∈ addrs m ∨ b x) m :=
    fun o ho => .inl (List.mem_map_of_mem ho)
  match op with
  | .map (.cache (.put k v mem)) =>
    have hnew : StoresIn (fun x => x ∈ addrs m ∨ x = m.brk) (m.oNew k v).2 :=
      @hself fun x => x = m.brk
    have hw := putAt_within mem 1 hst hnew (.inr rfl)
    exact ⟨(Nat.le_succ _).trans hw.brk, hw.freed, hw.holds⟩
  | .map (.cache (.get k)) => exact get_within hself hst
  | .map (.del k) => exact del_within hself hst
  | .clear =>
    obtain ⟨-, rfl⟩ := Prod.mk.inj (Option.some.inj hst)
    exact clear_within hself
  | .again obj mem => exact putAt_within mem 1 hst hself (.inr rfl)

/-- A map on a heap that has grown, where none of its objects is released. -/
theorem Counting.heap {opts : Opts κ β} (h : Counting opts m) {brk : Nat} {freed : List (Ho κ β)}
    (hle : m.brk ≤ brk) (hlt : ∀ ho ∈ freed, ho.ptr < brk)
    (halive : opts.policy ≠ .none → ∀ x ∈ addrs m, x ∉ freed.map Ho.ptr) :
    Counting opts { m with brk, freed } := by
  refine ⟨h.tally.beside ⟨⟨rfl, rfl, rfl, rfl⟩, rfl, rfl⟩, fun hpol => ?_⟩
  have he := h.entered hpol
  have hb := he.backed.brk_le hle
  refine ⟨he.toTable.of_buckets rfl rfl rfl, he.policy, he.ready, hb.entry, hb.nodup_ho,
    hb.nodup_ptr, hb.nodup_known, hb.ho_lt, hb.entry_lt,
    fun o ho => halive hpol o.ptr (List.mem_map_of_mem ho), fun x hx => ?_, hb.whole⟩
  obtain ⟨ho, hho, rfl⟩ := List.mem_map.mp hx
  exact hlt ho hho

/-! ## 2. Pools -/

/-- `u_hmap_copy` of a map to itself, for at most `fuel` rounds: an object that is taken out of
bucket `i` is put again, and the loop need not end. -/
def copySelf (put : Nat → Hmap κ β → Obj κ β → Option (Res κ β × Hmap κ β)) :
    Nat → Nat → Hmap κ β → Option (Bool × Hmap κ β)
  | 0, _, _ => none
  | fuel + 1, i, m =>
    if m.size ≤ i then some (true, m)
    else
      match m.buckets i with
      | [] => copySelf put fuel (i + 1) m
      | obj :: rest => do
        let (res, m) ← put fuel (m.setBucket i rest) obj
        if res.ret ≠ .errNone then some (false, m) else copySelf put fuel i m

/-- A map without objects is copied without a put. -/
theorem copyBuckets_nil (put : Hmap κ β → Obj κ β → Option (Res κ β × Hmap κ β)) (dst : Hmap κ β)
    {src : Hmap κ β} (is : List Nat) (h : ∀ i ∈ is, src.buckets i = []) :
    copyBuckets put is dst src = some (true, dst, src) := by
  induction is with
  | nil => rfl
  | cons i is ih =>
    obtain ⟨hi, his⟩ := List.forall_mem_cons.mp h
    simp [copyBuckets, hi, copyBucket, ih his]

/-- A map without objects is copied to itself in as many rounds as it has buckets, and one. -/
theorem copySelf_nil (put : Nat → Hmap κ β → Obj κ β → Option (Res κ β × Hmap κ β))
    (h : ∀ i < m.size, m.buckets i = []) : ∀ (fuel i : Nat), i ≤ m.size → m.size < fuel + i →
    copySelf put fuel i m = some (true, m)
  | 0, i, hi, hlt => by omega
  | fuel + 1, i, _, hlt => by
    rw [copySelf]
    split
    · rfl
    · next hi =>
      rw [h i (Nat.not_le.mp hi)]
      exact copySelf_nil put h fuel (i + 1) (Nat.not_le.mp hi) (by omega)

/-- Hash maps, and the heap that they share. -/
structure Pool (ι κ β : Type) where
  maps : ι → Hmap κ β
  brk : Nat
  freed : List (Ho κ β)

namespace Pool

variable {ι : Type}

/-- Map `i`, on the heap as it is now. -/
def map (p : Pool ι κ β) (i : ι) : Hmap κ β := { p.maps i with brk := p.brk, freed := p.freed }

/-- Map `i` after a call that took it to `m`. -/
def setMap [DecidableEq ι] (p : Pool ι κ β) (i : ι) (m : Hmap κ β) : Pool ι κ β :=
  ⟨Function.update p.maps i m, m.brk, m.freed⟩

/-- A call: one on map `i`, or a copy of map `src` to map `dst`.  The objects that a copy puts have
their allocations decided by `mem`, by their address, or by the round for a copy to itself, which
is given `fuel` rounds more than a map without objects needs. -/
inductive Call (ι κ β : Type) where
  | on (i : ι) (op : Op κ β)
  | copy (dst src : ι) (mem : Nat → Mem) (fuel : Nat)

/-- What `u_hmap_copy` returns. -/
def copyRes (ok : Bool) : Res κ β := ⟨if ok then .errNone else .errFail, none⟩

def Call.exec [DecidableEq ι] (p : Pool ι κ β) : Call ι κ β → Option (Res κ β × Pool ι κ β)
  | .on i op => do
    let (res, m) ← op.exec (p.map i)
    some (res, p.setMap i m)
  | .copy dst src mem fuel =>
    if dst = src then do
      let (ok, m) ←
        copySelf (fun n m obj => m.put obj (mem n)) (fuel + (p.maps dst).size + 1) 0 (p.map dst)
      some (copyRes ok, p.setMap dst m)
    else do
      let (ok, m, m') ← Hmap.copy (fun m obj => m.put obj (mem obj.ptr)) (p.map dst) (p.map src)
      some (copyRes ok, (p.setMap src m').setMap dst m)

/-- What the caller sees to: an object that is put again is its own, and in none of the maps. -/
def Callers (p : Pool ι κ β) : Call ι κ β → Prop
  | .on i (.again obj _) => Outside (p.map i) obj ∧ ∀ j, obj.ptr ∉ addrs (p.maps j)
  | _ => True

/-- When a call is defined and keeps the counters right. -/
def Counted (p : Pool ι κ β) : Call ι κ β → Prop
  | .on i op => OpCounted (p.map i) op
  | .copy _ src _ _ => (p.maps src).sz = 0

/-! ## 3. Runs -/

/-- **The invariant of a pool**: every map counts its objects, and has them for itself. -/
structure Shared (opts : ι → Opts κ β) (p : Pool ι κ β) : Prop where
  counting : ∀ i, Counting (opts i) (p.map i)
  lt : ∀ i, ∀ x ∈ addrs (p.maps i), x < p.brk
  freed_lt : ∀ ho ∈ p.freed, ho.ptr < p.brk
  apart : ∀ i j, i ≠ j → ∀ x ∈ addrs (p.maps i), x ∉ addrs (p.maps j)

variable {opts : ι → Opts κ β} {p : Pool ι κ β}

/-- **A call on one map leaves the others alone.**  It takes map `i` to `m`, and touches the
addresses of its objects and those in `b`, which no other map has. -/
theorem Shared.setMap [DecidableEq ι] (h : Shared opts p) {i : ι} {b : Nat → Prop}
    (hw : Within (fun x => x ∈ addrs (p.map i) ∨ b x) (p.map i) m)
    (hb : ∀ x, b x → x < m.brk ∧ ∀ j, j ≠ i → x ∉ addrs (p.maps j))
    (hm : Counting (opts i) m) : Shared opts (p.setMap i m) := by
  have hself : (p.setMap i m).maps i = m := Function.update_self ..
  have hother : ∀ {j}, j ≠ i → (p.setMap i m).maps j = p.maps j := fun hj =>
    Function.update_of_ne hj ..
  have hmine : ∀ x ∈ addrs m, x ∈ addrs (p.maps i) ∨ b x := by
    intro x hx
    obtain ⟨o, ho, rfl⟩ := List.mem_map.mp hx
    exact hw.holds o ho
  have hfreed : ∀ ho ∈ m.freed, ho.ptr < m.brk := by
    intro ho hho
    rcases hw.freed ho hho with hho | haddr | hnew
    · exact (h.freed_lt ho hho).trans_le hw.brk
    · exact (h.lt i _ haddr).trans_le hw.brk
    · exact (hb _ hnew).1
  have hapart : ∀ {j}, j ≠ i → ∀ x ∈ addrs m, x ∉ addrs (p.maps j) := by
    intro j hj x hx
    rcases hmine x hx with haddr | hnew
    · exact h.apart i j hj.symm x haddr
    · exact (hb x hnew).2 j hj
  refine ⟨fun j => ?_, fun j x hx => ?_, hfreed, fun j₁ j₂ hne x hx => ?_⟩
  · by_cases hj : j = i
    · subst hj
      rw [map, hself]
      exact hm
    · rw [map, hother hj]
      refine (h.counting j).heap hw.brk hfreed fun hpol x hx hmem => ?_
      obtain ⟨ho, hho, rfl⟩ := List.mem_map.mp hmem
      -- what the call has released is not an object of map `j`
      rcases hw.freed ho hho with hold | haddr | hnew
      · obtain ⟨o, ho', hptr⟩ := List.mem_map.mp hx
        refine ((h.counting j).entered hpol).backed.alive o ho' ?_
        exact List.mem_map.mpr ⟨ho, hold, hptr.symm⟩
      · exact h.apart i j (Ne.symm hj) _ haddr hx
      · exact (hb _ hnew).2 j hj hx
  · by_cases hj : j = i
    · subst hj
      rw [hself] at hx
      rcases hmine x hx with haddr | hnew
      · exact (h.lt j x haddr).trans_le hw.brk
      · exact (hb x hnew).1
    · rw [hother hj] at hx
      exact (h.lt j x hx).trans_le hw.brk
  · by_cases hj₁ : j₁ = i
    · subst hj₁
      rw [hself] at hx
      rw [hother hne.symm]
      exact hapart hne.symm x hx
    · rw [hother hj₁] at hx
      by_cases hj₂ : j₂ = i
      · subst hj₂
        rw [hself]
        exact fun hmem => hapart hj₁ x hmem hx
      · rw [hother hj₂]
        exact h.apart j₁ j₂ hne x hx

/-- A call that changes nothing. -/
theorem Shared.setMap_self [DecidableEq ι] (h : Shared opts p) (i : ι) :
    Shared opts (p.setMap i (p.map i)) :=
  @Shared.setMap _ _ _ _ _ _ _ h i (fun _ => False)
    (.refl fun _ ho => .inl (List.mem_map_of_mem ho)) (fun _ hx => hx.elim) (h.counting i)

/-- An object that is put has an address that no other map has. -/
theorem Shared.brings [DecidableEq ι] (h : Shared opts p) {i : ι} {op : Op κ β}
    (hcaller : Callers p (.on i op)) {res : Res κ β} (hst : op.exec (p.map i) = some (res, m)) :
    ∀ x, Brings (p.map i) op x → x < m.brk ∧ ∀ j, j ≠ i → x ∉ addrs (p.maps j) := by
  intro x hx
  match op with
  | .map (.cache (.put k v mem)) =>
    obtain rfl : x = p.brk := hx
    have hw := @putAt_within _ _ (fun _ => True) mem 1 _ _ _ _ hst (fun _ _ => trivial) trivial
    exact ⟨hw.brk, fun j _ hmem => (h.lt j _ hmem).ne rfl⟩
  | .map (.cache (.get _)) | .map (.del _) | .clear => exact hx.elim
  | .again obj mem =>
    obtain rfl : x = obj.ptr := hx
    exact ⟨hcaller.1.lt.trans_le (exec_within hst).brk, fun j _ => hcaller.2 j⟩

/-- What a caller sees to for a pool, it sees to for each map. -/
theorem Callers.one {i : ι} {op : Op κ β} (h : Callers p (.on i op)) :
    Hmap.Callers (p.map i) op := by
  match op with
  | .map _ => trivial
  | .clear => trivial
  | .again obj mem => exact h.1

/-- **One call is defined, and keeps all counters right** under its condition. -/
theorem Shared.exec [DecidableEq ι] (h : Shared opts p) (call : Call ι κ β)
    (hcaller : Callers p call) (hc : Counted p call) :
    ∃ res p', call.exec p = some (res, p') ∧ Shared opts p' := by
  match call with
  | .on i op =>
    obtain ⟨res, m, hst, hm⟩ := (h.counting i).exec op hcaller.one hc
    refine ⟨res, p.setMap i m, ?_, h.setMap (exec_within hst) (h.brings hcaller hst) hm⟩
    simp only [Call.exec, hst, Option.bind_eq_bind, Option.bind_some]
  | .copy dst src mem fuel =>
    have hnil : ∀ i < (p.map src).size, (p.map src).buckets i = [] :=
      fun i hi => (h.counting src).tally.buckets_nil hc hi
    by_cases heq : dst = src
    · subst heq
      have hcopy := copySelf_nil (fun n m obj => m.put obj (mem n)) hnil
        (fuel + (p.maps dst).size + 1) 0 (Nat.zero_le _) (by simp only [map]; omega)
      refine ⟨copyRes true, p.setMap dst (p.map dst), ?_, h.setMap_self dst⟩
      simp only [Call.exec, if_true, hcopy, Option.bind_eq_bind, Option.bind_some]
    · have hcopy : Hmap.copy (fun m obj => m.put obj (mem obj.ptr)) (p.map dst) (p.map src)
          = some (true, p.map dst, p.map src) :=
        copyBuckets_nil _ _ _ fun i hi => hnil i (List.mem_range.mp hi)
      have hdst : (p.setMap src (p.map src)).map dst = p.map dst := by
        have hmaps : (p.setMap src (p.map src)).maps dst = p.maps dst :=
            Function.update_of_ne heq ..
        rw [map, hmaps]
        rfl
      refine ⟨copyRes true, (p.setMap src (p.map src)).setMap dst (p.map dst), ?_,
        hdst ▸ (h.setMap_self src).setMap_self dst⟩
      simp only [Call.exec, if_neg heq, hcopy, Option.bind_eq_bind, Option.bind_some]

/-- The counters are right after a call. -/
def CountsAfter (_ : Pool ι κ β) (_ : Call ι κ β) (_ : Res κ β) (p' : Pool ι κ β) : Prop :=
  ∀ i, count (p'.maps i) = (stored (p'.maps i)).length

/-- New maps on a heap where nothing was released. -/
theorem new_shared (hl : ∀ i, Lawful (opts i)) (hfreed : p.freed = [])
    (hnew : ∀ i, ∃ avail, new (opts i) p.brk [] avail = some (p.maps i)) : Shared opts p := by
  have hempty : ∀ i, addrs (p.maps i) = [] := by
    intro i
    obtain ⟨avail, hi⟩ := hnew i
    exact List.map_eq_nil_iff.mpr (new_heap hi).1
  refine ⟨fun i => ?_, fun i x hx => ?_, fun ho hho => ?_, fun i j _ x hx => ?_⟩
  · obtain ⟨avail, hi⟩ := hnew i
    obtain ⟨-, hbrk, hf⟩ := new_heap hi
    have hmap : p.map i = p.maps i := by
      rw [map, hfreed, ← hbrk, ← hf]
    rw [hmap]
    exact ⟨new_tally (hl i) hi, fun hpol => new_entered (hl i) hpol hi⟩
  · rw [hempty i] at hx
    cases hx
  · rw [hfreed] at hho
    cases hho
  · rw [hempty i] at hx
    cases hx

/-- **When `u_hmap_count` is the number of objects**: in a run of calls on new maps, of both types
and all policies, whatever memory there is for queue entries and resizes, every call is defined and
every counter is right after it, as long as every call starts where it is `Counted`. -/
theorem count_of_guarded [DecidableEq ι] (hl : ∀ i, Lawful (opts i)) (hfreed : p.freed = [])
    (hnew : ∀ i, ∃ avail, new (opts i) p.brk [] avail = some (p.maps i))
    {calls : List (Call ι κ β)} (hcaller : Guarded Call.exec Callers p calls)
    (hguard : Guarded Call.exec Counted p calls) : Always Call.exec CountsAfter p calls := by
  refine always_of_guarded (Shared opts) ?_ (new_shared hl hfreed hnew) (hcaller.and hguard)
  rintro p call h ⟨hcaller, hc⟩
  obtain ⟨res, p', hst, h'⟩ := h.exec call hcaller hc
  exact ⟨res, p', hst, fun i => (h'.counting i).tally.count, h'⟩

/-! ## 4. Runs on natural numbers -/

section Decide

variable [DecidableEq κ] [DecidableEq β]

instance (m : Hmap κ β) (obj : Obj κ β) (mem : Mem) : Decidable (PutCounted m obj mem) :=
  have : Decidable (Distinct (hos m)) := inferInstanceAs (Decidable (List.Nodup _))
  have : Decidable (ResizeFails m mem) := inferInstanceAs (Decidable (_ ∧ (_ ∨ _)))
  decidable_of_iff ((Adds m obj.key → m.sz + 1 < 2 ^ 63) ∧
    (m.opts.policy ≠ .none → Sound m obj) ∧
    (m.opts.policy = .none → m.threshold ≤ m.sz → m.opts.noOverwrite = true →
      Distinct (hos m) ∨ ResizeFails m mem))
    ⟨fun h => ⟨h.1, h.2.1, h.2.2⟩, fun h => ⟨h.few, h.sound, h.resize⟩⟩

instance (m : Hmap κ β) : ∀ op, Decidable (OpCounted m op)
  | .map (.cache (.put k v mem)) =>
    inferInstanceAs (Decidable (PutCounted (m.oNew k v).2 (m.oNew k v).1 mem))
  | .map (.cache (.get k)) => inferInstanceAs (Decidable (m.opts.policy = .lfu → Counts m k))
  | .map (.del _) => inferInstanceAs (Decidable True)
  | .clear => inferInstanceAs (Decidable (m.sz = 0))
  | .again obj mem => inferInstanceAs (Decidable (PutCounted m obj mem))

instance [Fintype ι] (p : Pool ι κ β) : ∀ call, Decidable (Callers p call)
  | .on _ (.again obj _) => inferInstanceAs (Decidable (_ ∧ ∀ j, obj.ptr ∉ addrs (p.maps j)))
  | .on _ (.map _) => inferInstanceAs (Decidable True)
  | .on _ .clear => inferInstanceAs (Decidable True)
  | .copy _ _ _ _ => inferInstanceAs (Decidable True)

instance (p : Pool ι κ β) : ∀ call, Decidable (Counted p call)
  | .on i op => inferInstanceAs (Decidable (OpCounted (p.map i) op))
  | .copy _ src _ _ => inferInstanceAs (Decidable ((p.maps src).sz = 0))

end Decide

/-- Options of a FIFO cache whose objects stay the caller's, and of a map without policy. -/
def mixedOpts (i : Bool) : Opts Nat Char := bif i then natOpts .chain else lentOpts .fifo

theorem mixedOpts_lawful : ∀ i, Lawful (mixedOpts i)
  | false => lentOpts_lawful .fifo
  | true => natOpts_lawful .chain

/-- New maps with these options. -/
def mixedPool : Pool Bool Nat Char :=
  ⟨fun i => bif i then natMap .chain else lentMap .fifo 100, 0, []⟩

/-- A key is deleted from the cache, which leaves its entry; its object is put again and gets this
entry back; another put discards the oldest object, which goes to the other map.  When that is
empty again, it is copied to the cache, and cleared. -/
def mixedCalls : List (Call Bool Nat Char) :=
  [.on false (.map (.cache (.put 1 'a' .ok))), .on false (.map (.cache (.put 14 'b' .ok))),
    .on false (.map (.del 1)), .on false (.again ⟨⟨0, 1, 'a'⟩, some 1⟩ .ok),
    .on false (.map (.cache (.get 1))), .on false (.map (.cache (.put 3 'c' .ok))),
    .on true (.again ⟨⟨2, 14, 'b'⟩, some 3⟩ .ok), .on true (.map (.del 14)),
    .copy false true (fun _ => .ok) 0, .on true .clear]

theorem new_mixedOpts : ∀ i, ∃ avail, new (mixedOpts i) mixedPool.brk [] avail
    = some (mixedPool.maps i)
  | false => ⟨_, new_lentOpts .fifo 100⟩
  | true => ⟨_, new_natOpts .chain⟩

theorem count_of_guarded_mixed : Always Call.exec CountsAfter mixedPool mixedCalls :=
  count_of_guarded mixedOpts_lawful rfl new_mixedOpts (by decide +kernel) (by decide +kernel)

/-- Two new maps from numbers to characters, with chaining. -/
def natPool : Pool Bool Nat Char := ⟨fun _ => natMap .chain, 0, []⟩

/-- A clear leaves the counter where it was. -/
theorem clear_keeps_count : ∃ rs p', run Call.exec natPool
      [.on false (.map (.cache (.put 1 'a' .ok))), .on false .clear] = some (rs, p') ∧
    count (p'.maps false) = 1 ∧ stored (p'.maps false) = [] :=
  ⟨_, _, rfl, rfl, rfl⟩

end Pool

end Libu.Hmap
