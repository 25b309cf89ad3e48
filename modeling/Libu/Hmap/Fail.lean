/-
# What a failed put leaves behind

`u_hmap_put` can return `U_HMAP_ERR_FAIL` at five places: where no allocation or no larger prime is
had for a resize, where the copy of a resize is refused an object, where the whole probe is taken,
where the policy finds nothing to discard, and where the new object gets no entry in the queue.  The
first and the third leave the map as it was.  By the second the objects have gone to the new map and
the options are cleared; by the fourth and the fifth the new object is linked.

Two things are shown of a run (`failed_put_iff`).  Where all its calls are defined, its failed puts
are harmless exactly if every put meets `FailSafe`.  And where every call meets `FailSound`, which
asks besides that the victim of an eviction is the object that a lookup of its key finds, every call
is defined and every failed put is harmless; such runs keep the invariant `Lively`.

* §1 and §2: what every step keeps (`Held`), and which puts without a resize fail.
* §3 and §4: a map without policy has room once it is resized, and its copy is refused exactly if
  two objects have one key and none may be overwritten.
* §5: in a run, every failed put leaves the map as it was if and only if every put meets `FailSafe`
  (`failed_put_iff`).
* §6: runs on natural numbers.
-/
import Libu.Hmap.Count

namespace Libu.Hmap

open Verif
open scoped List

variable {κ β : Type} {m m' : Hmap κ β} {opts : Opts κ β} {n : Nat}

/-! ## 1. What every step keeps -/

/-- The map was created with `opts`, and its objects are at addresses below `n`. -/
structure Held (n : Nat) (opts : Opts κ β) (m : Hmap κ β) : Prop extends Table m where
  opts_eq : m.opts = { opts with size := m.opts.size }
  brk : n ≤ m.brk
  ptr : ∀ o ∈ stored m, o.ptr < n

/-- No step changes the policy. -/
theorem Held.policy (h : Held n opts m) : m.opts.policy = opts.policy := by rw [h.opts_eq]

/-- A step beside the table: the heap may grow, and nothing else is asked. -/
theorem Held.beside (h : Held n opts m) (hb : Beside m m') (hbrk : m.brk ≤ m'.brk) :
    Held n opts m' := by
  refine ⟨h.toTable.of_buckets hb.opts hb.size hb.buckets, ?_, h.brk.trans hbrk, ?_⟩
  · rw [hb.opts]
    exact h.opts_eq
  · rw [stored_of_buckets hb.size hb.buckets]
    exact h.ptr

/-- A push keeps what is held, whether it has memory or not. -/
theorem Held.push (h : Held n opts m) {ho : Ho κ β} {ret : Ret} {pqe pqe' : Option Nat}
    (hpush : m.push ho pqe = some (ret, pqe', m')) : Held n opts m' := by
  obtain ⟨queue, brk, rfl, hle, -⟩ := (push_shape hpush).eq
  exact h.beside ⟨⟨rfl, rfl, rfl, rfl⟩, rfl, rfl⟩ hle

/-- So does taking an entry out of the queue. -/
theorem Held.queueDel (h : Held n opts m) {obj : Obj κ β} (hdel : m.queueDel obj = some m') :
    Held n opts m' := by
  obtain ⟨p, -, hdel⟩ := Option.bind_eq_some_iff.mp hdel
  obtain ⟨⟨q₁, e, q₂⟩, -, hdel⟩ := Option.bind_eq_some_iff.mp hdel
  obtain rfl := Option.some.inj hdel
  exact h.beside ⟨⟨rfl, rfl, rfl, rfl⟩, rfl, rfl⟩ (le_refl m.brk)

/-- Taking an entry out of the queue leaves the table and the heap as they are. -/
theorem queueDel_still {obj : Obj κ β} (hdel : m.queueDel obj = some m') :
    Still m m' ∧ m'.brk = m.brk := by
  obtain ⟨p, -, hdel⟩ := Option.bind_eq_some_iff.mp hdel
  obtain ⟨⟨q₁, e, q₂⟩, -, hdel⟩ := Option.bind_eq_some_iff.mp hdel
  obtain rfl := Option.some.inj hdel
  exact ⟨⟨rfl, rfl⟩, rfl⟩

theorem Held.dispose (h : Held n opts m) (ho : Ho κ β) : Held n opts (m.dispose ho).2 := by
  rw [dispose_eq]
  exact h.beside ⟨⟨rfl, rfl, rfl, rfl⟩, rfl, rfl⟩ (le_refl m.brk)

theorem Held.setPqe (h : Held n opts m) (ptr : Nat) (pqe : Option Nat) :
    Held n opts (m.setPqe ptr pqe) := by
  refine ⟨h.toTable.setPqe ptr pqe, h.opts_eq, h.brk, ?_⟩
  rw [stored_setPqe]
  intro o ho
  obtain ⟨o', ho', rfl⟩ := List.mem_map.mp ho
  have hlt := h.ptr o' ho'
  split <;> exact hlt

/-- An object in the place of one with the same key. -/
theorem Held.replace (h : Held n opts m) {l : Loc κ β} (hl : At m l) {obj : Obj κ β}
    (hk : obj.key = l.obj.key) (hptr : obj.ptr < n) :
    Held n opts (m.setBucket l.idx (l.before ++ obj :: l.after)) := by
  obtain ⟨rest, hall, -, hrepl⟩ := hl.exists_rest
  refine ⟨h.toTable.replace hl hk, h.opts_eq, h.brk, fun o ho => ?_⟩
  rcases List.mem_cons.mp ((hrepl obj).mem_iff.mp ho) with rfl | ho
  · exact hptr
  · exact h.ptr o (hall.mem_iff.mpr (List.mem_cons_of_mem _ ho))

/-- A new object where a put has found room for it. -/
theorem Held.link (h : Held n opts m) {k : κ} {i : Nat} {before after : List (Obj κ β)}
    (hr : Room m k i before after) {obj : Obj κ β} (hk : obj.key = k) (hptr : obj.ptr < n) :
    Held n opts (m.setBucket i (before ++ obj :: after)) := by
  refine ⟨hr.link obj hk, h.opts_eq, h.brk, fun o ho => ?_⟩
  rcases List.mem_cons.mp ((stored_link hr.idx_lt hr.eq obj).mem_iff.mp ho) with rfl | ho
  · exact hptr
  · exact h.ptr o ho

/-- An object less. -/
theorem Held.unlink (h : Held n opts m) {l : Loc κ β} (hl : At m l) :
    Held n opts (m.setBucket l.idx (l.before ++ l.after)) := by
  obtain ⟨rest, hall, hrem, -⟩ := hl.exists_rest
  refine ⟨h.toTable.remove hl, h.opts_eq, h.brk, fun o ho => ?_⟩
  exact h.ptr o (hall.mem_iff.mpr (List.mem_cons_of_mem _ (hrem.mem_iff.mp ho)))

/-- The counter is no part of what is held. -/
theorem Held.recount (h : Held n opts m) (sz : Nat) : Held n opts { m with sz } :=
  ⟨h.toTable.of_buckets rfl rfl rfl, h.opts_eq, h.brk, h.ptr⟩

theorem Held.prime (h : Held n opts m) (px : Nat) : Held n opts { m with px } :=
  ⟨h.toTable.of_buckets rfl rfl rfl, h.opts_eq, h.brk, h.ptr⟩

/-- A del succeeds if its key is stored, and else changes nothing. -/
theorem Held.del (h : Held n opts m) {k : κ} {res : Res κ β} (hdel : m.del k = some (res, m')) :
    Held n opts m' ∧ Still m m' ∧ m'.brk = m.brk ∧
      (Has m k → res.ret = .errNone ∧ m'.sz = SizeT.sub m.sz 1) ∧
      (¬ Has m k → res.ret = .errFail ∧ m' = m) := by
  rcases find_spec h.toTable k with ⟨l, hfind, hl, rfl, -⟩ | ⟨hfind, hnot⟩
  · have h₁ := (h.unlink hl).dispose l.obj.toHo
    rw [dispose_eq] at h₁
    rw [del_of_find hfind, Option.some.injEq, Prod.mk.injEq] at hdel
    obtain ⟨rfl, rfl⟩ := hdel
    exact ⟨h₁.recount _, ⟨rfl, rfl⟩, rfl, fun _ => ⟨rfl, rfl⟩, fun hnot => absurd hl.has hnot⟩
  · rw [Hmap.del, hfind] at hdel
    obtain ⟨rfl, rfl⟩ := Prod.mk.inj (Option.some.inj hdel)
    exact ⟨h, ⟨rfl, rfl⟩, rfl, fun hk => absurd hk hnot, fun _ => ⟨rfl, rfl⟩⟩

/-- The policy has a victim, and its key is stored. -/
def Discards (m : Hmap κ β) : Prop :=
  ∃ e q, victim m.opts m.queue = some (e, q) ∧ Has m e.ho.key

/-- An eviction succeeds if it finds an object with its victim's key, and else changes nothing. -/
theorem Held.pop (h : Held n opts m) (hpol : m.opts.policy ≠ .none) {res : Res κ β}
    (hpop : m.pop = some (res, m')) :
    Held n opts m' ∧ Still m m' ∧ m'.brk = m.brk ∧
      (Discards m → res.ret = .errNone ∧ m'.sz = SizeT.sub m.sz 1) ∧
      (¬ Discards m → res.ret = .errFail ∧ m' = m) := by
  rw [pop_eq hpol] at hpop
  cases hv : victim m.opts m.queue with
  | none =>
    rw [hv] at hpop
    obtain ⟨rfl, rfl⟩ := Prod.mk.inj (Option.some.inj hpop)
    refine ⟨h, ⟨rfl, rfl⟩, rfl, ?_, fun _ => ⟨rfl, rfl⟩⟩
    rintro ⟨e, q, he, -⟩
    rw [hv] at he
    cases he
  | some x =>
    obtain ⟨e, q⟩ := x
    rw [hv] at hpop
    have hdiscards : Discards m ↔ Has m e.ho.key := by
      constructor
      · rintro ⟨e', q', he, hk⟩
        obtain ⟨rfl, -⟩ : e = e' ∧ q = q' := by simpa [hv] using he
        exact hk
      · exact fun hk => ⟨e, q, hv, hk⟩
    rw [hdiscards]
    dsimp only [popEntry] at hpop
    split at hpop
    · cases hpop
    · obtain ⟨⟨res₁, m₁⟩, hdel, hput⟩ := Option.bind_eq_some_iff.mp hpop
      obtain ⟨h₁, hstill, hbrk, hok, hfail⟩ := h.del hdel
      dsimp only at hput
      by_cases hk : Has m e.ho.key
      · rw [if_pos (hok hk).1] at hput
        obtain ⟨rfl, rfl⟩ := Prod.mk.inj (Option.some.inj hput)
        exact ⟨h₁.beside ⟨⟨rfl, rfl, rfl, rfl⟩, rfl, rfl⟩ (le_refl m₁.brk),
          ⟨hstill.opts, hstill.avail⟩, hbrk, hok, fun hnot => absurd hk hnot⟩
      · obtain ⟨hret, rfl⟩ := hfail hk
        rw [if_neg (by rw [hret]; decide)] at hput
        obtain ⟨rfl, rfl⟩ := Prod.mk.inj (Option.some.inj hput)
        exact ⟨h, ⟨rfl, rfl⟩, rfl, fun hhas => absurd hhas hk, fun _ => ⟨rfl, rfl⟩⟩

/-! ## 2. Puts without a resize -/

/-- The map has a policy, whose push of an object with the entry `pqe` fails. -/
def Unqueued (m : Hmap κ β) (pqe : Option Nat) : Prop := m.opts.policy ≠ .none ∧ PushFails m pqe

/-- A linked object is counted, unless its push fails. -/
theorem Held.putCount (h : Held n opts m) {obj : Obj κ β} {old : Option (Ho κ β)} {res : Res κ β}
    (hput : m.putCount obj old = some (res, m')) : Held n opts m' ∧
      (¬ Unqueued m obj.pqe → res.ret = .errNone) ∧
      (Unqueued m obj.pqe → res.ret = .errFail ∧ Beside m m') := by
  unfold Hmap.putCount at hput
  split at hput
  · next hop =>
    have hpol := policy_of_opPut hop
    obtain ⟨⟨ret, pqe, m₁⟩, hpush, hput⟩ := Option.bind_eq_some_iff.mp hput
    have hshape := push_shape hpush
    dsimp only at hput
    by_cases hfails : PushFails m obj.pqe
    · rw [if_pos (by rw [hshape.fails hfails]; decide)] at hput
      obtain ⟨rfl, rfl⟩ := Prod.mk.inj (Option.some.inj hput)
      exact ⟨h.push hpush, fun hnot => absurd ⟨hpol, hfails⟩ hnot,
        fun _ => ⟨rfl, (push_beside hpush).1⟩⟩
    · rw [if_neg (not_not.mpr (hshape.goes hfails))] at hput
      obtain ⟨rfl, rfl⟩ := Prod.mk.inj (Option.some.inj hput)
      exact ⟨((h.push hpush).setPqe obj.ptr pqe).recount _, fun _ => rfl,
        fun hun => absurd hun.2 hfails⟩
  · next hop =>
    obtain ⟨rfl, rfl⟩ := Prod.mk.inj (Option.some.inj hput)
    exact ⟨(h.setPqe obj.ptr obj.pqe).recount _, fun _ => rfl,
      fun hun => absurd (opPut_of_ne hun.1) hop⟩

/-- **How the end of a put fails.**  The policy has to discard an object and finds none, and then
nothing more is changed; or the push fails, and then the object stays linked or the count has
changed. -/
structure EndRet (m : Hmap κ β) (obj : Obj κ β) (res : Res κ β) (m' : Hmap κ β) : Prop where
  goes : (m.opts.max ≤ m.sz → m.opts.policy ≠ .none → Discards m) → ¬ Unqueued m obj.pqe →
    res.ret = .errNone
  stuck : m.opts.max ≤ m.sz → m.opts.policy ≠ .none → ¬ Discards m → res.ret = .errFail ∧ m' = m
  unqueued : (m.opts.max ≤ m.sz → m.opts.policy ≠ .none → Discards m) → Unqueued m obj.pqe →
    res.ret = .errFail ∧ (m'.sz ≠ m.sz ∨ stored m' = stored m)

theorem Held.putEnd (h : Held n opts m) {obj : Obj κ β} {res : Res κ β}
    (hput : m.putEnd obj = some (res, m')) : Held n opts m' ∧ EndRet m obj res m' := by
  unfold Hmap.putEnd at hput
  split at hput
  · next hfull =>
    obtain ⟨⟨res₁, m₁⟩, hpop, hend⟩ := Option.bind_eq_some_iff.mp hput
    obtain ⟨h₁, hstill, hbrk, hok, hfail⟩ := h.pop hfull.2 hpop
    dsimp only at hend
    by_cases hd : Discards m
    · obtain ⟨hret₁, hsz₁⟩ := hok hd
      rw [if_neg (not_not.mpr hret₁)] at hend
      obtain ⟨h', hgoes, hfails⟩ := h₁.putCount hend
      have hun : Unqueued m₁ obj.pqe ↔ Unqueued m obj.pqe := by
        rw [Unqueued, Unqueued, hstill.pushFails_iff hbrk, hstill.opts]
      rw [hun] at hgoes hfails
      refine ⟨h', fun _ => hgoes, fun _ _ hnot => absurd hd hnot, fun _ hu => ?_⟩
      obtain ⟨hret, hb⟩ := hfails hu
      refine ⟨hret, .inl ?_⟩
      rw [hb.sz, hsz₁]
      exact SizeT.sub_one_ne m.sz
    · obtain ⟨hret, rfl⟩ := hfail hd
      rw [if_pos (by rw [hret]; decide)] at hend
      obtain ⟨rfl, rfl⟩ := Prod.mk.inj (Option.some.inj hend)
      exact ⟨h, fun hall => absurd (hall hfull.1 hfull.2) hd, fun _ _ _ => ⟨rfl, rfl⟩,
        fun hall => absurd (hall hfull.1 hfull.2) hd⟩
  · next hfull =>
    obtain ⟨h', hgoes, hfails⟩ := h.putCount hput
    refine ⟨h', fun _ => hgoes, fun hsz hpol => absurd ⟨hsz, hpol⟩ hfull, fun _ hu => ?_⟩
    obtain ⟨hret, hb⟩ := hfails hu
    exact ⟨hret, .inr (stored_of_buckets hb.size hb.buckets)⟩

/-- A put that meets an object with its key fails only if its push does, and then that object has
lost its entry. -/
theorem Held.oOverwrite (h : Held n opts m) {l : Loc κ β} {obj : Obj κ β} {res : Res κ β}
    (hl : At m l) (hk : obj.key = l.obj.key) (hptr : obj.ptr < n)
    (hput : m.oOverwrite l obj = some (res, m')) : Held n opts m' ∧
      (¬ (m.opts.noOverwrite = false ∧ Unqueued m obj.pqe) → res.ret ≠ .errFail) ∧
      (m.opts.noOverwrite = false → Unqueued m obj.pqe →
        res.ret = .errFail ∧ m'.buckets ≠ m.buckets) := by
  have hset : ∀ {m₁ : Hmap κ β} (o : Obj κ β), o.key = l.obj.key → o.ptr < n → Beside m m₁ →
      Held n opts m₁ → Held n opts (m₁.setBucket l.idx (l.before ++ o :: l.after)) := by
    intro m₁ o ho hlt hb h₁
    have hl₁ : At m₁ l := ⟨hb.size ▸ hl.idx_lt, hb.buckets ▸ hl.eq⟩
    exact h₁.replace hl₁ ho hlt
  unfold Hmap.oOverwrite at hput
  split at hput
  · next hno =>
    have hnot : ¬ m.opts.noOverwrite = false := by simp [hno]
    split at hput
    · obtain ⟨rfl, rfl⟩ := Prod.mk.inj (Option.some.inj hput)
      exact ⟨h.beside ⟨⟨rfl, rfl, rfl, rfl⟩, rfl, rfl⟩ (le_refl m.brk), fun _ => by simp,
        fun hover => absurd hover hnot⟩
    · obtain ⟨rfl, rfl⟩ := Prod.mk.inj (Option.some.inj hput)
      exact ⟨h, fun _ => by simp, fun hover => absurd hover hnot⟩
  · next hno =>
    have hover : m.opts.noOverwrite = false := by simpa using hno
    split at hput
    · next hop =>
      have hpol := policy_of_opPut hop
      obtain ⟨m₁, hdel, hput⟩ := Option.bind_eq_some_iff.mp hput
      obtain ⟨⟨ret, pqe, m₂⟩, hpush, hput⟩ := Option.bind_eq_some_iff.mp hput
      have hshape := push_shape hpush
      have hb := (queueDel_beside hdel).trans (push_beside hpush).1
      have h₂ := (h.queueDel hdel).push hpush
      have hfails_iff : PushFails m₁ obj.pqe ↔ PushFails m obj.pqe := by
        obtain ⟨hstill, hbrk⟩ := queueDel_still hdel
        exact hstill.pushFails_iff hbrk _
      dsimp only at hput
      by_cases hfails : PushFails m obj.pqe
      · rw [if_pos (by rw [hshape.fails (hfails_iff.mpr hfails)]; decide)] at hput
        obtain ⟨rfl, rfl⟩ := Prod.mk.inj (Option.some.inj hput)
        have hold : ({ l.obj with pqe := none } : Obj κ β).ptr < n := h.ptr l.obj hl.mem
        refine ⟨hset { l.obj with pqe := none } rfl hold hb h₂,
          fun hnot => absurd ⟨hover, hpol, hfails⟩ hnot, fun _ _ => ⟨rfl, fun heq => ?_⟩⟩
        -- the old object had an entry
        obtain ⟨p, hpqe, -⟩ := Option.bind_eq_some_iff.mp hdel
        have hbucket := congrFun heq l.idx
        rw [setBucket_self, hl.eq] at hbucket
        have hobj := (List.cons.inj (List.append_cancel_left hbucket)).1
        rw [← congrArg Obj.pqe hobj] at hpqe
        cases hpqe
      · rw [if_neg (not_not.mpr (hshape.goes fun hf => hfails (hfails_iff.mp hf)))] at hput
        obtain ⟨rfl, rfl⟩ := Prod.mk.inj (Option.some.inj hput)
        exact ⟨(hset { obj with pqe } hk hptr hb h₂).dispose _, fun _ => by simp,
          fun _ hu => absurd hu.2 hfails⟩
    · next hop =>
      obtain ⟨rfl, rfl⟩ := Prod.mk.inj (Option.some.inj hput)
      exact ⟨(hset obj hk hptr ⟨⟨rfl, rfl, rfl, rfl⟩, rfl, rfl⟩ h).dispose _, fun _ => by simp,
        fun _ hu => absurd (opPut_of_ne hu.1) hop⟩

/-- Once the object is linked, its own key may be the one that is discarded. -/
theorem Room.discards_iff {k : κ} {i : Nat} {before after : List (Obj κ β)}
    (hr : Room m k i before after) {obj : Obj κ β} (hk : obj.key = k) :
    Discards (m.setBucket i (before ++ obj :: after)) ↔ Evictable m k := by
  subst hk
  unfold Discards Evictable
  change (∃ e q, victim m.opts m.queue = some (e, q) ∧ _) ↔ _
  cases hv : victim m.opts m.queue with
  | none => simp
  | some x =>
    obtain ⟨e, q⟩ := x
    simp [hr.has_link]

/-- What a put that does not resize must find so that it is harmless if it fails: an object to
discard, if one has to be; and an entry for its object, if that is stored. -/
structure PlaceHarmless (m : Hmap κ β) (obj : Obj κ β) : Prop where
  evict : m.opts.policy ≠ .none → m.opts.max ≤ m.sz → Adds m obj.key → Evictable m obj.key
  entry : m.opts.policy ≠ .none → Stores m obj.key → ¬ PushFails m obj.pqe

/-- **Which puts without a resize fail.**  One that finds no place changes nothing.  One that has to
evict an object, and finds none, has linked its own; one whose push fails has linked its object,
changed the count, or taken the entry of another one. -/
theorem Held.putPlace (h : Held n opts m) {obj : Obj κ β} {res : Res κ β} (hptr : obj.ptr < n)
    (hput : m.putPlace obj = some (res, m')) : Held n opts m' ∧
      (PlaceHarmless m obj → res.ret = .errFail → m' = m ∧ Full m obj.key) ∧
      (¬ PlaceHarmless m obj → res.ret = .errFail ∧
        ((∃ o ∈ stored m', o.ptr = obj.ptr) ∨ m'.sz ≠ m.sz ∨ m'.buckets ≠ m.buckets)) := by
  have hfulliff := h.toTable.scan_full_iff obj.key
  unfold Hmap.putPlace at hput
  rcases scan_spec h.toTable obj.key with
    ⟨l, hs, hl, hk, -, hnadds⟩ | ⟨i, before, after, hs, hr, hadds, -⟩ | ⟨hs, -, hnadds, -⟩
  · rw [hs] at hput hfulliff
    have hnfull : ¬ Full m obj.key := fun hf => by simpa using hfulliff.mpr hf
    obtain ⟨h', hgoes, hfails⟩ := h.oOverwrite hl hk.symm hptr hput
    have hiff : PlaceHarmless m obj ↔ ¬ (m.opts.noOverwrite = false ∧ Unqueued m obj.pqe) := by
      constructor
      · exact fun hsafe hu => hsafe.entry hu.2.1 (.inr ⟨hu.1, hnfull⟩) hu.2.2
      · refine fun hnot => ⟨fun _ _ hadds => absurd hadds hnadds, fun hpol hstores hf => ?_⟩
        exact hnot ⟨(hstores.resolve_left hnadds).1, hpol, hf⟩
    rw [hiff, not_not]
    refine ⟨h', fun hnot hret => absurd hret (hgoes hnot), fun hu => ?_⟩
    obtain ⟨hret, hne⟩ := hfails hu.1 hu.2
    exact ⟨hret, .inr (.inr hne)⟩
  · rw [hs] at hput
    have hlink := h.link hr rfl hptr
    obtain ⟨h', hend⟩ := hlink.putEnd hput
    have hdiscards := hr.discards_iff (rfl : obj.key = obj.key)
    have hstored := stored_link hr.idx_lt hr.eq obj
    have hself : ∃ o ∈ stored (m.setBucket i (before ++ obj :: after)), o.ptr = obj.ptr :=
      ⟨obj, hstored.mem_iff.mpr (List.mem_cons_self ..), rfl⟩
    refine ⟨h', fun hsafe hret => ?_, fun hnot => ?_⟩
    · rw [hend.goes (fun hsz hpol => hdiscards.mpr (hsafe.evict hpol hsz hadds))
        fun hu => hsafe.entry hu.1 (.inl hadds) hu.2] at hret
      cases hret
    · by_cases hev : m.opts.policy ≠ .none → m.opts.max ≤ m.sz → Evictable m obj.key
      · have hun : Unqueued m obj.pqe := by
          by_contra hun
          exact hnot ⟨fun hpol hsz _ => hev hpol hsz, fun hpol _ hf => hun ⟨hpol, hf⟩⟩
        obtain ⟨hret, hharm⟩ := hend.unqueued (fun hsz hpol => hdiscards.mpr (hev hpol hsz)) hun
        refine ⟨hret, hharm.elim (fun hsz => .inr (.inl hsz)) fun hst => .inl ?_⟩
        rw [hst]
        exact hself
      · obtain ⟨hpol, hev⟩ := Classical.not_imp.mp hev
        obtain ⟨hsz, hev⟩ := Classical.not_imp.mp hev
        obtain ⟨hret, rfl⟩ := hend.stuck hsz hpol (mt hdiscards.mp hev)
        exact ⟨hret, .inl hself⟩
  · rw [hs] at hput
    obtain ⟨rfl, rfl⟩ := Prod.mk.inj (Option.some.inj hput)
    have hfull := hfulliff.mp hs
    have hsafe : PlaceHarmless m obj := by
      refine ⟨fun _ _ hadds => absurd hadds hnadds, fun _ hstores => ?_⟩
      exact absurd hfull (hstores.resolve_left hnadds).2
    exact ⟨h, fun _ _ => ⟨rfl, hfull⟩, fun hnot => absurd hsafe hnot⟩

/-! ## 3. Maps without policy -/

/-- A map without policy between resizes.  It may count more objects than it holds, since a clear
leaves the counter alone. -/
structure Plenty (opts : Opts κ β) (m : Hmap κ β) : Prop extends Sizes opts m where
  roomy : Roomy m m.sz
  length_le : (stored m).length ≤ m.sz

/-- A map without policy that counts its objects right has room for one more. -/
theorem Tally.plenty (h : Tally opts 0 m) (hpol : opts.policy = .none) : Plenty opts m :=
  ⟨(h.sizes hpol).1, (h.sizes hpol).2, h.length.le⟩

theorem Plenty.policy_none (hp : Plenty opts m) : m.opts.policy = .none := by
  rw [hp.opts_eq]
  exact hp.policy

/-- Its maximum is positive. -/
theorem Plenty.max_pos (hp : Plenty opts m) : 0 < opts.max := by
  have hready := hp.ready
  rw [hp.opts_eq] at hready
  simp only [optsCheck, Bool.and_eq_true, decide_eq_true_eq] at hready
  exact Nat.pos_of_ne_zero hready.1.2

/-- With the right count. -/
theorem Plenty.tally (hp : Plenty opts m) (h : Held n opts m) :
    Tally opts 0 { m with sz := (stored m).length } := by
  have hroomy := hp.roomy
  have hlen := hp.length_le
  have hthr := hp.threshold_eq
  have hsize := hp.size_le
  unfold Roomy at hroomy
  refine ⟨h.toTable.of_buckets rfl rfl rfl, h.opts_eq, hp.max_pos, rfl, ?_,
    fun _ => ⟨⟨hp.opts_eq, hp.policy, hp.ready, hp.threshold_eq, hp.size_ge, hp.size_le,
      hp.opts_size, hp.px_prime⟩, ?_⟩⟩
  · change (stored m).length + 0 < 2 ^ 63
    omega
  · exact hp.roomy.mono hlen

/-- The probe ends before it has seen all slots. -/
theorem Plenty.not_full (hp : Plenty opts m) (h : Held n opts m)
    (hle : m.sz ≤ m.threshold) (k : κ) : ¬ Passes m k (m.size - 1) := by
  intro hfull
  have hlen := length_stored_of_full h.toTable hfull
  have hthr := hp.threshold_eq
  have hge := hp.size_ge
  have hsz := hp.length_le
  omega

/-- Other objects in the buckets, and as many counted as are stored. -/
theorem Plenty.kept (hp : Plenty opts m) (hk : Kept m m') (hroomy : Roomy m m'.sz)
    (hlen : (stored m').length ≤ m'.sz) : Plenty opts m' :=
  ⟨hp.toSizes.kept hk, hroomy.kept hk, hlen⟩

/-- A put with room for one more object goes through, or its key is refused. -/
theorem Plenty.putPlace (hp : Plenty opts m) (h : Held n opts m) {obj : Obj κ β} {res : Res κ β}
    (hroom : Roomy m (m.sz + 1)) (hput : m.putPlace obj = some (res, m')) :
    Plenty opts m' ∧ res.ret ≠ .errFail := by
  have hpol := hp.policy_none
  have hthr := hp.threshold_eq
  have hsize := hp.size_le
  have hle := hp.length_le
  have hbound : m.sz ≤ m.threshold ∧ m.sz + 1 < 2 ^ 64 := by
    unfold Roomy at hroom
    omega
  unfold Hmap.putPlace at hput
  rcases scan_spec h.toTable obj.key with
    ⟨l, hs, hl, hk, -⟩ | ⟨i, before, after, hs, hr, -⟩ | ⟨-, -, -, hfull⟩
  · rw [hs] at hput
    obtain ⟨rest, hall, -, hrepl⟩ := hl.exists_rest
    have hlen : (stored (m.setBucket l.idx (l.before ++ obj :: l.after))).length ≤ m.sz := by
      rw [(hrepl obj).length_eq, List.length_cons, ← List.length_cons
        (a := l.obj), ← hall.length_eq]
      exact hle
    simp only [Option.bind_eq_bind, Option.bind_some, Hmap.oOverwrite, hpol, opPut,
      Bool.false_eq_true, if_false] at hput
    split at hput
    · split at hput
      · obtain ⟨rfl, rfl⟩ := Prod.mk.inj (Option.some.inj hput)
        exact ⟨hp.kept ⟨rfl, rfl, rfl, rfl⟩ hp.roomy hle, by simp⟩
      · obtain ⟨rfl, rfl⟩ := Prod.mk.inj (Option.some.inj hput)
        exact ⟨hp, by simp⟩
    · rw [dispose_eq] at hput
      obtain ⟨rfl, rfl⟩ := Prod.mk.inj (Option.some.inj hput)
      exact ⟨hp.kept ⟨rfl, rfl, rfl, rfl⟩ hp.roomy hlen, by simp⟩
  · rw [hs] at hput
    have hlen : (stored ((m.setBucket i (before ++ obj :: after)).setPqe obj.ptr obj.pqe)).length ≤
      m.sz + 1 := by
      rw [stored_setPqe, List.length_map, (stored_link hr.idx_lt hr.eq obj).length_eq,
        List.length_cons]
      exact Nat.succ_le_succ hle
    have hadd : SizeT.add m.sz 1 = m.sz + 1 := SizeT.add_of_lt hbound.2
    have heq : (m.setBucket i (before ++ obj :: after)).putEnd obj = some (⟨.errNone, none⟩,
        { (m.setBucket i (before ++ obj :: after)).setPqe obj.ptr obj.pqe with
          sz := m.sz + 1 }) := by
      rw [← hadd]
      simp [Hmap.putEnd, Hmap.putCount, hpol, opPut, Hmap.setPqe, setBucket]
    obtain ⟨rfl, rfl⟩ := Prod.mk.inj (Option.some.inj (heq.symm.trans hput))
    exact ⟨hp.kept ⟨rfl, rfl, rfl, rfl⟩ hroom hlen, by simp⟩
  · exact absurd hfull (hp.not_full h hbound.1 obj.key)

/-! ## 4. Resizes -/

section Copy

variable {put : Hmap κ β → Obj κ β → Option (Res κ β × Hmap κ β)} {P Q : Hmap κ β → Prop}

/-- The inner loop of a copy keeps what its puts keep, of which the last one may fail. -/
theorem copyBucket_keeps
    (hput : ∀ {dst dst' obj res}, P dst → obj.ptr < n → put dst obj = some (res, dst') →
      Q dst' ∧ (res.ret = .errNone → P dst')) (i : Nat) (l : List (Obj κ β)) :
    ∀ {dst src dst' src' : Hmap κ β} {ok : Bool}, P dst → (∀ o ∈ l, o.ptr < n) →
      l ⊆ src.buckets i → copyBucket put i l dst src = some (ok, dst', src') →
      (if ok then P dst' else Q dst') ∧ (∀ j, src'.buckets j ⊆ src.buckets j) ∧
      src'.opts = src.opts := by
  induction l with
  | nil =>
    intro dst src dst' src' ok h _ _ hcopy
    obtain ⟨rfl, rfl, rfl⟩ : true = ok ∧ dst = dst' ∧ src =
      src' := by simpa [copyBucket] using hcopy
    exact ⟨h, fun j => List.Subset.refl _, rfl⟩
  | cons obj l ih =>
    intro dst src dst' src' ok h hptr hsub hcopy
    obtain ⟨hobj, hl⟩ := List.forall_mem_cons.mp hptr
    obtain ⟨⟨res, dst₁⟩, hput₁, hcopy⟩ := Option.bind_eq_some_iff.mp hcopy
    obtain ⟨h₁', h₁⟩ := hput h hobj hput₁
    have hsrc : ∀ j, (src.setBucket i l).buckets j ⊆ src.buckets j := by
      intro j
      by_cases hj : j = i
      · subst hj
        rw [setBucket_self]
        exact fun o ho => hsub (List.mem_cons_of_mem _ ho)
      · rw [setBucket_of_ne hj]
        exact List.Subset.refl _
    dsimp only at hcopy
    split at hcopy
    · obtain ⟨rfl, rfl, rfl⟩ : false = ok ∧ dst₁ = dst' ∧ src.setBucket i l = src' := by
        simpa using hcopy
      exact ⟨h₁', hsrc, rfl⟩
    · next hret =>
      obtain ⟨h', hsrc', hopts⟩ := ih (h₁ (not_not.mp hret)) hl
        (by rw [setBucket_self]; exact List.Subset.refl _) hcopy
      exact ⟨h', fun j => List.Subset.trans (hsrc' j) (hsrc j), hopts⟩

/-- The outer loop. -/
theorem copyBuckets_keeps
    (hput : ∀ {dst dst' obj res}, P dst → obj.ptr < n → put dst obj = some (res, dst') →
      Q dst' ∧ (res.ret = .errNone → P dst')) (is : List Nat) :
    ∀ {dst src dst' src' : Hmap κ β} {ok : Bool}, P dst →
      (∀ i ∈ is, ∀ o ∈ src.buckets i, o.ptr < n) →
      copyBuckets put is dst src = some (ok, dst', src') →
      (if ok then P dst' else Q dst') ∧ src'.opts = src.opts := by
  induction is with
  | nil =>
    intro dst src dst' src' ok h _ hcopy
    obtain ⟨rfl, rfl, rfl⟩ : true = ok ∧ dst = dst' ∧ src =
      src' := by simpa [copyBuckets] using hcopy
    exact ⟨h, rfl⟩
  | cons i is ih =>
    intro dst src dst' src' ok h hptr hcopy
    obtain ⟨hi, his⟩ := List.forall_mem_cons.mp hptr
    obtain ⟨⟨ok₁, dst₁, src₁⟩, hcopy₁, hcopy⟩ := Option.bind_eq_some_iff.mp hcopy
    obtain ⟨h₁, hsrc, hopts⟩ := copyBucket_keeps hput i _ h hi (List.Subset.refl _) hcopy₁
    cases ok₁ with
    | false =>
      obtain ⟨rfl, rfl, rfl⟩ : false = ok ∧ dst₁ = dst' ∧ src₁ = src' := by simpa using hcopy
      exact ⟨h₁, hopts⟩
    | true =>
      obtain ⟨h', hopts'⟩ := ih h₁ (fun j hj o ho => his j hj o (hsrc j ho)) hcopy
      exact ⟨h', hopts'.trans hopts⟩

/-- The puts of a copy do not resize. -/
theorem putAt_held (mem : Mem) {dst dst' : Hmap κ β} {obj : Obj κ β}
    {res : Res κ β} (h : Held n opts dst) (hptr : obj.ptr < n)
    (hput : putAt mem 0 dst obj = some (res, dst')) : Held n opts dst' := by
  unfold putAt putWith at hput
  split at hput
  · cases hput
  · exact (h.putPlace hptr hput).1

/-- A copy that is not refused an object has put them all, and has met no key twice. -/
theorem copyBucket_true (hno : opts.noOverwrite = true) (hnr : NoResize put) (i r : Nat)
    (l : List (Obj κ β)) : ∀ {dst src dst' src' : Hmap κ β}, Plain opts dst → Compact dst →
    dst.sz + (l.length + r) ≤ dst.threshold → copyBucket put i l dst src = some (true, dst', src') →
    Filled opts dst (l.map Obj.toHo) dst' ∧ ∀ j ≠ i, src'.buckets j = src.buckets j := by
  induction l with
  | nil =>
    intro dst src dst' src' h hc _ hcopy
    obtain ⟨rfl, rfl⟩ : dst = dst' ∧ src = src' := by simpa [copyBucket] using hcopy
    exact ⟨⟨h, hc, ⟨rfl, rfl, rfl, rfl⟩, List.Perm.refl _⟩, fun _ _ => rfl⟩
  | cons obj l ih =>
    intro dst src dst' src' h hc hroom hcopy
    rw [List.length_cons] at hroom
    have hlt : dst.sz < dst.threshold := by omega
    rw [copyBucket, hnr dst obj hlt] at hcopy
    by_cases hk : Has dst obj.key
    · -- the key is there, and is not overwritten
      obtain ⟨res, m₁, hput, -, hdone, -⟩ := putPlace_spec h obj (Or.inl hlt) (hc obj.key)
      rw [hput] at hcopy
      cases hdone with
      | added hnot => exact absurd (mem_keys_hos.mpr hk) hnot
      | refused => simp at hcopy
      | replaced _ _ hover =>
        rw [hno] at hover
        cases hover
    · obtain ⟨dst₁, hput, hlink⟩ := putPlace_absent h hk hlt.le
      have h₁ := h.linked hlink hk (Or.inl hlt)
      rw [hput] at hcopy
      have hroom₁ : dst₁.sz + (l.length + r) ≤ dst₁.threshold := by
        rw [hlink.sz, hlink.kept.threshold]
        omega
      obtain ⟨hfill, hsrc⟩ := ih h₁ (hlink.compact hc) hroom₁ (by simpa using hcopy)
      have hone : Filled opts dst [obj.toHo] dst₁ := ⟨h₁, hlink.compact hc, hlink.kept, hlink.perm⟩
      refine ⟨hone.cons hfill, fun j hj => ?_⟩
      rw [hsrc j hj, setBucket_of_ne hj]

theorem copyBuckets_true (hno : opts.noOverwrite = true) (hnr : NoResize put) (is : List Nat) :
    ∀ {dst src dst' src' : Hmap κ β}, is.Nodup → Plain opts dst → Compact dst →
    dst.sz + (is.flatMap src.buckets).length ≤ dst.threshold →
    copyBuckets put is dst src = some (true, dst', src') →
    Filled opts dst ((is.flatMap src.buckets).map Obj.toHo) dst' := by
  induction is with
  | nil =>
    intro dst src dst' src' _ h hc _ hcopy
    obtain ⟨rfl, -⟩ : dst = dst' ∧ src = src' := by simpa [copyBuckets] using hcopy
    exact ⟨h, hc, ⟨rfl, rfl, rfl, rfl⟩, List.Perm.refl _⟩
  | cons i is ih =>
    intro dst src dst' src' hnd h hc hroom hcopy
    rw [List.flatMap_cons, List.length_append] at hroom
    rw [List.flatMap_cons, List.map_append]
    obtain ⟨hi, his⟩ := List.nodup_cons.mp hnd
    obtain ⟨⟨ok, dst₁, src₁⟩, hcopy₁, hcopy⟩ := Option.bind_eq_some_iff.mp hcopy
    cases ok with
    | false => simp at hcopy
    | true =>
      obtain ⟨hfill, hsrc⟩ := copyBucket_true hno hnr i _ _ h hc hroom hcopy₁
      have hsame : is.flatMap src₁.buckets = is.flatMap src.buckets := by
        refine List.flatMap_congr ?_
        intro j hj
        exact hsrc j (fun hji => hi (hji ▸ hj))
      have hroom₁ : dst₁.sz + (is.flatMap src₁.buckets).length ≤ dst₁.threshold := by
        rw [hsame, hfill.sz h, hfill.kept.threshold, List.length_map]
        omega
      have hfill₁ := ih his hfill.plain hfill.compact hroom₁ (by simpa using hcopy)
      rw [hsame] at hfill₁
      refine ⟨hfill₁.plain, hfill₁.compact, hfill.kept.trans hfill₁.kept, ?_⟩
      refine (hfill₁.perm.trans (hfill.perm.append_left _)).trans ?_
      rw [← List.append_assoc]
      exact List.perm_append_comm.append_right _

end Copy

/-- A resize that gets no memory or finds no larger prime changes nothing that is seen. -/
theorem Plenty.resize_stops (hp : Plenty opts m) {mem : Mem}
    (hstops : mem ≠ .ok ∨ 2147483647 < 3 * m.opts.size)
    (put : Hmap κ β → Obj κ β → Option (Res κ β × Hmap κ β)) :
    ∃ px, resize put mem m = some (false, { m with px }) ∧ Plenty opts { m with px } := by
  have hpol : ¬ m.opts.policy ≠ .none := not_not.mpr hp.policy_none
  have hsize := hp.opts_size
  have hle := hp.size_le
  have hmod : 3 * m.opts.size % 2 ^ 64 = 3 * m.opts.size := Nat.mod_eq_of_lt (by omega)
  obtain ⟨q, hq, hmq⟩ := hp.px_prime
  by_cases hmem : mem = .noOpts
  · exact ⟨m.px, by rw [resize, if_neg hpol, if_pos hmem], hp⟩
  cases hprime : nextPrime (3 * m.opts.size) m.px with
  | none => exact ⟨m.px, by rw [resize, if_neg hpol, if_neg hmem, hmod, hprime], hp⟩
  | some p =>
    obtain ⟨size, px⟩ := p
    obtain ⟨hge, hpx, hget⟩ := nextPrime_some hprime
    have hlast := (primes_bounds size (List.mem_of_getElem? hget)).2
    have hmap : mem = .noMap := by
      cases mem with
      | ok =>
        rcases hstops with hbad | hbig
        · exact absurd rfl hbad
        · omega
      | noOpts => exact absurd rfl hmem
      | noMap => rfl
    refine ⟨px, ?_, ⟨⟨hp.opts_eq, hp.policy, hp.ready, hp.threshold_eq, hp.size_ge, hp.size_le,
      hp.opts_size, size, hget, hmq.trans (primes_mono hpx hq hget)⟩, hp.roomy, hp.length_le⟩⟩
    rw [resize, if_neg hpol, if_neg hmem, hmod, hprime]
    exact if_pos hmap

/-- The new map of a resize, and the copy to it. -/
structure Copies (n : Nat) (opts : Opts κ β) (m : Hmap κ β) (newmap src : Hmap κ β) : Prop where
  takes : Takes opts (stored m).length newmap
  held : Held n opts newmap
  compact : Compact newmap
  empty : hos newmap = []
  opts_size : newmap.opts.size = newmap.size
  buckets : src.buckets = m.buckets
  noOverwrite : src.opts.noOverwrite = false

theorem Plenty.resize_copies (hp : Plenty opts m) (h : Held n opts m)
    (hgoes : 3 * m.opts.size ≤ 2147483647) :
    ∃ newmap src, Copies n opts m newmap src ∧ newmap.freed = m.freed ∧
      ∀ put, resize put .ok m = (copyBuckets put (List.range m.size) newmap src).map fun p =>
        if p.1 then (true, p.2.1) else (false,
          { p.2.2 with brk := p.2.1.brk, freed := p.2.1.freed }) := by
  have hpol : ¬ m.opts.policy ≠ .none := not_not.mpr hp.policy_none
  have hsize := hp.opts_size
  have hle := hp.size_le
  have hready := hp.ready
  simp only [optsCheck, Bool.and_eq_true, decide_eq_true_eq] at hready
  have hpos := hready.1.1
  have hmod : 3 * m.opts.size % 2 ^ 64 = 3 * m.opts.size := Nat.mod_eq_of_lt (by omega)
  obtain ⟨q, hq, hmq⟩ := hp.px_prime
  cases hprime : nextPrime (3 * m.opts.size) m.px with
  | none =>
    have hlt := nextPrime_none (by omega) hq hprime
    omega
  | some p =>
    obtain ⟨size, px⟩ := p
    obtain ⟨hge, hpx, hget⟩ := nextPrime_some hprime
    have hgrow : m.size ≤ size := hmq.trans (primes_mono hpx hq hget)
    obtain ⟨newmap, hnew, htakes, hopts⟩ := new_takes (hp.tally h) hp.policy hge hgrow hget
    obtain ⟨-, hcompact, hempty, -, -⟩ := new_plain (h.lawful.resized size) hp.policy_none hnew
    obtain ⟨-, hbrk, hfreed⟩ := new_heap hnew
    have hstored : stored newmap = [] := List.map_eq_nil_iff.mp hempty
    refine ⟨newmap, { m with
      px
      opts := { m.opts with ownsData := false, noOverwrite := false, hashStrong := false } },
      ⟨htakes, ⟨htakes.toTable, htakes.opts_eq, ?_, ?_⟩, hcompact, hempty, hopts, rfl, rfl⟩,
        hfreed, fun put => ?_⟩
    · rw [hbrk]
      exact h.brk
    · rw [hstored]
      simp
    · rw [resize, if_neg hpol, if_neg (by decide), hmod, hprime]
      dsimp only
      rw [if_neg (by decide), hnew]
      dsimp only
      rw [copy]
      dsimp only
      generalize copyBuckets put (List.range m.size) newmap _ = c
      rcases c with _ | ⟨ok, dst, src⟩
      · rfl
      · cases ok <;> rfl

/-- The copy goes through all that is stored, bucket by bucket. -/
theorem Copies.stored_src {newmap src : Hmap κ β} (hc : Copies n opts m newmap src) :
    (List.range m.size).flatMap src.buckets = stored m := by
  rw [hc.buckets, stored]

/-- The new map is one without policy, and empty. -/
theorem Copies.plain {newmap src : Hmap κ β} (hc : Copies n opts m newmap src)
    (hpol : opts.policy = .none) : Plain opts newmap := by
  refine hc.takes.toTally.plain hpol ?_
  rw [hc.empty]
  exact List.nodup_nil

theorem Copies.copied {newmap src dst src' : Hmap κ β} (hc : Copies n opts m newmap src)
    (h : Held n opts m) {ok : Bool}
    (hcopy : copyBuckets (putAt .ok 0) (List.range m.size) newmap src = some (ok, dst, src')) :
    Held n opts dst ∧ src'.opts = src.opts := by
  have hkeeps := copyBuckets_keeps (P := Held n opts) (Q := Held n opts)
    (fun h hptr hput => ⟨putAt_held .ok h hptr hput, fun _ => putAt_held .ok h hptr hput⟩)
    (List.range m.size) hc.held ?_ hcopy
  · rwa [ite_self] at hkeeps
  · intro i hi o ho
    rw [hc.buckets] at ho
    exact h.ptr o (mem_stored.mpr ⟨i, List.mem_range.mp hi, ho⟩)

/-- **A resize that is not refused an object makes room for one more.** -/
theorem Plenty.resized (hp : Plenty opts m) (h : Held n opts m)
    (hgoes : 3 * m.opts.size ≤ 2147483647)
    (hsafe : opts.noOverwrite = true → Distinct (hos m)) :
    ∃ dst, resize (putAt .ok 0) .ok m = some (true, dst) ∧ Held n opts dst ∧ Plenty opts dst ∧
      Roomy dst (dst.sz + 1) := by
  obtain ⟨newmap, src, hc, -, hres⟩ := hp.resize_copies h hgoes
  have hpol := hp.policy
  have hflat := hc.stored_src
  have hdst : ∃ dst src', copyBuckets (putAt .ok 0) (List.range m.size) newmap src =
    some (true, dst, src') ∧
      Tally opts 0 dst ∧ Kept newmap dst ∧ dst.sz ≤ dst.threshold := by
    cases hno : opts.noOverwrite with
    | false =>
      have htakes := hc.takes
      rw [← hflat] at htakes
      obtain ⟨dst, src', hcopy, hdst⟩ := copyBuckets_takes hpol hno _ src List.nodup_range htakes
      exact ⟨dst, src', hcopy _ (putAt_noResize .ok 0), hdst⟩
    | true =>
      have hplain := hc.plain hpol
      have hfits : Fits opts newmap (((List.range m.size).flatMap src.buckets).map Obj.toHo) := by
        refine ⟨hplain, hc.compact, ?_, ?_⟩
        · rw [hflat, List.length_map]
          exact hc.takes.room
        · rw [hflat, hc.empty, List.append_nil]
          exact hsafe hno
      obtain ⟨dst, src', hcopy, hfill⟩ := copyBuckets_spec _ src List.nodup_range hfits
      refine ⟨dst, src', hcopy _ (putAt_noResize .ok 0), hfill.plain.tally, hfill.kept, ?_⟩
      have hroom := hfits.room
      rw [hfill.sz hplain, hfill.kept.threshold]
      omega
  obtain ⟨dst, src', hcopy, htally, hkept, hle⟩ := hdst
  refine ⟨dst, ?_, (hc.copied h hcopy).1, htally.plenty hpol,
    Or.inr ⟨?_, Nat.succ_le_succ hle⟩⟩
  · rw [hres, hcopy]
    rfl
  · rw [hkept.opts, hkept.size, hc.opts_size]

/-- **A resize that meets a key twice, and may not overwrite, fails** with the options cleared. -/
theorem Plenty.refused (hp : Plenty opts m) (h : Held n opts m)
    (hgoes : 3 * m.opts.size ≤ 2147483647) (hno : opts.noOverwrite = true)
    (hnd : ¬ Distinct (hos m)) {ok : Bool} (hres : resize (putAt .ok 0) .ok m = some (ok, m')) :
    ok = false ∧ m'.opts.noOverwrite = false := by
  obtain ⟨newmap, src, hc, -, heq⟩ := hp.resize_copies h hgoes
  have hpol := hp.policy
  have hflat := hc.stored_src
  rw [heq] at hres
  obtain ⟨⟨ok', dst, src'⟩, hcopy, hend⟩ := Option.map_eq_some_iff.mp hres
  cases ok' with
  | true =>
    refine absurd ?_ hnd
    have hfill := copyBuckets_true hno (putAt_noResize .ok 0) _ List.nodup_range
      (hc.plain hpol) hc.compact
      (by rw [hflat]; exact hc.takes.room) hcopy
    have hperm := hfill.perm
    rw [hflat, hc.empty, List.append_nil] at hperm
    exact hfill.plain.distinct.perm hperm
  | false =>
    obtain ⟨rfl, rfl⟩ := Prod.mk.inj hend
    refine ⟨rfl, ?_⟩
    change src'.opts.noOverwrite = false
    rw [(hc.copied h hcopy).2, hc.noOverwrite]

/-! ## 5. Calls and runs -/

/-- **The invariant of runs in which failed puts are harmless.** -/
structure Live (opts : Opts κ β) (m : Hmap κ β) : Prop where
  held : Held m.brk opts m
  plenty : opts.policy = .none → Plenty opts m

/-- What is held between two calls. -/
theorem Held.live (h : Held n opts m) (hp : opts.policy = .none → Plenty opts m) : Live opts m :=
  ⟨⟨h.toTable, h.opts_eq, le_refl m.brk, fun o ho => lt_of_lt_of_le (h.ptr o ho) h.brk⟩, hp⟩

/-- A new map is live. -/
theorem new_live (hl : Lawful opts) {brk : Nat} {freed : List (Ho κ β)} {avail : Nat → QMem}
    (hnew : new opts brk freed avail = some m) : Live opts m := by
  have htally := new_tally hl hnew
  refine ⟨⟨htally.toTable, htally.opts_eq, le_refl m.brk, ?_⟩, htally.plenty⟩
  rw [(new_heap hnew).1]
  simp

/-- Nothing has changed that the map holds. -/
structure Unharmed (m m' : Hmap κ β) : Prop where
  opts : m'.opts = m.opts
  size : m'.size = m.size
  sz : m'.sz = m.sz
  buckets : m'.buckets = m.buckets
  queue : m'.queue = m.queue

/-- A put of the object at the address `ptr` that returns `U_HMAP_ERR_FAIL` has left the map as it
was, and its object is not stored. -/
def Harmless (m : Hmap κ β) (ptr : Nat) (res : Res κ β) (m' : Hmap κ β) : Prop :=
  res.ret = .errFail → Unharmed m m' ∧ ∀ o ∈ stored m', o.ptr ≠ ptr

/-- Every call is harmless that is a put, of a new object or of one that has been put before. -/
def FailHarmless (m : Hmap κ β) : Op κ β → Res κ β → Hmap κ β → Prop
  | .map (.cache (.put k v _)), res, m' => Harmless m (m.oNew k v).1.ptr res m'
  | .again obj _, res, m' => Harmless m obj.ptr res m'
  | _, _, _ => True

/-- What a put must find so that it is harmless if it fails: with a policy, `PlaceHarmless`; and if
a resize is due, no key twice that may not be overwritten, or a resize that fails before its
copy. -/
structure PutHarmless (m : Hmap κ β) (obj : Obj κ β) (mem : Mem) : Prop
    extends PlaceHarmless m obj where
  resize : m.opts.policy = .none → m.threshold ≤ m.sz → m.opts.noOverwrite = true →
    Distinct (hos m) ∨ ResizeFails m mem

/-- When a call is harmless if it is a put and fails. -/
def FailSafe (m : Hmap κ β) : Op κ β → Prop
  | .map (.cache (.put k v mem)) => PutHarmless (m.oNew k v).2 (m.oNew k v).1 mem
  | .again obj mem => PutHarmless m obj mem
  | _ => True

theorem Live.oNew (h : Live opts m) (k : κ) (v : β) : Live opts (m.oNew k v).2 :=
  ⟨⟨h.held.toTable.of_buckets rfl rfl rfl, h.held.opts_eq, le_refl _,
    fun o ho => Nat.lt_succ_of_lt (h.held.ptr o ho)⟩,
    fun hpol => (h.plenty hpol).kept ⟨rfl, rfl, rfl, rfl⟩ (h.plenty hpol).roomy
    (h.plenty hpol).length_le⟩

/-- A put into a map without policy either is refused its resize, which changes no more than the
place in the list of primes, or comes to a put into a map that has room. -/
theorem Live.put_cases (h : Live opts m) (hpol : opts.policy = .none) (obj : Obj κ β) {mem : Mem}
    (hsafe : m.threshold ≤ m.sz → m.opts.noOverwrite = true →
      Distinct (hos m) ∨ ResizeFails m mem) :
    (∃ px, m.put obj mem = some (⟨.errFail, none⟩, { m with px }) ∧ Live opts { m with px }) ∨
      ∃ dst, m.put obj mem = dst.putPlace obj ∧ Held m.brk opts dst ∧ Plenty opts dst ∧
        Roomy dst (dst.sz + 1) := by
  have hp := h.plenty hpol
  unfold Hmap.put putAt putWith
  by_cases hfull : m.threshold ≤ m.sz
  · rw [if_pos ⟨hfull, hp.policy_none⟩]
    by_cases hstops : mem ≠ .ok ∨ 2147483647 < 3 * m.opts.size
    · obtain ⟨px, hres, hp'⟩ := hp.resize_stops hstops (putAt mem 0)
      rw [hres]
      exact .inl ⟨px, rfl, (h.held.prime px).live fun _ => hp'⟩
    · obtain ⟨rfl, hgoes⟩ : mem = .ok ∧ 3 * m.opts.size ≤ 2147483647 := by
        simpa [not_or, Nat.not_lt] using hstops
      have hdistinct : opts.noOverwrite = true → Distinct (hos m) := by
        intro hno
        have hnom : m.opts.noOverwrite = true := by rw [h.held.opts_eq]; exact hno
        exact (hsafe hfull hnom).resolve_right fun hf => hstops hf.2
      obtain ⟨dst, hres, hdst, hpdst, hroom⟩ := hp.resized h.held hgoes hdistinct
      rw [hres]
      exact .inr ⟨dst, rfl, hdst, hpdst, hroom⟩
  · rw [if_neg fun hcond => hfull hcond.1]
    exact .inr ⟨m, rfl, h.held, hp, .inl (Nat.not_le.mp hfull)⟩

/-- **One put is harmless** under its condition. -/
theorem Live.put (h : Live opts m) {obj : Obj κ β} (hlt : obj.ptr < m.brk) {mem : Mem}
    (hsafe : PutHarmless m obj mem) {res : Res κ β} (hst : m.put obj mem = some (res, m')) :
    (res.ret = .errFail → Unharmed m m') ∧ Live opts m' := by
  have hheld := h.held
  by_cases hpol : opts.policy = .none
  · have hresize := hsafe.resize (hheld.policy.trans hpol)
    rcases h.put_cases hpol obj hresize with ⟨px, hput, h'⟩ | ⟨dst, hput, hdst, hpdst, hroom⟩
    · rw [hput] at hst
      obtain ⟨rfl, rfl⟩ := Prod.mk.inj (Option.some.inj hst)
      exact ⟨fun _ => ⟨rfl, rfl, rfl, rfl, rfl⟩, h'⟩
    · rw [hput] at hst
      obtain ⟨hp', hret⟩ := hpdst.putPlace hdst hroom hst
      exact ⟨fun hfail => absurd hfail hret, (hdst.putPlace hlt hst).1.live fun _ => hp'⟩
  · rw [put_of_policy fun hp => hpol (hheld.policy.symm.trans hp)] at hst
    obtain ⟨h', hfail, -⟩ := hheld.putPlace hlt hst
    refine ⟨fun hret => ?_, h'.live fun hp => absurd hp hpol⟩
    obtain ⟨rfl, -⟩ := hfail hsafe.toPlaceHarmless hret
    exact ⟨rfl, rfl, rfl, rfl, rfl⟩

/-- **Without its condition a put fails, and is not harmless.** -/
theorem Live.put_harms (h : Live opts m) {obj : Obj κ β} (hlt : obj.ptr < m.brk) {mem : Mem}
    (hharm : ¬ PutHarmless m obj mem) {res : Res κ β} (hst : m.put obj mem = some (res, m')) :
    ¬ Harmless m obj.ptr res m' := by
  have hheld := h.held
  unfold Hmap.put putAt putWith at hst
  by_cases hpol : opts.policy = .none
  · -- the copy of the resize is refused an object, and the options stay cleared
    have hp := h.plenty hpol
    have hpolm : m.opts.policy = .none := hp.policy_none
    obtain ⟨hfull, hno, hnd, hgoes⟩ : m.threshold ≤ m.sz ∧ m.opts.noOverwrite = true ∧
        ¬ Distinct (hos m) ∧ ¬ ResizeFails m mem := by
      by_contra hnot
      refine hharm ⟨⟨fun hne => absurd hpolm hne, fun hne => absurd hpolm hne⟩,
        fun _ hfull hno => ?_⟩
      by_contra hor
      exact hnot ⟨hfull, hno, not_or.mp hor⟩
    obtain ⟨rfl, hle⟩ : mem = .ok ∧ 3 * m.opts.size ≤ 2147483647 := by
      have hstops : ¬ (mem ≠ .ok ∨ 2147483647 < 3 * m.opts.size) := fun hs => hgoes ⟨hfull, hs⟩
      simpa [not_or, Nat.not_lt] using hstops
    have hnoopts : opts.noOverwrite = true := by rw [hheld.opts_eq] at hno; exact hno
    rw [if_pos ⟨hfull, hpolm⟩] at hst
    obtain ⟨⟨ok, m₂⟩, hres, hend⟩ := Option.bind_eq_some_iff.mp hst
    obtain ⟨rfl, hcleared⟩ := hp.refused hheld hle hnoopts hnd hres
    obtain ⟨rfl, rfl⟩ := Prod.mk.inj (Option.some.inj hend)
    intro hharmless
    rw [(hharmless rfl).1.opts, hno] at hcleared
    cases hcleared
  · have hpolm : m.opts.policy ≠ .none := fun hp => hpol (hheld.policy.symm.trans hp)
    have hplace : ¬ PlaceHarmless m obj := fun hplace =>
      hharm ⟨hplace, fun hp => absurd hp hpolm⟩
    rw [if_neg fun hcond => hpolm hcond.2] at hst
    obtain ⟨-, -, hfail⟩ := hheld.putPlace hlt hst
    obtain ⟨hret, hwhat⟩ := hfail hplace
    intro hharmless
    obtain ⟨hun, hnot⟩ := hharmless hret
    rcases hwhat with ⟨o, ho, hptr⟩ | hsz | hbuckets
    · exact hnot o ho hptr
    · exact hsz hun.sz
    · exact hbuckets hun.buckets

/-- A get keeps a map live. -/
theorem Live.get (h : Live opts m) {k : κ} {res : Res κ β} (hget : m.get k = some (res, m')) :
    Live opts m' := by
  rcases find_spec h.held.toTable k with ⟨l, hfind, hl, rfl, -⟩ | ⟨hfind, -⟩
  · unfold Hmap.get at hget
    rw [hfind] at hget
    simp only [Option.bind_eq_bind, Option.bind_some] at hget
    split at hget
    · next hop =>
      have hpol : opts.policy ≠ .none := by
        intro hp
        rw [h.held.policy, hp] at hop
        cases hop
      obtain ⟨⟨ret, pqe, m₁⟩, hpush, hget⟩ := Option.bind_eq_some_iff.mp hget
      obtain ⟨-, rfl⟩ := Prod.mk.inj (Option.some.inj hget)
      obtain ⟨hb, -⟩ := push_beside hpush
      have hl₁ : At m₁ l := ⟨hb.size ▸ hl.idx_lt, hb.buckets ▸ hl.eq⟩
      have hptr := h.held.ptr l.obj hl.mem
      have h₁ : Held m.brk opts (m₁.setBucket l.idx (l.before ++ { l.obj with pqe } :: l.after)) :=
        (h.held.push hpush).replace hl₁ rfl hptr
      exact h₁.live fun hp => absurd hp hpol
    · obtain ⟨-, rfl⟩ := Prod.mk.inj (Option.some.inj hget)
      exact h
  · unfold Hmap.get at hget
    rw [hfind] at hget
    obtain ⟨-, rfl⟩ := Prod.mk.inj (Option.some.inj hget)
    exact h

/-- A delete keeps a map live. -/
theorem Live.del (h : Live opts m) {k : κ} {res : Res κ β} (hdel : m.del k = some (res, m')) :
    Live opts m' := by
  obtain ⟨h', -, -, -, hsame⟩ := h.held.del hdel
  refine h'.live fun hpol => ?_
  have hp := h.plenty hpol
  rcases find_spec h.held.toTable k with ⟨l, hfind, hl, rfl, -⟩ | ⟨-, hnot⟩
  · obtain ⟨rest, hall, hrem, -⟩ := hl.exists_rest
    have hle := hp.length_le
    have hthr := hp.threshold_eq
    have hsize := hp.size_le
    have hroomy := hp.roomy
    rw [hall.length_eq, List.length_cons] at hle
    have hsub : SizeT.sub m.sz 1 = m.sz - 1 := by
      unfold Roomy at hroomy
      exact SizeT.sub_of_le (by omega) (by omega)
    rw [del_of_find hfind, hsub] at hdel
    obtain ⟨-, rfl⟩ := Prod.mk.inj (Option.some.inj hdel)
    refine hp.kept ⟨rfl, rfl, rfl, rfl⟩ (hroomy.mono (Nat.sub_le m.sz 1)) ?_
    change (stored (m.setBucket l.idx (l.before ++ l.after))).length ≤ m.sz - 1
    rw [hrem.length_eq]
    omega
  · obtain ⟨-, rfl⟩ := hsame hnot
    exact hp

/-- A clear keeps a map live. -/
theorem Live.clear (h : Live opts m) : Live opts m.clear := by
  have hempty : ∀ i < m.size, m.clear.buckets i = [] := fun i hi => if_pos hi
  have hstored : stored m.clear = [] :=
    List.flatMap_eq_nil_iff.mpr fun i hi => hempty i (List.mem_range.mp hi)
  refine ⟨⟨table_of_empty h.held.lawful h.held.size_pos hempty, h.held.opts_eq, le_refl _,
    ?_⟩, fun hpol => ?_⟩
  · rw [hstored]
    simp
  · refine (h.plenty hpol).kept ⟨rfl, rfl, rfl, rfl⟩ (h.plenty hpol).roomy ?_
    rw [hstored]
    exact Nat.zero_le _

/-- The object of a harmless put is not stored. -/
theorem Unharmed.not_stored (h : Unharmed m m') {ptr : Nat} (hno : ∀ o ∈ stored m, o.ptr ≠ ptr) :
    ∀ o ∈ stored m', o.ptr ≠ ptr := by
  rwa [stored_of_buckets h.size h.buckets]

/-- **One call is harmless, and keeps the invariant,** under its condition. -/
theorem Live.exec (h : Live opts m) (op : Op κ β) (hcaller : Callers m op) (hsafe : FailSafe m op)
    {res : Res κ β} (hst : op.exec m = some (res, m')) :
    FailHarmless m op res m' ∧ Live opts m' := by
  match op with
  | .map (.cache (.put k v mem)) =>
    obtain ⟨hun, h'⟩ := (h.oNew k v).put (Nat.lt_succ_self m.brk) hsafe hst
    refine ⟨fun hret => ?_, h'⟩
    have hall := hun hret
    exact ⟨⟨hall.opts, hall.size, hall.sz, hall.buckets, hall.queue⟩,
      hall.not_stored fun o ho => (h.held.ptr o ho).ne⟩
  | .map (.cache (.get k)) => exact ⟨trivial, h.get hst⟩
  | .map (.del k) => exact ⟨trivial, h.del hst⟩
  | .clear =>
    obtain ⟨-, rfl⟩ := Prod.mk.inj (Option.some.inj hst)
    exact ⟨trivial, h.clear⟩
  | .again obj mem =>
    obtain ⟨hun, h'⟩ := h.put hcaller.lt hsafe hst
    refine ⟨fun hret => ⟨hun hret, (hun hret).not_stored fun o ho hptr => ?_⟩, h'⟩
    exact hcaller.not_stored (List.mem_map.mpr ⟨o, ho, hptr⟩)

/-- A call out of its condition is a put that fails and leaves the map another one than it was. -/
theorem Live.exec_harms (h : Live opts m) (op : Op κ β) (hcaller : Callers m op)
    (hop : ¬ FailSafe m op) {res : Res κ β} (hst : op.exec m = some (res, m')) :
    ¬ FailHarmless m op res m' := by
  match op with
  | .map (.cache (.put k v mem)) =>
    have hharms := (h.oNew k v).put_harms (Nat.lt_succ_self m.brk) hop hst
    refine fun hharmless => hharms fun hret => ?_
    obtain ⟨hall, hno⟩ := hharmless hret
    exact ⟨⟨hall.opts, hall.size, hall.sz, hall.buckets, hall.queue⟩, hno⟩
  | .map (.cache (.get k)) => exact absurd trivial hop
  | .map (.del k) => exact absurd trivial hop
  | .clear => exact absurd trivial hop
  | .again obj mem => exact h.put_harms hcaller.lt hop hst

/-- What a put must find so that it is defined, and harmless if it fails. -/
structure PutSound (m : Hmap κ β) (obj : Obj κ β) (mem : Mem) : Prop where
  sound : m.opts.policy ≠ .none → Sound m obj
  resize : m.opts.policy = .none → m.threshold ≤ m.sz → m.opts.noOverwrite = true →
    Distinct (hos m) ∨ ResizeFails m mem

/-- When a call is defined, and harmless if it is a put and fails. -/
def FailSound (m : Hmap κ β) : Op κ β → Prop
  | .map (.cache (.put k v mem)) => PutSound (m.oNew k v).2 (m.oNew k v).1 mem
  | .map (.cache (.get k)) => m.opts.policy = .lfu → Counts m k
  | .again obj mem => PutSound m obj mem
  | _ => True

/-- A victim that is stored under its key has its key stored. -/
theorem Evicts.evictable {k : κ} (h : Evicts m k) (ht : Table m) : Evictable m k := by
  obtain ⟨e, q, hv, hhas⟩ := h.exists_victim ht
  rw [Evictable, hv]
  exact .inr hhas

/-- The condition of a sound put is stronger than that of a harmless one. -/
theorem PutSound.harmless {obj : Obj κ β} {mem : Mem} (h : PutSound m obj mem) (ht : Table m) :
    PutHarmless m obj mem :=
  ⟨⟨fun hpol hsz hadds => ((h.sound hpol).evict hadds hsz).evictable ht,
    fun hpol hstores => ((h.sound hpol).entry hstores).1.not_pushFails⟩, h.resize⟩

/-- **The invariant of runs whose calls are all defined.** -/
structure Lively (opts : Opts κ β) (m : Hmap κ β) : Prop where
  live : Live opts m
  entered : opts.policy ≠ .none → Entered m

theorem Live.put_defined (h : Live opts m) (hpol : opts.policy = .none) {obj : Obj κ β} {mem : Mem}
    (hsafe : PutSound m obj mem) : ∃ res m', m.put obj mem = some (res, m') := by
  have hresize := hsafe.resize (h.held.policy.trans hpol)
  rcases h.put_cases hpol obj hresize with ⟨px, hput, -⟩ | ⟨dst, hput, hdst, hpdst, -⟩
  · exact ⟨_, _, hput⟩
  · rw [hput]
    exact putPlace_defined hdst.toTable hpdst.policy_none obj

theorem Lively.put (h : Lively opts m) {obj : Obj κ β} (hlt : obj.ptr < m.brk) {mem : Mem}
    (hloose : opts.policy ≠ .none → Loose (stored m) m.queue m.brk m.freed obj)
    (hsafe : PutSound m obj mem) : ∃ res m', m.put obj mem = some (res, m') ∧ Lively opts m' := by
  have hharmless := hsafe.harmless h.live.held.toTable
  by_cases hpol : opts.policy = .none
  · obtain ⟨res, m', hst⟩ := h.live.put_defined hpol hsafe
    exact ⟨res, m', hst, (h.live.put hlt hharmless hst).2, fun hp => absurd hpol hp⟩
  · have hpolm : m.opts.policy ≠ .none := fun hp => hpol (h.live.held.policy.symm.trans hp)
    obtain ⟨res, m', hst, h'⟩ := (h.entered hpol).put (hloose hpol) (hsafe.sound hpolm) mem
    exact ⟨res, m', hst, (h.live.put hlt hharmless hst).2, fun _ => h'⟩

/-- A call that is sound is one whose failure is harmless. -/
theorem FailSound.safe {op : Op κ β} (h : FailSound m op) (ht : Table m) : FailSafe m op := by
  match op with
  | .map (.cache (.put k v mem)) => exact PutSound.harmless h (ht.of_buckets rfl rfl rfl)
  | .map (.cache (.get _)) => trivial
  | .map (.del _) => trivial
  | .clear => trivial
  | .again obj mem => exact PutSound.harmless h ht

/-- **One call is defined, and keeps the invariant,** under its condition. -/
theorem Lively.exec (h : Lively opts m) (op : Op κ β) (hcaller : Callers m op)
    (hsafe : FailSound m op) : ∃ res m', op.exec m = some (res, m') ∧ Lively opts m' := by
  match op with
  | .map (.cache (.put k v mem)) =>
    have hnew : Lively opts (m.oNew k v).2 :=
      ⟨h.live.oNew k v, fun hpol => ((h.entered hpol).oNew k v).1⟩
    exact hnew.put (Nat.lt_succ_self m.brk) (fun hpol => ((h.entered hpol).oNew k v).2) hsafe
  | .map (.cache (.get k)) =>
    by_cases hpol : opts.policy = .none
    · obtain ⟨res, m', hget⟩ := get_defined h.live.held.toTable (h.live.held.policy.trans hpol) k
      exact ⟨res, m', hget, h.live.get hget, fun hp => absurd hpol hp⟩
    · obtain ⟨res, m', hget, h'⟩ := (h.entered hpol).get k hsafe
      exact ⟨res, m', hget, h.live.get hget, fun _ => h'⟩
  | .map (.del k) =>
    obtain ⟨res, m', hdel⟩ := del_defined h.live.held.toTable k
    exact ⟨res, m', hdel, h.live.del hdel, fun hpol => (h.entered hpol).of_del hdel⟩
  | .clear => exact ⟨_, _, rfl, h.live.clear, fun hpol => (h.entered hpol).clear⟩
  | .again obj mem =>
    exact h.put hcaller.lt (fun hpol => hcaller.loose (h.entered hpol).backed.whole) hsafe

/-- **When failed puts are harmless.**  In every run of puts (of new objects, or of objects that
the caller has had before), gets, dels and clears on a new map, of any type and policy, whatever
memory there is, every call is defined and every put that returns `U_HMAP_ERR_FAIL` leaves the map
as it was, if every call meets `FailSound`.  In a run whose calls are all defined, the failed puts
are harmless if and only if every put meets `FailSafe`. -/
theorem failed_put_iff (hl : Lawful opts) {brk : Nat} {avail : Nat → QMem}
    (hnew : new opts brk [] avail = some m) {ops : List (Op κ β)}
    (hcaller : Guarded Op.exec Callers m ops) :
    (Guarded Op.exec FailSound m ops → Always Op.exec FailHarmless m ops) ∧
      ∀ {rs m'}, run Op.exec m ops = some (rs, m') →
        (Always Op.exec FailHarmless m ops ↔ Guarded Op.exec FailSafe m ops) := by
  have hlive := new_live hl hnew
  constructor
  · intro hsound
    refine always_of_guarded (Lively opts) ?_ ⟨hlive, fun hp => new_entered hl hp hnew⟩
      (hcaller.and hsound)
    rintro m op h ⟨hcaller, hsafe⟩
    obtain ⟨res, m', hst, h'⟩ := h.exec op hcaller hsafe
    exact ⟨res, m', hst, (h.live.exec op hcaller (hsafe.safe h.live.held.toTable) hst).1, h'⟩
  · intro rs m' hrun
    refine always_iff_guarded (fun m op => Callers m op ∧ (op.exec m).isSome) (Live opts) ?_ ?_
      hlive (hcaller.and (guarded_of_run hrun))
    · rintro m op h ⟨hcaller, hsome⟩
      obtain ⟨⟨res, m'⟩, hst⟩ := Option.isSome_iff_exists.mp hsome
      constructor
      · rintro ⟨res', m₁, hst', hharmless⟩
        by_contra hop
        exact h.exec_harms op hcaller hop hst' hharmless
      · intro hop
        exact ⟨res, m', hst, (h.exec op hcaller hop hst).1⟩
    · rintro m op res m' h ⟨hcaller, -⟩ hst hharmless
      have hop : FailSafe m op := by
        by_contra hop
        exact h.exec_harms op hcaller hop hst hharmless
      exact (h.exec op hcaller hop hst).2

/-! ## 6. Runs on natural numbers -/

section Decide

variable [DecidableEq κ] [DecidableEq β]

instance (m : Hmap κ β) (obj : Obj κ β) (mem : Mem) : Decidable (PutSound m obj mem) :=
  have : Decidable (Distinct (hos m)) := inferInstanceAs (Decidable (List.Nodup _))
  have : Decidable (ResizeFails m mem) := inferInstanceAs (Decidable (_ ∧ (_ ∨ _)))
  decidable_of_iff ((m.opts.policy ≠ .none → Sound m obj) ∧
    (m.opts.policy = .none → m.threshold ≤ m.sz → m.opts.noOverwrite = true →
      Distinct (hos m) ∨ ResizeFails m mem))
    ⟨fun h => ⟨h.1, h.2⟩, fun h => ⟨h.sound, h.resize⟩⟩

instance (m : Hmap κ β) : ∀ op, Decidable (FailSound m op)
  | .map (.cache (.put k v mem)) =>
    inferInstanceAs (Decidable (PutSound (m.oNew k v).2 (m.oNew k v).1 mem))
  | .map (.cache (.get k)) => inferInstanceAs (Decidable (m.opts.policy = .lfu → Counts m k))
  | .map (.del _) => inferInstanceAs (Decidable True)
  | .clear => inferInstanceAs (Decidable True)
  | .again obj mem => inferInstanceAs (Decidable (PutSound m obj mem))

end Decide

/-- Nine puts, and a tenth that gets no memory for its resize. -/
def noMemoryRun : List (Op Nat Char) :=
  ((List.range 9).map fun k => .map (.cache (.put k 'a' .ok))) ++
  [.map (.cache (.put 9 'b' .noMap))]

theorem failed_put_nat : Always Op.exec FailHarmless (natMap .chain) noMemoryRun ∧
    Always Op.exec FailHarmless (lentMap .lfu 100) lentRun :=
  ⟨(failed_put_iff (natOpts_lawful .chain) (new_natOpts .chain) (by decide +kernel)).1
      (by decide +kernel),
    (failed_put_iff (lentOpts_lawful .lfu) (new_lentOpts .lfu 100) (by decide +kernel)).1
      (by decide +kernel)⟩

/-- Two puts fill the map, and it is cleared. -/
def clearedRun : List (Op Nat Char) :=
  [.map (.cache (.put 1 'a' .ok)), .map (.cache (.put 14 'b' .ok)), .clear]

/-- The put after that returns `U_HMAP_ERR_FAIL`, and its object is in the map. -/
theorem failed_put_stores :
    (run Op.exec (cacheMap .fifo) (clearedRun ++ [.map (.cache (.put 3 'c' .ok))])).map
        (fun p => (p.1.getLast?, p.2.queue.length, hos p.2))
      = some (some ⟨.errFail, none⟩, 0, [⟨4, 3, 'c'⟩]) ∧
    ¬ Always Op.exec FailHarmless (cacheMap .fifo)
      (clearedRun ++ [.map (.cache (.put 3 'c' .ok))]) := by
  refine ⟨by decide +kernel, fun h => ?_⟩
  have hlast : (run Op.exec (cacheMap .fifo) clearedRun).bind (fun p =>
      (Op.exec p.2 (.map (.cache (.put 3 'c' .ok)))).map fun q =>
        (q.1.ret, (stored q.2).map fun o => o.ptr, p.2.brk)) = some (.errFail, [4], 4) := by
    decide +kernel
  obtain ⟨⟨rs, m₁⟩, hrun, hput⟩ := Option.bind_eq_some_iff.mp hlast
  obtain ⟨⟨res, m₂⟩, hst, heq⟩ := Option.map_eq_some_iff.mp hput
  obtain ⟨hret, hptrs, hbrk⟩ : res.ret = .errFail ∧ (stored m₂).map (fun o => o.ptr) = [4] ∧
      m₁.brk = 4 := by simpa using heq
  obtain ⟨res', m₂', hst', hharmless⟩ := h.last _ _ hrun
  obtain ⟨rfl, rfl⟩ : res = res' ∧ m₂ = m₂' := by simpa [hst] using hst'
  obtain ⟨o, ho, hptr⟩ : ∃ o ∈ stored m₂, o.ptr = 4 := by
    have hmem : 4 ∈ (stored m₂).map fun o => o.ptr := by simp [hptrs]
    simpa using hmem
  exact (hharmless hret).2 o ho (hptr.trans hbrk.symm)

end Libu.Hmap
