/-
# The eviction law of a chained hash map with a policy

The map is compared with the abstract cache of `Libu.Verif.Cache`, which knows the whole history of
every object and evicts a least one.  The map knows much less: an order of its queue, and under
LFU a use count.  The invariant `Tracked` pairs every queue entry with the history of its object
and says that the queue is sorted by the policy.

* §2 is the law (`CacheStep`), and what each kind of put makes of the invariant.
* §3: a run of puts and gets is a run of the abstract cache if and only if no get increments a use
  count of `INT_MAX`, and every object that is stored can have a queue entry (`cache_law_iff`).
-/
import Libu.Hmap.Queue
import Libu.Verif.Cache
import Libu.Verif.Run

namespace Libu.Hmap

open Verif
open Verif.Cache (Rec Policy State Act Outcome Step pairwise_insert)
open scoped List

variable {κ β : Type} {m : Hmap κ β} {opts : Opts κ β}

/-! ## 1. The queue sorted by a policy -/

/-- The policy of a map, as one on histories. -/
def policyOf (opts : Opts κ β) : Policy (Ho κ β) :=
  match opts.policy, opts.fPcyCmp with
  | .lru, _ => .lru
  | .lfu, _ => .lfu
  | .custom, some cmp => .priority fun a b => cmp a.val b.val
  | _, _ => .fifo

/-- A queue entry and the history of its object. -/
structure Paired (opts : Opts κ β) (now : Nat) (x : QEntry κ β × Rec (Ho κ β)) : Prop where
  item : x.1.ho = x.2.item
  data : opts.policy = .lfu → x.1.data = x.2.hits
  ins_le : x.2.ins ≤ now
  last_le : x.2.last ≤ now

/-- The histories, in the order of the queue, are sorted. -/
def InOrder (opts : Opts κ β) (hs : List (QEntry κ β × Rec (Ho κ β))) : Prop :=
  (policyOf opts).Sorted (hs.map Prod.snd)

section Order

variable {hs : List (QEntry κ β × Rec (Ho κ β))} {now : Nat}

theorem policyOf_lfu (hpol : opts.policy = .lfu) : policyOf opts = .lfu := by
  simp [policyOf, hpol]

theorem policyOf_ne (hpol : opts.policy ≠ .lfu) : policyOf opts ≠ .lfu := by
  unfold policyOf
  split <;> simp_all

theorem policyOf_ne_lru (hpol : opts.policy ≠ .lru) : policyOf opts ≠ .lru := by
  unfold policyOf
  split <;> simp_all

theorem policyOf_custom (hpol : opts.policy = .custom) {cmp : β → β → Int}
    (hcmp : opts.fPcyCmp = some cmp) :
    policyOf opts = .priority fun a b => cmp a.val b.val := by
  simp [policyOf, hpol, hcmp]

theorem inOrder_lfu (hpol : opts.policy = .lfu) :
    InOrder opts hs ↔ hs.Pairwise fun x y => x.2.hits ≤ y.2.hits := by
  rw [InOrder, policyOf_lfu hpol, Policy.sorted_lfu, List.pairwise_map]

theorem inOrder_of_ne (hpol : opts.policy ≠ .lfu) :
    InOrder opts hs ↔ hs.Pairwise fun x y => (policyOf opts).le y.2 x.2 := by
  rw [InOrder, Policy.sorted_of_ne (policyOf_ne hpol), List.pairwise_map]

theorem InOrder.sublist {hs' : List (QEntry κ β × Rec (Ho κ β))} (h : InOrder opts hs)
    (hsub : hs'.Sublist hs) : InOrder opts hs' := Policy.Sorted.sublist h (hsub.map _)

/-- The preorder behind a priority, on pairs. -/
theorem policyOf_lawful (hcmp : ∀ cmp, opts.fPcyCmp = some cmp → IsPreorder cmp) :
    (policyOf opts).Lawful := by
  unfold policyOf
  split
  · trivial
  · trivial
  · next cmp _ hc =>
    have h := hcmp cmp hc
    exact ⟨fun a b => h.swap a.val b.val, fun a b c => h.trans a.val b.val c.val⟩
  · trivial

/-- A new entry goes where the policy wants the new history. -/
theorem enqueue_pairs (hpol : opts.policy ≠ .none) (hready : optsCheck opts = true)
    (hcmp : ∀ cmp, opts.fPcyCmp = some cmp → IsPreorder cmp)
    (hok : ∀ x ∈ hs, Paired opts now x) (hord : InOrder opts hs) (e : QEntry κ β) :
    ∃ hs', enqueue opts e (hs.map Prod.fst) = hs'.map Prod.fst ∧
      hs' ~ (e, Rec.new e.ho now) :: hs ∧ InOrder opts hs' := by
  cases hcase : opts.policy with
  | none => exact absurd hcase hpol
  | fifo =>
    refine ⟨(e, Rec.new e.ho now) :: hs, by simp [enqueue, hcase], List.Perm.refl _, ?_⟩
    rw [inOrder_of_ne (by simp [hcase])] at hord ⊢
    refine List.pairwise_cons.mpr ⟨fun y hy => ?_, hord⟩
    simp only [policyOf, hcase]
    exact (hok y hy).ins_le
  | lru =>
    refine ⟨(e, Rec.new e.ho now) :: hs, by simp [enqueue, hcase], List.Perm.refl _, ?_⟩
    rw [inOrder_of_ne (by simp [hcase])] at hord ⊢
    refine List.pairwise_cons.mpr ⟨fun y hy => ?_, hord⟩
    simp only [policyOf, hcase]
    exact (hok y hy).last_le
  | lfu =>
    refine ⟨(e, Rec.new e.ho now) :: hs, by simp [enqueue, hcase], List.Perm.refl _, ?_⟩
    rw [inOrder_lfu hcase] at hord ⊢
    exact List.pairwise_cons.mpr ⟨fun y _ => Nat.zero_le _, hord⟩
  | custom =>
    obtain ⟨cmp, hc⟩ : ∃ cmp, opts.fPcyCmp = some cmp := by
      simp only [optsCheck, hcase, Bool.and_eq_true, ne_eq, not_true_eq_false, decide_false,
        Bool.false_or] at hready
      exact Option.isSome_iff_exists.mp hready.2
    have hpre := hcmp cmp hc
    refine ⟨hs.takeWhile (fun x => cmp e.ho.val x.1.ho.val < 0) ++ (e, Rec.new e.ho now) ::
      hs.dropWhile fun x => cmp e.ho.val x.1.ho.val < 0, ?_, ?_, ?_⟩
    · simp only [enqueue, hcase, hc, List.map_append, List.map_cons, List.takeWhile_map,
        List.dropWhile_map]
      rfl
    · refine List.perm_middle.trans ?_
      rw [List.takeWhile_append_dropWhile]
    · rw [inOrder_of_ne (by simp [hcase]), policyOf_custom hcase hc] at hord ⊢
      refine pairwise_insert hord ?_ ?_ ?_
      · intro y hy hlt
        have hle : cmp e.ho.val y.1.ho.val < 0 := by simpa using hlt
        rw [(hok y hy).item] at hle
        exact hle.le
      · intro y hy hge
        have hle : ¬ cmp e.ho.val y.1.ho.val < 0 := by simpa using hge
        rw [(hok y hy).item] at hle
        exact hpre.le_iff_not_lt.mpr hle
      · intro y z hxy hyz
        exact hpre.trans _ _ _ hyz hxy

/-- The victim is a least one. -/
theorem victim_pairs (hlaw : (policyOf opts).Lawful) (hord : InOrder opts hs) {e : QEntry κ β}
    {q : List (QEntry κ β)} (hv : victim opts (hs.map Prod.fst) = some (e, q)) :
    ∃ x hs', hs ~ x :: hs' ∧ x.1 = e ∧ hs'.map Prod.fst = q ∧ InOrder opts hs' ∧
      ∀ y ∈ hs, (policyOf opts).le x.2 y.2 := by
  by_cases hpol : opts.policy = .lfu
  · unfold victim at hv
    rw [hpol] at hv
    cases hs with
    | nil => cases hv
    | cons x hs =>
      obtain ⟨rfl, rfl⟩ := Prod.mk.inj (Option.some.inj hv)
      refine ⟨x, hs, List.Perm.refl _, rfl, rfl, hord.sublist (List.sublist_cons_self x hs), ?_⟩
      rw [inOrder_lfu hpol, List.pairwise_cons] at hord
      rw [policyOf_lfu hpol]
      exact List.forall_mem_cons.mpr ⟨Nat.le_refl _, hord.1⟩
  · have hv' : (hs.map Prod.fst).getLast?.map (fun e => (e, (hs.map Prod.fst).dropLast))
        = some (e, q) := by
      rw [← hv]
      unfold victim
      cases hcase : opts.policy <;> first | rfl | exact absurd hcase hpol
    rw [List.getLast?_map, Option.map_map, Option.map_eq_some_iff] at hv'
    obtain ⟨x, hx, heq⟩ := hv'
    obtain ⟨rfl, rfl⟩ := Prod.mk.inj heq
    have hsplit := List.dropLast_append_getLast? x hx
    refine ⟨x, hs.dropLast, ?_, rfl, (List.map_dropLast ..),
      hord.sublist (List.dropLast_sublist hs), ?_⟩
    · exact (List.Perm.of_eq hsplit.symm).trans (List.perm_append_singleton x _)
    · rw [inOrder_of_ne hpol, ← hsplit] at hord
      have hcross := (List.pairwise_append.mp hord).2.2
      intro y hy
      rw [← hsplit] at hy
      rcases List.mem_append.mp hy with hy | hy
      · exact hcross y hy x (by simp)
      · rw [List.mem_singleton.mp hy]
        exact Policy.le_refl hlaw x.2

/-- Replacing a history by one that compares the same keeps the order. -/
theorem inOrder_replace {h₁ h₂ : List (QEntry κ β × Rec (Ho κ β))}
    {x x' : QEntry κ β × Rec (Ho κ β)} (hpol : opts.policy ≠ .lfu)
    (hl : ∀ y, (policyOf opts).le y x.2 → (policyOf opts).le y x'.2)
    (hr : ∀ y, (policyOf opts).le x.2 y → (policyOf opts).le x'.2 y)
    (hord : InOrder opts (h₁ ++ x :: h₂)) : InOrder opts (h₁ ++ x' :: h₂) := by
  rw [inOrder_of_ne hpol] at hord ⊢
  obtain ⟨hs₁, hs₂, hcross⟩ := List.pairwise_append.mp hord
  obtain ⟨hx, hs₂⟩ := List.pairwise_cons.mp hs₂
  refine List.pairwise_append.mpr ⟨hs₁, List.pairwise_cons.mpr ⟨fun y hy => hl _ (hx y hy), hs₂⟩,
    ?_⟩
  intro a ha b hb
  rcases List.mem_cons.mp hb with rfl | hb
  · exact hr _ (hcross a ha x (List.mem_cons_self ..))
  · exact hcross a ha b (List.mem_cons_of_mem _ hb)

/-- A get moves the entry where the policy wants the history with one more hit. -/
theorem touch_pairs {h₁ h₂ : List (QEntry κ β × Rec (Ho κ β))} {x : QEntry κ β × Rec (Ho κ β)}
    (hok : ∀ y ∈ h₁ ++ x :: h₂, Paired opts now y) (hord : InOrder opts (h₁ ++ x :: h₂)) :
    ∃ e' hs', touch opts (h₁.map Prod.fst) x.1 (h₂.map Prod.fst) = hs'.map Prod.fst ∧
      hs' ~ (e', x.2.hit now) :: (h₁ ++ h₂) ∧ e'.ho = x.1.ho ∧
      (opts.policy = .lfu → e'.data = x.1.data + 1) ∧ InOrder opts hs' := by
  have hsub : (h₁ ++ h₂).Sublist (h₁ ++ x :: h₂) :=
    List.Sublist.append_left (List.sublist_cons_self x h₂) h₁
  -- where the queue does not move, the hit changes nothing that the policy compares
  have hstay : opts.policy ≠ .lru → opts.policy ≠ .lfu →
      ∃ e' hs', touch opts (h₁.map Prod.fst) x.1 (h₂.map Prod.fst) = hs'.map Prod.fst ∧
        hs' ~ (e', x.2.hit now) :: (h₁ ++ h₂) ∧ e'.ho = x.1.ho ∧
        (opts.policy = .lfu → e'.data = x.1.data + 1) ∧ InOrder opts hs' := by
    intro hlru hlfu
    have hhit := fun y => Policy.le_hit (policyOf_ne_lru hlru) (policyOf_ne hlfu) x.2 y now
    refine ⟨x.1, h₁ ++ (x.1, x.2.hit now) :: h₂, ?_, List.perm_middle, rfl,
      fun h => absurd h hlfu,
      inOrder_replace hlfu (fun y => (hhit y).1.mpr) (fun y => (hhit y).2.mpr) hord⟩
    rw [List.map_append, List.map_cons]
    unfold touch
    cases hcase : opts.policy <;> first | rfl | exact absurd hcase hlru | exact absurd hcase hlfu
  cases hcase : opts.policy with
  | none => exact hcase ▸ hstay (by simp [hcase]) (by simp [hcase])
  | fifo => exact hcase ▸ hstay (by simp [hcase]) (by simp [hcase])
  | custom => exact hcase ▸ hstay (by simp [hcase]) (by simp [hcase])
  | lru =>
    refine ⟨x.1, (x.1, x.2.hit now) :: (h₁ ++ h₂), by simp [touch, hcase], List.Perm.refl _, rfl,
      by simp, ?_⟩
    have hrest := hord.sublist hsub
    rw [inOrder_of_ne (by simp [hcase])] at hrest ⊢
    refine List.pairwise_cons.mpr ⟨fun y hy => ?_, hrest⟩
    simp only [policyOf, hcase]
    exact (hok y (hsub.subset hy)).last_le
  | lfu =>
    have hx := hok x (by simp)
    refine ⟨{ x.1 with data := x.1.data + 1 }, h₁ ++
      (h₂.takeWhile (fun y => y.1.data ≤ x.1.data + 1) ++
        ({ x.1 with data := x.1.data + 1 }, x.2.hit now) ::
          h₂.dropWhile fun y => y.1.data ≤ x.1.data + 1), ?_, ?_, rfl, fun _ => rfl, ?_⟩
    · simp only [touch, hcase, List.map_append, List.map_cons, List.takeWhile_map,
        List.dropWhile_map, List.append_assoc]
      rfl
    · refine (List.Perm.append_left h₁ List.perm_middle).trans ?_
      rw [List.takeWhile_append_dropWhile]
      exact List.perm_middle
    · rw [inOrder_lfu hcase] at hord ⊢
      obtain ⟨hs₁, hs₂, hcross⟩ := List.pairwise_append.mp hord
      obtain ⟨hxs, hs₂⟩ := List.pairwise_cons.mp hs₂
      have hdata : ∀ y ∈ h₂, (y.1.data ≤ x.1.data + 1 ↔ y.2.hits ≤ x.2.hits + 1) := by
        intro y hy
        rw [hx.data hcase, (hok y (by simp [hy])).data hcase]
        omega
      have hins := @pairwise_insert _ (fun x y : QEntry κ β × Rec (Ho κ β) => x.2.hits ≤ y.2.hits)
        (fun y => decide (y.1.data ≤ x.1.data + 1))
        ({ x.1 with data := x.1.data + 1 }, x.2.hit now) h₂ hs₂
        (fun y hy hp => (hdata y hy).mp (of_decide_eq_true hp))
        (fun y hy hp => (Nat.not_le.mp (mt (hdata y hy).mpr (of_decide_eq_false hp))).le)
        (fun y z hxy hyz => Nat.le_trans hxy hyz)
      refine List.pairwise_append.mpr ⟨hs₁, hins, ?_⟩
      intro a ha b hb
      have hax : a.2.hits ≤ x.2.hits := hcross a ha x (List.mem_cons_self ..)
      have hbmem : b ∈ ({ x.1 with data := x.1.data + 1 }, x.2.hit now) :: h₂ := by
        have hp := @List.perm_middle _ ({ x.1 with data := x.1.data + 1 }, x.2.hit now)
          (h₂.takeWhile fun y => decide (y.1.data ≤ x.1.data + 1))
          (h₂.dropWhile fun y => decide (y.1.data ≤ x.1.data + 1))
        rw [List.takeWhile_append_dropWhile] at hp
        exact hp.mem_iff.mp hb
      rcases List.mem_cons.mp hbmem with rfl | hb
      · exact Nat.le_succ_of_le hax
      · exact hcross a ha b (List.mem_cons_of_mem _ hb)

end Order

/-! ## 2. The map and the history of its objects -/

/-- What the map hands back for what the cache does. -/
def outcomeRes (opts : Opts κ β) : Outcome (Ho κ β) → Res κ β
  | .refused old => ⟨.errExists, handedOut opts old⟩
  | .replaced old => ⟨.errNone, handedOut opts old⟩
  | .added => ⟨.errNone, none⟩
  | .evicted old => ⟨.errNone, handedOut opts old⟩
  | .hit ho => ⟨.errNone, some ho⟩
  | .miss => ⟨.errFail, none⟩

/-- A call on a cache: a put of a new object, a get, or a put of an object that the caller has had
before. -/
inductive CacheCall (κ β : Type) where
  | new (op : CacheOp κ β)
  | again (obj : Obj κ β) (mem : Mem)

def CacheCall.exec (m : Hmap κ β) : CacheCall κ β → Option (Res κ β × Hmap κ β)
  | .new op => op.exec m
  | .again obj mem => m.put obj mem

/-- A put of `ho` that hands back `res` is a step of the abstract cache. -/
def PutStep (opts : Opts κ β) (a : State (Ho κ β)) (ho : Ho κ β) (res : Res κ β)
    (a' : State (Ho κ β)) : Prop :=
  ∃ out, Step (policyOf opts) opts.max (!opts.noOverwrite) Ho.key a (.put ho) out a' ∧
    res = outcomeRes opts out

/-- **The eviction law**, for one call: it is a step of the abstract cache with the policy, the
bound and the overwrite mode of the map. -/
def CacheStep (opts : Opts κ β) (a : State (Ho κ β)) (call : CacheCall κ β) (res : Res κ β)
    (a' : State (Ho κ β)) : Prop :=
  match call with
  | .new (.put key val _) => ∃ ptr, PutStep opts a ⟨ptr, key, val⟩ res a'
  | .new (.get key) =>
    ∃ out, Step (policyOf opts) opts.max (!opts.noOverwrite) Ho.key a (.get key) out a' ∧
      res = outcomeRes opts out
  | .again obj _ => PutStep opts a obj.toHo res a'

/-- The map holds the items of the cache, and no more than its maximum. -/
structure Holds (opts : Opts κ β) (m : Hmap κ β) (a : State (Ho κ β)) : Prop where
  perm : (stored m).map Obj.toHo ~ a.recs.map Rec.item
  le_max : (stored m).length ≤ opts.max

/-- What the caller sees to: an object that is put again is its own. -/
def CacheCall.Own (m : Hmap κ β) : CacheCall κ β → Prop
  | .new _ => True
  | .again obj _ => Outside m obj

/-- When a call keeps the law: an object that is stored can have its entry, and a get does not
overflow a use count. -/
def CacheSafe (m : Hmap κ β) : CacheCall κ β → Prop
  | .new (.put k v _) => Equipped (m.oNew k v).2 (m.oNew k v).1
  | .new (.get k) => m.opts.policy = .lfu → Counts m k
  | .again obj _ => Equipped m obj

/-- **The invariant**: entries and histories in pairs, in the order of the policy. -/
structure Tracked (opts : Opts κ β) (m : Hmap κ β) (a : State (Ho κ β))
    (hs : List (QEntry κ β × Rec (Ho κ β))) : Prop where
  queued : Queued m
  opts_eq : m.opts = opts
  sz : m.sz = m.queue.length
  le_max : a.recs.length ≤ opts.max
  queue : m.queue = hs.map Prod.fst
  recs : a.recs = hs.map Prod.snd
  paired : ∀ x ∈ hs, Paired opts a.now x
  order : InOrder opts hs

section Step

variable {a : State (Ho κ β)} {hs : List (QEntry κ β × Rec (Ho κ β))}

theorem Tracked.holds (h : Tracked opts m a hs) : Holds opts m a := by
  have hitems : m.queue.map (fun e => e.ho) = a.recs.map Rec.item := by
    rw [h.queue, h.recs, List.map_map, List.map_map]
    exact List.map_congr_left fun x hx => (h.paired x hx).item
  have hperm : (stored m).map Obj.toHo ~ m.queue.map fun e => e.ho := by
    have hlinks := h.queued.perm.map Prod.snd
    rwa [links, List.map_map, List.map_map] at hlinks
  have hlen := hperm.length_eq
  rw [hitems] at hperm hlen
  rw [List.length_map, List.length_map] at hlen
  exact ⟨hperm, hlen ▸ h.le_max⟩

/-- A key that the map does not have is absent from the cache. -/
theorem Tracked.absent (h : Tracked opts m a hs) {k : κ} (hk : ¬ Has m k) : a.Absent Ho.key k := by
  intro r hr hrk
  rw [h.recs] at hr
  obtain ⟨x, hx, rfl⟩ := List.mem_map.mp hr
  have hmem : x.1 ∈ m.queue := by rw [h.queue]; exact List.mem_map_of_mem hx
  obtain ⟨o, ho, hoe⟩ := h.queued.stored_of_mem hmem
  refine hk ⟨o, ho, ?_⟩
  rw [← hrk, ← (h.paired x hx).item, ← hoe]

/-- A chained map that is full finds its victim. -/
theorem Tracked.evicts (h : Tracked opts m a hs) (htype : opts.type = .chain) {k : κ}
    (hadds : Adds m k) (hsz : m.opts.max ≤ m.sz) : Evicts m k := by
  have hmax : m.opts.max ≠ 0 := by
    have hready := h.queued.ready
    simp only [optsCheck, Bool.and_eq_true, decide_eq_true_eq] at hready
    exact hready.1.2
  have hchain : m.opts.type = .chain := by rw [h.opts_eq]; exact htype
  rw [Adds, hchain] at hadds
  rw [Evicts]
  cases hv : victim m.opts m.queue with
  | none =>
    have hsz' := h.sz
    rw [victim_eq_none.mp hv, List.length_nil] at hsz'
    omega
  | some p =>
    obtain ⟨e, q⟩ := p
    obtain ⟨o, ho, hoe⟩ :=
      h.queued.stored_of_mem ((victim_perm hv).mem_iff.mpr (List.mem_cons_self ..))
    have hhas : Has m e.ho.key := ⟨o, ho, congrArg Ho.key hoe⟩
    refine ⟨fun hk => hadds (hk ▸ hhas), ?_⟩
    rcases find_spec h.queued.toTable e.ho.key with ⟨l, hfind, hl, hlk, -⟩ | ⟨-, hnot⟩
    · rw [Finds, hfind]
      have hkey : l.obj.key = o.key := hlk.trans (congrArg Ho.key hoe).symm
      have hobj : l.obj = o := h.queued.eq_of_chain hchain hl.mem ho hkey
      exact (congrArg Obj.toHo hobj).trans hoe
    · exact absurd hhas hnot

/-- The next state of map and cache. -/
theorem Tracked.next {m' : Hmap κ β} {hs' : List (QEntry κ β × Rec (Ho κ β))} {now : Nat}
    (hqueued : Queued m') (hopts : m'.opts = opts) (hqueue : m'.queue = hs'.map Prod.fst)
    (hsz : m'.sz = hs'.length) (hle : hs'.length ≤ opts.max)
    (hpaired : ∀ x ∈ hs', Paired opts now x) (horder : InOrder opts hs') :
    Tracked opts m' ⟨hs'.map Prod.snd, now⟩ hs' :=
  ⟨hqueued, hopts, by rw [hsz, hqueue, List.length_map], by rwa [List.length_map], hqueue, rfl,
    hpaired, horder⟩

theorem Paired.succ {now : Nat} {x : QEntry κ β × Rec (Ho κ β)} (h : Paired opts now x) :
    Paired opts (now + 1) x :=
  ⟨h.item, h.data, Nat.le_succ_of_le h.ins_le, Nat.le_succ_of_le h.last_le⟩

/-- Pairs after one of them has changed. -/
theorem paired_of_perm {hs' rest : List (QEntry κ β × Rec (Ho κ β))} {now : Nat}
    {x : QEntry κ β × Rec (Ho κ β)} (p : hs' ~ x :: rest) (hx : Paired opts (now + 1) x)
    (hrest : ∀ y ∈ rest, Paired opts now y) : ∀ y ∈ hs', Paired opts (now + 1) y := by
  intro y hy
  rcases List.mem_cons.mp (p.mem_iff.mp hy) with rfl | hy
  · exact hx
  · exact (hrest y hy).succ

theorem paired_new (ptr now : Nat) (ho : Ho κ β) :
    Paired opts (now + 1) (⟨ptr, ho, 0, false⟩, Rec.new ho now) :=
  ⟨rfl, fun _ => rfl, Nat.le_succ now, Nat.le_succ now⟩

/-- The pair of an entry of the queue. -/
theorem Tracked.split (h : Tracked opts m a hs) {q₁ q₂ : List (QEntry κ β)} {e : QEntry κ β}
    (hq : m.queue = q₁ ++ e :: q₂) : ∃ h₁ x h₂, hs = h₁ ++ x :: h₂ ∧ h₁.map Prod.fst = q₁ ∧
      x.1 = e ∧ h₂.map Prod.fst = q₂ := by
  obtain ⟨h₁, t, rfl, hq₁, ht⟩ := List.map_eq_append_iff.mp (h.queue.symm.trans hq)
  obtain ⟨x, h₂, rfl, hx, hq₂⟩ := List.map_eq_cons_iff.mp ht
  exact ⟨h₁, x, h₂, rfl, hq₁, hx, hq₂⟩

/-- A put of `ho` that leads to `m'` is a step of the abstract cache, to a state that goes with
`m'`. -/
def Follows (opts : Opts κ β) (a : State (Ho κ β)) (ho : Ho κ β) (res : Res κ β)
    (m' : Hmap κ β) : Prop :=
  ∃ a', PutStep opts a ho res a' ∧ ∃ hs', Tracked opts m' a' hs'

/-- What is known of the map after a put. -/
structure Put (opts : Opts κ β) (m' : Hmap κ β) (q : List (QEntry κ β)) (sz : Nat) : Prop where
  queued : Queued m'
  opts : m'.opts = opts
  queue : m'.queue = q
  sz : m'.sz = sz

theorem Tracked.length (h : Tracked opts m a hs) : m.sz = hs.length := by
  rw [h.sz, h.queue, List.length_map]

theorem Tracked.length_le (h : Tracked opts m a hs) : hs.length ≤ opts.max := by
  rw [← List.length_map (f := Prod.snd), ← h.recs]
  exact h.le_max

/-- A put that is refused. -/
theorem Tracked.refused (h : Tracked opts m a hs) {ho : Ho κ β} {m' : Hmap κ β} {e : QEntry κ β}
    (he : e ∈ m.queue) (hk : e.ho.key = ho.key) (hno : m.opts.noOverwrite = true)
    (hm' : Put opts m' m.queue m.sz) :
    Follows opts a ho ⟨.errExists, handedOut m.opts e.ho⟩ m' := by
  obtain ⟨q₁, q₂, hq⟩ := List.append_of_mem he
  obtain ⟨h₁, x, h₂, hhs, -, hxe, -⟩ := h.split hq
  have hx : x ∈ hs := by rw [hhs]; simp
  have hitem : x.2.item = e.ho := by rw [← (h.paired x hx).item, hxe]
  have hover : (!opts.noOverwrite) = false := h.opts_eq ▸ congrArg not hno
  refine ⟨⟨hs.map Prod.snd, a.now + 1⟩, ⟨.refused x.2.item, ?_, ?_⟩, hs, ?_⟩
  · refine .refused ?_ ?_ hover (by rw [h.recs]) rfl
    · rw [h.recs]
      exact List.mem_map_of_mem hx
    · rw [hitem]
      exact hk
  · rw [hitem, outcomeRes, ← h.opts_eq]
  · exact Tracked.next hm'.queued hm'.opts (hm'.queue.trans h.queue) (hm'.sz.trans h.length)
      h.length_le (fun y hy => (h.paired y hy).succ) h.order

/-- A put that overwrites. -/
theorem Tracked.replaced (hcmp : ∀ cmp, opts.fPcyCmp = some cmp → IsPreorder cmp)
    (h : Tracked opts m a hs) {ho : Ho κ β} {m' : Hmap κ β} {q₁ q₂ : List (QEntry κ β)}
    {e : QEntry κ β} {p : Nat} (hq : m.queue = q₁ ++ e :: q₂) (hk : e.ho.key = ho.key)
    (hno : m.opts.noOverwrite = false)
    (hm' : Put opts m' (enqueue m.opts ⟨p, ho, 0, false⟩ (q₁ ++ q₂)) m.sz) :
    Follows opts a ho ⟨.errNone, handedOut m.opts e.ho⟩ m' := by
  obtain ⟨h₁, x, h₂, hhs, rfl, hxe, rfl⟩ := h.split hq
  have hready : optsCheck opts = true := h.opts_eq ▸ h.queued.ready
  have hpol : opts.policy ≠ .none := h.opts_eq ▸ h.queued.policy
  have hx : x ∈ hs := by rw [hhs]; simp
  have hsub : (h₁ ++ h₂).Sublist hs := by
    rw [hhs]
    exact List.Sublist.append_left (List.sublist_cons_self x h₂) h₁
  have hitem : x.2.item = e.ho := by rw [← (h.paired x hx).item, hxe]
  have hover : (!opts.noOverwrite) = true := h.opts_eq ▸ congrArg not hno
  obtain ⟨hs', henq, hperm, hord⟩ := enqueue_pairs hpol hready hcmp
    (fun y hy => h.paired y (hsub.subset hy)) (h.order.sublist hsub) ⟨p, ho, 0, false⟩
  have hlen' : hs'.length = hs.length := by
    rw [hperm.length_eq, hhs]
    simp only [List.length_cons, List.length_append]
    omega
  refine ⟨⟨hs'.map Prod.snd, a.now + 1⟩, ⟨.replaced x.2.item, ?_, ?_⟩, hs', ?_⟩
  · refine .replaced ?_ ?_ hover (hperm.map Prod.snd) rfl
    · rw [h.recs, hhs]
      exact (List.perm_middle (a := x)).map Prod.snd
    · rw [hitem]
      exact hk
  · rw [hitem, outcomeRes, ← h.opts_eq]
  · refine Tracked.next hm'.queued hm'.opts ?_ (hm'.sz.trans (h.length.trans hlen'.symm))
      (hlen' ▸ h.length_le)
      (paired_of_perm hperm (paired_new _ _ _) fun y hy => h.paired y (hsub.subset hy)) hord
    rw [hm'.queue, ← henq, List.map_append, ← h.opts_eq]

/-- A put of a new key, while there is room. -/
theorem Tracked.added (hmax : opts.max < 2 ^ 64)
    (hcmp : ∀ cmp, opts.fPcyCmp = some cmp → IsPreorder cmp) (h : Tracked opts m a hs) {ho : Ho κ β}
    {m' : Hmap κ β} {p : Nat} (hk : ¬ Has m ho.key) (hsz : ¬ m.opts.max ≤ m.sz)
    (hm' : Put opts m' (enqueue m.opts ⟨p, ho, 0, false⟩ m.queue) (SizeT.add m.sz 1)) :
    Follows opts a ho ⟨.errNone, none⟩ m' := by
  have hready : optsCheck opts = true := h.opts_eq ▸ h.queued.ready
  have hpol : opts.policy ≠ .none := h.opts_eq ▸ h.queued.policy
  have hlen := h.length
  have hlt : hs.length < opts.max := by
    rw [← hlen, ← h.opts_eq]
    exact Nat.not_le.mp hsz
  obtain ⟨hs', henq, hperm, hord⟩ :=
    enqueue_pairs hpol hready hcmp h.paired h.order ⟨p, ho, 0, false⟩
  have hadd : SizeT.add m.sz 1 = hs'.length := by
    rw [hperm.length_eq, List.length_cons, ← hlen]
    exact SizeT.add_of_lt (by omega)
  refine ⟨⟨hs'.map Prod.snd, a.now + 1⟩, ⟨.added, ?_, rfl⟩, hs', ?_⟩
  · refine .added (h.absent hk) ?_ ?_ rfl
    · rw [h.recs, List.length_map]
      exact hlt
    · rw [h.recs]
      exact hperm.map Prod.snd
  · refine Tracked.next hm'.queued hm'.opts ?_ (hm'.sz.trans hadd) ?_
      (paired_of_perm hperm (paired_new _ _ _) h.paired) hord
    · rw [hm'.queue, ← henq, ← h.queue, ← h.opts_eq]
    · rw [hperm.length_eq, List.length_cons]
      exact hlt

/-- A put of a new key into a full cache. -/
theorem Tracked.evicted (hmax : opts.max < 2 ^ 64)
    (hcmp : ∀ cmp, opts.fPcyCmp = some cmp → IsPreorder cmp) (h : Tracked opts m a hs) {ho : Ho κ β}
    {m' : Hmap κ β} {e : QEntry κ β} {q : List (QEntry κ β)} {p : Nat} (hk : ¬ Has m ho.key)
    (hsz : m.opts.max ≤ m.sz) (hv : victim m.opts m.queue = some (e, q))
    (hm' : Put opts m' (enqueue m.opts ⟨p, ho, 0, false⟩ q) (SizeT.add (SizeT.sub m.sz 1) 1)) :
    Follows opts a ho ⟨.errNone, handedOut m.opts e.ho⟩ m' := by
  have hready : optsCheck opts = true := h.opts_eq ▸ h.queued.ready
  have hpol : opts.policy ≠ .none := h.opts_eq ▸ h.queued.policy
  have hlen := h.length
  have hle := h.length_le
  have hge : opts.max ≤ hs.length := by
    rw [← hlen, ← h.opts_eq]
    exact hsz
  have hv' : victim opts (hs.map Prod.fst) = some (e, q) := by
    rw [← h.queue, ← h.opts_eq]
    exact hv
  obtain ⟨x, rest, hpermx, hxe, rfl, hordr, hmin⟩ :=
    victim_pairs (policyOf_lawful hcmp) h.order hv'
  have hx : x ∈ hs := hpermx.mem_iff.mpr (List.mem_cons_self ..)
  have hitem : x.2.item = e.ho := by rw [← (h.paired x hx).item, hxe]
  have hrest : ∀ y ∈ rest, Paired opts a.now y := fun y hy =>
    h.paired y (hpermx.mem_iff.mpr (List.mem_cons_of_mem _ hy))
  obtain ⟨hs', henq, hperm, hord⟩ := enqueue_pairs hpol hready hcmp hrest hordr ⟨p, ho, 0, false⟩
  have hlen' : hs'.length = hs.length := by
    rw [hperm.length_eq, hpermx.length_eq, List.length_cons, List.length_cons]
  have hpos : 1 ≤ hs.length := by rw [hpermx.length_eq, List.length_cons]; omega
  have hcount : SizeT.add (SizeT.sub m.sz 1) 1 = hs'.length := by
    rw [SizeT.sub_of_le (by omega) (by omega), SizeT.add_of_lt (by omega), hlen']
    omega
  refine ⟨⟨hs'.map Prod.snd, a.now + 1⟩, ⟨.evicted x.2.item, ?_, ?_⟩, hs', ?_⟩
  · refine .evicted (h.absent hk) ?_ ?_ ?_ (hperm.map Prod.snd) rfl
    · rw [h.recs, List.length_map]
      exact hge
    · rw [h.recs]
      exact hpermx.map Prod.snd
    · intro t ht
      rw [h.recs] at ht
      obtain ⟨y, hy, rfl⟩ := List.mem_map.mp ht
      exact hmin y hy
  · rw [hitem, outcomeRes, ← h.opts_eq]
  · refine Tracked.next hm'.queued hm'.opts ?_ (hm'.sz.trans hcount) (hlen' ▸ hle)
      (paired_of_perm hperm (paired_new _ _ _) hrest) hord
    rw [hm'.queue, ← henq, ← h.opts_eq]

/-- **A put follows the abstract cache**, if its object can have an entry. -/
theorem Tracked.put (htype : opts.type = .chain) (hmax : opts.max < 2 ^ 64)
    (hcmp : ∀ cmp, opts.fPcyCmp = some cmp → IsPreorder cmp) (h : Tracked opts m a hs)
    {obj : Obj κ β} (hf : Fresh m obj) (hequip : Equipped m obj) (mem : Mem) :
    ∃ res m', m.put obj mem = some (res, m') ∧ Follows opts a obj.toHo res m' := by
  obtain ⟨res, m', hput, hqueued, hstill, hputq⟩ :=
    put_queued h.queued hf ⟨h.evicts htype, hequip⟩
  refine ⟨res, m', (put_of_policy h.queued.policy obj mem).trans hput, ?_⟩
  have hchain : m.opts.type = .chain := by rw [h.opts_eq]; exact htype
  have hm' : Put opts m' m'.queue m'.sz := ⟨hqueued, hstill.opts.trans h.opts_eq, rfl, rfl⟩
  generalize m'.queue = q' at hputq hm'
  generalize m'.sz = n at hputq hm'
  cases hputq with
  | refused he hk hno => exact h.refused he hk hno hm'
  | replaced hq hk hno => exact h.replaced hcmp hq hk hno hm'
  | added hk hsz =>
    rw [Adds, hchain] at hk
    exact h.added hmax hcmp hk hsz hm'
  | evicted hk hsz hv =>
    rw [Adds, hchain] at hk
    exact h.evicted hmax hcmp hk hsz hv hm'
  | full hlin =>
    rw [hchain] at hlin
    cases hlin

/-- The new object of a put. -/
theorem Tracked.oNew (h : Tracked opts m a hs) (k : κ) (v : β) : Tracked opts (m.oNew k v).2 a hs :=
  ⟨(h.queued.oNew k v).1, h.opts_eq, h.sz, h.le_max, h.queue, h.recs, h.paired, h.order⟩

/-- **A get follows the abstract cache**, unless its use count overflows. -/
theorem Tracked.get (h : Tracked opts m a hs) (k : κ)
    (hsafe : m.opts.policy = .lfu → Counts m k) :
    ∃ res m' a', m.get k = some (res, m') ∧ CacheStep opts a (.new (.get k)) res a' ∧
      ∃ hs', Tracked opts m' a' hs' := by
  have hlen : m.sz = hs.length := by rw [h.sz, h.queue, List.length_map]
  have hle : hs.length ≤ opts.max := by
    rw [← List.length_map (f := Prod.snd), ← h.recs]
    exact h.le_max
  rcases get_queued h.queued k hsafe with ⟨q₁, e, q₂, hq, hk, hget⟩ | ⟨hnot, hget⟩
  · obtain ⟨h₁, x, h₂, hhs, rfl, hxe, rfl⟩ := h.split hq
    have hx := h.paired x (by rw [hhs]; simp)
    have hitem : x.2.item = e.ho := by rw [← hx.item, hxe]
    have hsub : (h₁ ++ h₂).Sublist hs := by
      rw [hhs]
      exact List.Sublist.append_left (List.sublist_cons_self x h₂) h₁
    have hqueued := h.queued.moved hq
    obtain ⟨e', hs', htouch, hperm, he', hdata, hord⟩ :=
      touch_pairs (fun y hy => h.paired y (hhs ▸ hy)) (hhs ▸ h.order)
    rw [hxe] at htouch hdata
    have hlen' : hs'.length = hs.length := by
      rw [hperm.length_eq, hhs]
      simp only [List.length_cons, List.length_append]
      omega
    have hhit : Paired opts (a.now + 1) (e', x.2.hit a.now) := by
      refine ⟨?_, fun hlfu => ?_, Nat.le_succ_of_le hx.ins_le, Nat.le_succ a.now⟩
      · rw [he', hx.item]
        rfl
      · rw [hdata hlfu, ← hxe, hx.data hlfu]
        rfl
    refine ⟨_, _, ⟨hs'.map Prod.snd, a.now + 1⟩, hget, ⟨.hit x.2.item, ?_, ?_⟩, hs', ?_⟩
    · refine .hit ?_ ?_ (hperm.map Prod.snd) rfl
      · rw [h.recs, hhs]
        exact (List.perm_middle (a := x)).map Prod.snd
      · rw [hitem, hk]
    · rw [hitem]
      rfl
    · refine Tracked.next hqueued h.opts_eq ?_ (hlen.trans hlen'.symm) (by rw [hlen']; exact hle)
        (paired_of_perm hperm hhit fun y hy => h.paired y (hsub.subset hy)) hord
      rw [← htouch, ← h.opts_eq]
  · refine ⟨_, m, ⟨hs.map Prod.snd, a.now + 1⟩, hget, ⟨.miss, ?_, rfl⟩, hs, ?_⟩
    · exact .miss (h.absent hnot) (by rw [h.recs]) rfl
    · exact Tracked.next h.queued h.opts_eq h.queue hlen hle
        (fun y hy => (h.paired y hy).succ) h.order

end Step

/-! ## 3. Runs -/

/-- A new map and an empty cache. -/
theorem new_tracked (hl : Lawful opts) (hp : opts.policy ≠ .none) {brk : Nat} {avail : Nat → QMem}
    (hnew : new opts brk [] avail = some m) : ∃ hs, Tracked opts m ⟨[], 0⟩ hs := by
  obtain ⟨hqueued, hqueue, hopts, hsz, -⟩ := new_queued hl hp hnew
  refine ⟨[], hqueued, hopts, by rw [hsz, hqueue, List.length_nil], Nat.zero_le _, hqueue, rfl,
    fun _ hx => absurd hx (by simp), ?_⟩
  unfold InOrder Policy.Sorted
  split <;> exact List.Pairwise.nil

/-- **One call follows the abstract cache** under its condition. -/
theorem exec_tracked (htype : opts.type = .chain) (hmax : opts.max < 2 ^ 64)
    (hcmp : ∀ cmp, opts.fPcyCmp = some cmp → IsPreorder cmp) {a : State (Ho κ β)}
    (h : ∃ hs, Tracked opts m a hs) (call : CacheCall κ β) (hown : call.Own m)
    (hsafe : CacheSafe m call) :
    ∃ res m' a', call.exec m = some (res, m') ∧ CacheStep opts a call res a' ∧ Holds opts m' a' ∧
      ∃ hs', Tracked opts m' a' hs' := by
  obtain ⟨hs, h⟩ := h
  match call with
  | .new (.put k v mem) =>
    obtain ⟨res, m', hst, a', hA, hs', h'⟩ :=
      (h.oNew k v).put htype hmax hcmp (h.queued.oNew k v).2 hsafe mem
    exact ⟨res, m', a', hst, ⟨_, hA⟩, h'.holds, hs', h'⟩
  | .new (.get k) =>
    obtain ⟨res, m', a', hst, hA, hs', h'⟩ := h.get k hsafe
    exact ⟨res, m', a', hst, hA, h'.holds, hs', h'⟩
  | .again obj mem =>
    obtain ⟨res, m', hst, a', hA, hs', h'⟩ := h.put htype hmax hcmp hown.fresh hsafe mem
    exact ⟨res, m', a', hst, hA, h'.holds, hs', h'⟩

/-- The abstract cache does not fail a put. -/
theorem PutStep.ret_ne {a a' : State (Ho κ β)} {ho : Ho κ β} {res : Res κ β}
    (h : PutStep opts a ho res a') : res.ret ≠ .errFail := by
  obtain ⟨out, hstep, rfl⟩ := h
  cases hstep <;> simp [outcomeRes]

/-- The end of a put fails with its push. -/
theorem putCount_fails (hpol : m.opts.policy ≠ .none) {obj : Obj κ β}
    (hout : ∀ e ∈ m.queue, obj.pqe ≠ some e.ptr) (hno : ¬ (obj.pqe = none ∧ Supplied m))
    {old : Option (Ho κ β)} {res : Res κ β} {m' : Hmap κ β}
    (hput : m.putCount obj old = some (res, m')) : res.ret = .errFail := by
  simp only [Hmap.putCount, opPut_of_ne hpol, if_true, Option.bind_eq_bind,
    Option.bind_eq_some_iff, Prod.exists] at hput
  obtain ⟨ret, pqe, m₁, hpush, hput⟩ := hput
  obtain ⟨rfl, -⟩ := push_refused hout hno hpush
  rw [if_pos (by decide)] at hput
  obtain ⟨rfl, -⟩ := Prod.mk.inj (Option.some.inj hput)
  rfl

/-- **A put fails**, or has no result, if its object cannot have an entry. -/
theorem putPlace_fails (h : Queued m) {obj : Obj κ β} (hf : Fresh m obj)
    (hout : ∀ e ∈ m.queue, obj.pqe ≠ some e.ptr)
    (hevict : Adds m obj.key → m.opts.max ≤ m.sz → Evicts m obj.key) (hbad : ¬ Equipped m obj)
    {res : Res κ β} {m' : Hmap κ β} (hput : m.putPlace obj = some (res, m')) :
    res.ret = .errFail := by
  obtain ⟨hstores, hno⟩ := Classical.not_imp.mp hbad
  rcases scan_spec h.toTable obj.key with
    ⟨l, hs, hl, -, -, hnot⟩ | ⟨i, b, a, hs, hr, hadds, -⟩ | ⟨hs, -⟩
  · obtain ⟨p, q₁, e, q₂, hpqe, hsplit, hq, -, -⟩ := h.split hl.mem
    have hdel : m.queueDel l.obj = some { m with queue := q₁ ++ q₂ } := by
      simp [queueDel, hpqe, hsplit]
    have hsub : q₁ ++ q₂ ⊆ m.queue := by
      rw [hq]
      exact (List.Sublist.append_left (List.sublist_cons_self e q₂) q₁).subset
    simp only [putPlace, hs, Option.bind_eq_bind, Option.bind_some, oOverwrite,
      (hstores.resolve_left hnot).1, Bool.false_eq_true, if_false, opPut_of_ne h.policy, if_true,
      hdel, Option.bind_eq_some_iff, Prod.exists] at hput
    obtain ⟨ret, pqe, m₁, hpush, hput⟩ := hput
    obtain ⟨rfl, -⟩ := @push_refused _ _ { m with queue := q₁ ++ q₂ } _ _ _ _ _
      (fun x hx => hout x (hsub hx)) hno hpush
    rw [if_pos (by decide)] at hput
    obtain ⟨rfl, -⟩ := Prod.mk.inj (Option.some.inj hput)
    rfl
  · obtain ⟨old, rest, m₁, hend, hw, hsub, hbrk, hstill⟩ := h.room hf hs hr (hevict hadds)
    rw [hend] at hput
    exact putCount_fails hw.policy (fun x hx => hout x (hsub hx))
      (by rwa [hstill.supplied_iff hbrk]) hput
  · simp only [putPlace, hs, Option.bind_eq_bind, Option.bind_some] at hput
    obtain ⟨rfl, -⟩ := Prod.mk.inj (Option.some.inj hput)
    rfl

/-- Without its condition a call does nothing that the abstract cache may do. -/
theorem exec_untracked (htype : opts.type = .chain) {b : State (Ho κ β)}
    (h : ∃ hs, Tracked opts m b hs) (call : CacheCall κ β) (hown : call.Own m)
    (hbad : ¬ CacheSafe m call) {res : Res κ β} {m' : Hmap κ β}
    (hst : call.exec m = some (res, m')) (a a' : State (Ho κ β)) :
    ¬ CacheStep opts a call res a' := by
  obtain ⟨hs, h⟩ := h
  match call with
  | .new (.put k v mem) =>
    rintro ⟨ptr, hstep⟩
    have h₁ := (h.oNew k v).queued
    refine hstep.ret_ne (putPlace_fails h₁ (h.queued.oNew k v).2 (fun e _ hpqe => (by cases hpqe))
      ((h.oNew k v).evicts htype) hbad ((put_of_policy h₁.policy _ mem).symm.trans hst))
  | .new (.get k) =>
    obtain ⟨hlfu, hc⟩ := Classical.not_imp.mp hbad
    have hnone := get_breaks h.queued k hlfu hc
    change m.get k = _ at hst
    rw [hnone] at hst
    cases hst
  | .again obj mem =>
    intro hstep
    exact hstep.ret_ne (putPlace_fails h.queued hown.fresh
      (h.queued.no_entry hown.fresh hown.entry) (h.evicts htype) hbad
      ((put_of_policy h.queued.policy _ mem).symm.trans hst))

section Runs

variable (hl : Lawful opts) (htype : opts.type = .chain) (hp : opts.policy ≠ .none)
  (hcmp : ∀ cmp, opts.fPcyCmp = some cmp → IsPreorder cmp) (hmax : opts.max < 2 ^ 64) {brk : Nat}
  {avail : Nat → QMem} (hnew : new opts brk [] avail = some m) {calls : List (CacheCall κ β)}
  (hown : Guarded CacheCall.exec (fun m call => call.Own m) m calls)

include hl htype hp hcmp hmax hnew hown

/-- A run that follows the abstract cache meets the condition at every call. -/
theorem cacheSafe_of_tracks
    (h : Tracks CacheCall.exec (CacheStep opts) (Holds opts) m ⟨[], 0⟩ calls) :
    Guarded CacheCall.exec CacheSafe m calls :=
  guarded_of_tracks (fun m call => call.Own m) (fun m a => ∃ hs, Tracked opts m a hs)
    (fun _ _ call h hown hC => exec_tracked htype hmax hcmp h call hown hC)
    (fun _ _ call _ _ h hown hC hst => exec_untracked htype h call hown hC hst)
    (new_tracked hl hp hnew) hown h

/-- **When the eviction law holds.**  A run of puts and gets on a chained map with a policy is a run
of the abstract cache, and never holds more objects than the maximum, if and only if every object
that a put stores has no queue entry yet and gets the memory for one, and under LFU no get finds
an object whose use count is `INT_MAX`. -/
theorem cache_law_iff :
    Tracks CacheCall.exec (CacheStep opts) (Holds opts) m ⟨[], 0⟩ calls
      ↔ Guarded CacheCall.exec CacheSafe m calls :=
  ⟨cacheSafe_of_tracks hl htype hp hcmp hmax hnew hown, fun hsafe =>
    tracks_of_guarded (fun m a => ∃ hs, Tracked opts m a hs)
      (fun _ _ call h hC => exec_tracked htype hmax hcmp h call hC.1 hC.2)
      (new_tracked hl hp hnew) (hown.and hsafe)⟩

end Runs

section Decide

variable [DecidableEq κ] [DecidableEq β]

instance (m : Hmap κ β) : ∀ call : CacheCall κ β, Decidable (call.Own m)
  | .new _ => inferInstanceAs (Decidable True)
  | .again obj _ => inferInstanceAs (Decidable (Outside m obj))

instance (m : Hmap κ β) : ∀ call, Decidable (CacheSafe m call)
  | .new (.put k v _) => inferInstanceAs (Decidable (Equipped (m.oNew k v).2 (m.oNew k v).1))
  | .new (.get k) => inferInstanceAs (Decidable (m.opts.policy = .lfu → Counts m k))
  | .again obj _ => inferInstanceAs (Decidable (Equipped m obj))

end Decide

/-- The priorities of `cacheOpts` are an order. -/
theorem cacheOpts_preorder (policy : Pcy) :
    ∀ cmp, (cacheOpts policy).fPcyCmp = some cmp → IsPreorder cmp := by
  intro cmp hcmp
  obtain rfl := Option.some.inj hcmp
  refine ⟨fun a b => ?_, fun a b c hab hbc => ?_⟩ <;> omega

/-- A run with a hit, an eviction, an overwrite, and a put of the object that was overwritten. -/
def lentCalls : List (CacheCall Nat Char) :=
  [.new (.put 1 'a' .ok), .new (.put 14 'b' .ok), .new (.get 1), .new (.put 3 'c' .ok),
    .new (.put 3 'd' .ok), .again ⟨⟨4, 3, 'c'⟩, none⟩ .ok, .new (.get 14)]

theorem cache_law_iff_lfu :
    Tracks CacheCall.exec (CacheStep (lentOpts .lfu)) (Holds (lentOpts .lfu)) (lentMap .lfu 100)
      ⟨[], 0⟩ lentCalls :=
  (cache_law_iff (lentOpts_lawful .lfu) rfl (by decide) (cacheOpts_preorder .lfu) (by decide)
    (new_lentOpts .lfu 100) (by decide +kernel)).mpr (by decide +kernel)

/-- Gets of the only object of an LFU map reach `INT_MAX` in the end. -/
theorem not_cacheSafe_gets : ∀ (j : Nat) {m : Hmap κ β} {e : QEntry κ β},
    m.opts.policy = .lfu → Queued m → m.queue = [e] → e.data + j = 2 ^ 31 - 1 →
    ¬ Guarded CacheCall.exec CacheSafe m (List.replicate (j + 1) (.new (.get e.ho.key)))
  | 0, m, e, hlfu, h, hq, hj, ⟨hsafe, _⟩ => by
    have hcounts : Counts m e.ho.key := hsafe hlfu
    obtain ⟨o, ho, hoe⟩ := h.stored_of_mem (e := e) (by rw [hq]; simp)
    rcases find_spec h.toTable e.ho.key with ⟨l, hfind, hl, -, -⟩ | ⟨-, hnot⟩
    · obtain ⟨e', he', -, hle⟩ := h.entry_of_mem hl.mem
      rw [hq, List.mem_singleton] at he'
      rw [Counts, hfind] at hcounts
      have hlt := hcounts e (by rw [hq]; simp) (by rw [← he', ← hle])
      omega
    · exact hnot ⟨o, ho, congrArg Ho.key hoe⟩
  | j + 1, m, e, hlfu, h, hq, hj, ⟨hsafe, hrest⟩ => by
    obtain ⟨o, ho, hoe⟩ := h.stored_of_mem (e := e) (by rw [hq]; simp)
    rcases get_queued h e.ho.key hsafe with ⟨q₁, e', q₂, hq', -, hget⟩ | ⟨hnot, -⟩
    · have hqueued := h.moved hq'
      obtain ⟨rfl, rfl, rfl⟩ : q₁ = [] ∧ e' = e ∧ q₂ = [] := by
        cases q₁ with
        | nil => simpa [eq_comm] using hq.symm.trans hq'
        | cons x q₁ => simp [hq] at hq'
      have htouch : touch m.opts [] e' [] = [{ e' with data := e'.data + 1 }] := by
        simp [touch, hlfu]
      refine @not_cacheSafe_gets j { m with queue := touch m.opts [] e' [] } _ hlfu hqueued htouch
        ?_ (hrest _ _ hget)
      push_cast at hj
      change e'.data + 1 + j = 2 ^ 31 - 1
      omega
    · exact hnot ⟨o, ho, congrArg Ho.key hoe⟩

/-- The caller has nothing to see to where no object is put again. -/
theorem own_of_new (m : Hmap κ β) (ops : List (CacheOp κ β)) :
    Guarded CacheCall.exec (fun m call => call.Own m) m (ops.map .new) := by
  induction ops generalizing m with
  | nil => trivial
  | cons op ops ih => exact ⟨trivial, fun _ m' _ => ih m'⟩

/-- Getting one object `2 ^ 31` times overflows its use count. -/
theorem lfu_count_overflows :
    ¬ Tracks CacheCall.exec (CacheStep (cacheOpts .lfu)) (Holds (cacheOpts .lfu)) (cacheMap .lfu)
      ⟨[], 0⟩ (.new (.put 1 'a' .ok) :: List.replicate (2 ^ 31) (.new (.get 1))) := by
  intro h
  have hown := own_of_new (cacheMap .lfu) (.put 1 'a' .ok :: List.replicate (2 ^ 31) (.get 1))
  rw [List.map_cons, List.map_replicate] at hown
  obtain ⟨-, hrest⟩ := cacheSafe_of_tracks (cacheOpts_lawful .lfu) rfl (by decide)
    (cacheOpts_preorder .lfu) (by decide) (new_cacheOpts .lfu) hown h
  obtain ⟨res, m', a', hst, -, -, hs', h'⟩ := @exec_tracked _ _ _ (cacheOpts .lfu) rfl (by decide)
    (cacheOpts_preorder .lfu) _ (new_tracked (cacheOpts_lawful .lfu) (by decide)
      (new_cacheOpts .lfu))
    (.new (.put 1 'a' .ok)) trivial (fun _ => ⟨rfl, by decide⟩)
  have hqueue : (CacheCall.exec (cacheMap .lfu) (.new (.put 1 'a' .ok))).map (fun p => p.2.queue)
      = some [⟨1, ⟨0, 1, 'a'⟩, 0, false⟩] := by decide +kernel
  rw [hst, Option.map_some, Option.some.injEq] at hqueue
  exact not_cacheSafe_gets (2 ^ 31 - 1) (by rw [h'.opts_eq]; rfl) h'.queued hqueue rfl
    (hrest res m' hst)

end Libu.Hmap
