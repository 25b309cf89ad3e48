/-
# The table of a hash map: where objects are, and what the two walks find

Everything `__get` and the walk of `u_hmap_put` do to a map is summed up here, for both table
types, so that nothing later looks at a bucket list or a probe again.

* `stored`: all objects of the map.
* `Table`: every object is where a lookup of its key can reach it (`Home`), a chained bucket is
  strictly ordered, a slot of a linear table holds at most one object.
* `find_spec`: a lookup finds an object with the key whenever there is one.
* `scan_spec`: a put finds an object with the key, or a place where a new object may be linked,
  or (in a linear table) nothing but objects with other keys.  In a chain the key is then really
  absent; in a linear table it is only absent up to the first empty slot of the probe.
-/
import Libu.Hmap.Basic
import Libu.Verif.Cmp

namespace Libu.Hmap

open Verif
open scoped List

variable {κ β : Type} {m : Hmap κ β}

/-! ## 1. The stored objects -/

/-- The objects of all buckets. -/
def stored (m : Hmap κ β) : List (Obj κ β) := (List.range m.size).flatMap m.buckets

/-- The objects of all buckets but `i`. -/
def others (m : Hmap κ β) (i : Nat) : List (Obj κ β) :=
  ((List.range m.size).erase i).flatMap m.buckets

/-- The objects of a map are those of its buckets. -/
theorem mem_stored {o : Obj κ β} : o ∈ stored m ↔ ∃ i < m.size, o ∈ m.buckets i := by
  simp [stored]

/-- One bucket and the others. -/
theorem stored_perm {i : Nat} (hi : i < m.size) : stored m ~ m.buckets i ++ others m i :=
  (List.perm_cons_erase (List.mem_range.mpr hi)).flatMap_right m.buckets

/-- What is stored depends on the buckets alone. -/
theorem stored_of_buckets {m' : Hmap κ β} (hsize : m'.size = m.size)
    (hbuckets : m'.buckets = m.buckets) : stored m' = stored m := by
  rw [stored, stored, hsize, hbuckets]

@[simp] theorem setBucket_size (m : Hmap κ β) (i : Nat) (l : List (Obj κ β)) :
    (m.setBucket i l).size = m.size := rfl

@[simp] theorem setBucket_opts (m : Hmap κ β) (i : Nat) (l : List (Obj κ β)) :
    (m.setBucket i l).opts = m.opts := rfl

@[simp] theorem setBucket_self (m : Hmap κ β) (i : Nat) (l : List (Obj κ β)) :
    (m.setBucket i l).buckets i = l := Function.update_self ..

/-- The other buckets are as they were. -/
theorem setBucket_of_ne {i j : Nat} (h : j ≠ i) (m : Hmap κ β) (l : List (Obj κ β)) :
    (m.setBucket i l).buckets j = m.buckets j := Function.update_of_ne h ..

/-- The objects in the other buckets are as they were. -/
theorem others_setBucket (m : Hmap κ β) (i : Nat) (l : List (Obj κ β)) :
    others (m.setBucket i l) i = others m i := by
  unfold others
  refine List.flatMap_congr ?_
  intro j hj
  have hne : j ≠ i := ((List.nodup_range).mem_erase_iff.mp hj).1
  exact setBucket_of_ne hne m l

/-- The objects of a map with another bucket list. -/
theorem stored_setBucket {i : Nat} (hi : i < m.size) (l : List (Obj κ β)) :
    stored (m.setBucket i l) ~ l ++ others m i := by
  have hperm := @stored_perm _ _ (m.setBucket i l) i hi
  rwa [setBucket_self, others_setBucket] at hperm

/-- A pointer into the map. -/
structure At (m : Hmap κ β) (l : Loc κ β) : Prop where
  idx_lt : l.idx < m.size
  eq : m.buckets l.idx = l.before ++ l.obj :: l.after

theorem At.stored_perm {l : Loc κ β} (h : At m l) :
    stored m ~ l.obj :: (l.before ++ l.after ++ others m l.idx) := by
  refine (Hmap.stored_perm h.idx_lt).trans ?_
  rw [h.eq, List.append_assoc, List.append_assoc]
  exact List.perm_middle

/-- The object at a pointer is stored. -/
theorem At.mem {l : Loc κ β} (h : At m l) : l.obj ∈ stored m :=
  h.stored_perm.mem_iff.mpr (List.mem_cons_self ..)

/-- Unlinking the object at a pointer. -/
theorem At.stored_remove {l : Loc κ β} (h : At m l) :
    stored (m.setBucket l.idx (l.before ++ l.after))
      ~ l.before ++ l.after ++ others m l.idx := stored_setBucket h.idx_lt _

/-- Linking an object into a bucket. -/
theorem stored_link {i : Nat} {before after : List (Obj κ β)} (hi : i < m.size)
    (heq : m.buckets i = before ++ after) (obj : Obj κ β) :
    stored (m.setBucket i (before ++ obj :: after)) ~ obj :: stored m := by
  have hmid : before ++ obj :: after ++ others m i ~ obj :: (before ++ after ++ others m i) := by
    rw [List.append_assoc, List.append_assoc]
    exact List.perm_middle
  refine ((stored_setBucket hi _).trans hmid).trans ?_
  rw [← heq]
  exact (Hmap.stored_perm hi).symm.cons obj

/-- Putting an object in the place of another. -/
theorem At.stored_replace {l : Loc κ β} (h : At m l) (obj : Obj κ β) :
    stored (m.setBucket l.idx (l.before ++ obj :: l.after))
      ~ obj :: (l.before ++ l.after ++ others m l.idx) := by
  refine (stored_setBucket h.idx_lt _).trans ?_
  rw [List.append_assoc, List.append_assoc]
  exact List.perm_middle

/-- Unlinking or replacing the object at a pointer leaves the other objects. -/
theorem At.exists_rest {l : Loc κ β} (h : At m l) : ∃ rest, stored m ~ l.obj :: rest ∧
    stored (m.setBucket l.idx (l.before ++ l.after)) ~ rest ∧
    ∀ obj : Obj κ β, stored (m.setBucket l.idx (l.before ++ obj :: l.after)) ~ obj :: rest :=
  ⟨l.before ++ l.after ++ others m l.idx, h.stored_perm, h.stored_remove, h.stored_replace⟩

/-- Setting the entry of an object changes no other field of it, and no other object. -/
theorem stored_setPqe (m : Hmap κ β) (ptr : Nat) (pqe : Option Nat) :
    stored (m.setPqe ptr pqe)
      = (stored m).map fun o => if o.ptr = ptr then { o with pqe } else o := by
  rw [stored, stored, List.map_flatMap]
  rfl

/-! ## 2. The invariant of the table -/

/-- What the callbacks of a map must be: the hash in range, the comparison a test for equal keys
and, where buckets are ordered, an order. -/
structure Lawful (opts : Opts κ β) : Prop where
  hash_lt : ∀ k n, 0 < n → opts.fHash k n < n
  comp_zero : ∀ a b, opts.fComp a b = 0 ↔ a = b
  comp_order : opts.type = .chain → IsPreorder opts.fComp

/-- The slot at distance `d` from the bucket of `k`. -/
def slot (m : Hmap κ β) (k : κ) (d : Nat) : Nat := ringIdx m.size (m.hashOf k) d

/-- Bucket `i` is one in which a lookup of `k` looks.  A probe goes to every slot but the one
before its first. -/
def Home (m : Hmap κ β) (k : κ) (i : Nat) : Prop :=
  match m.opts.type with
  | .chain => i = m.hashOf k
  | .linear => ∃ d < m.size - 1, i = slot m k d

/-- A bucket with the keys `ks` has the shape its table type asks for. -/
def Shape (opts : Opts κ β) (ks : List κ) : Prop :=
  match opts.type with
  | .chain => ks.Pairwise fun a b => opts.fComp a b < 0
  | .linear => ks.length ≤ 1

/-- The keys of a bucket. -/
def keys (m : Hmap κ β) (i : Nat) : List κ := (m.buckets i).map fun o => o.key

/-- **The invariant of the table.** -/
structure Table (m : Hmap κ β) : Prop where
  lawful : Lawful m.opts
  size_pos : 0 < m.size
  home : ∀ i < m.size, ∀ k ∈ keys m i, Home m k i
  shape : ∀ i < m.size, Shape m.opts (keys m i)

/-- The default hash function is below the size of the table. -/
theorem fHashDefault_lt (k : List UInt8) {size : Nat} (h : 0 < size) :
    fHashDefault k size < size := Nat.mod_lt _ h

/-- A hash function that the options admit is below the size of the table. -/
theorem Lawful.hashOf_lt (h : Lawful m.opts) (hpos : 0 < m.size) (k : κ) :
    m.hashOf k < m.size := by
  unfold hashOf
  dsimp only
  split
  · exact h.hash_lt k m.size hpos
  · exact fHashDefault_lt _ hpos

/-- The invariant only looks at options, size and keys. -/
theorem Table.congr {m' : Hmap κ β} (h : Table m) (hopts : m'.opts = m.opts)
    (hsize : m'.size = m.size) (hkeys : keys m' = keys m) : Table m' := by
  have hhash : ∀ k, m'.hashOf k = m.hashOf k := fun k => by
    simp only [hashOf, hopts, hsize]
  refine ⟨hopts ▸ h.lawful, hsize ▸ h.size_pos, ?_, ?_⟩
  · intro i hi k hk
    rw [hsize] at hi
    rw [hkeys] at hk
    have hhome := h.home i hi k hk
    simpa only [Home, slot, hopts, hsize, hhash] using hhome
  · intro i hi
    rw [hsize] at hi
    rw [hopts, hkeys]
    exact h.shape i hi

/-- Changes outside the buckets. -/
theorem Table.of_buckets {m' : Hmap κ β} (h : Table m) (hopts : m'.opts = m.opts)
    (hsize : m'.size = m.size) (hbuckets : m'.buckets = m.buckets) : Table m' :=
  h.congr hopts hsize (by funext i; rw [keys, keys, hbuckets])

/-- A table without objects. -/
theorem table_of_empty (hl : Lawful m.opts) (hpos : 0 < m.size)
    (h : ∀ i < m.size, m.buckets i = []) : Table m := by
  have hkeys : ∀ i < m.size, keys m i = [] := fun i hi => by rw [keys, h i hi, List.map_nil]
  refine ⟨hl, hpos, ?_, ?_⟩
  · intro i hi k hk
    rw [hkeys i hi] at hk
    cases hk
  · intro i hi
    rw [hkeys i hi]
    unfold Shape
    split
    · exact List.Pairwise.nil
    · exact Nat.zero_le 1

/-- Replacing one bucket. -/
theorem Table.setBucket (h : Table m) {i : Nat} {l : List (Obj κ β)}
    (hhome : ∀ o ∈ l, Home m o.key i) (hshape : Shape m.opts (l.map fun o => o.key)) :
    Table (m.setBucket i l) := by
  refine ⟨h.lawful, h.size_pos, ?_, ?_⟩
  · intro j hj k hk
    by_cases hji : j = i
    · subst hji
      rw [keys, setBucket_self, List.mem_map] at hk
      obtain ⟨o, ho, rfl⟩ := hk
      exact hhome o ho
    · rw [keys, setBucket_of_ne hji] at hk
      exact h.home j hj k hk
  · intro j hj
    by_cases hji : j = i
    · subst hji
      rw [keys, setBucket_self]
      exact hshape
    · rw [keys, setBucket_of_ne hji]
      exact h.shape j hj

/-- A part of a bucket has the shape of one. -/
theorem Shape.sublist {opts : Opts κ β} {ks ks' : List κ} (h : Shape opts ks)
    (hs : ks'.Sublist ks) : Shape opts ks' := by
  unfold Shape at h ⊢
  split
  · next htype =>
    rw [htype] at h
    exact List.Pairwise.sublist hs h
  · next htype =>
    rw [htype] at h
    exact hs.length_le.trans h

theorem Table.home_of_mem (h : Table m) {i : Nat} (hi : i < m.size) {o : Obj κ β}
    (ho : o ∈ m.buckets i) : Home m o.key i :=
  h.home i hi o.key (List.mem_map_of_mem ho)

/-- Unlinking keeps the invariant of the table; in a linear one it makes an empty slot. -/
theorem Table.remove (h : Table m) {l : Loc κ β} (hl : At m l) :
    Table (m.setBucket l.idx (l.before ++ l.after)) := by
  refine h.setBucket ?_ ?_
  · intro o ho
    refine h.home_of_mem hl.idx_lt ?_
    rw [hl.eq]
    rcases List.mem_append.mp ho with ho | ho
    · exact List.mem_append_left _ ho
    · exact List.mem_append_right _ (List.mem_cons_of_mem _ ho)
  · refine (h.shape l.idx hl.idx_lt).sublist ?_
    rw [keys, hl.eq]
    exact (List.Sublist.append_left (List.sublist_cons_self _ _) _).map _

theorem At.keys_replace {l : Loc κ β} (hl : At m l) {obj : Obj κ β} (hkey : obj.key = l.obj.key) :
    keys (m.setBucket l.idx (l.before ++ obj :: l.after)) = keys m := by
  funext j
  by_cases hj : j = l.idx
  · subst hj
    rw [keys, setBucket_self, keys, hl.eq]
    simp [hkey]
  · rw [keys, setBucket_of_ne hj, keys]

/-- So does putting an object in the place of one with the same key. -/
theorem Table.replace (h : Table m) {l : Loc κ β} (hl : At m l) {obj : Obj κ β}
    (hkey : obj.key = l.obj.key) :
    Table (m.setBucket l.idx (l.before ++ obj :: l.after)) :=
  h.congr rfl rfl (hl.keys_replace hkey)

@[simp] theorem keys_setPqe (m : Hmap κ β) (ptr : Nat) (pqe : Option Nat) :
    keys (m.setPqe ptr pqe) = keys m := by
  funext i
  simp only [keys, setPqe, List.map_map]
  refine List.map_congr_left ?_
  intro o _
  simp only [Function.comp]
  split <;> rfl

theorem Table.setPqe (h : Table m) (ptr : Nat) (pqe : Option Nat) : Table (m.setPqe ptr pqe) :=
  h.congr rfl rfl (keys_setPqe m ptr pqe)

/-! ## 3. Walks along a bucket list -/

section Chain

variable {comp : κ → κ → Int} {k : κ} {i : Nat}

/-- The object found by the walk of `__get` is in the list and has the key. -/
theorem chainGet_some : ∀ {before l : List (Obj κ β)} {loc : Loc κ β},
    chainGet comp k i before l = some loc →
    loc.idx = i ∧ before ++ l = loc.before ++ loc.obj :: loc.after ∧ comp k loc.obj.key = 0
  | _, [], _, h => by simp [chainGet] at h
  | before, o :: after, loc, h => by
    simp only [chainGet] at h
    split at h
    · next h0 =>
      cases h
      exact ⟨rfl, rfl, h0⟩
    · split at h
      · cases h
      · obtain ⟨hidx, heq, h0⟩ := chainGet_some h
        refine ⟨hidx, ?_, h0⟩
        rw [← heq, List.append_assoc]
        rfl

/-- **The early exit is sound**: on an ordered list, what the walk does not reach is greater. -/
theorem chainGet_none (hc : IsPreorder comp) : ∀ {before l : List (Obj κ β)},
    (l.map fun o => o.key).Pairwise (fun a b => comp a b < 0) →
    chainGet comp k i before l = none → ∀ o ∈ l, comp k o.key ≠ 0
  | _, [], _, _ => by simp
  | before, o :: after, hs, h => by
    obtain ⟨hhead, htail⟩ := List.pairwise_cons.mp hs
    simp only [chainGet] at h
    split at h
    · cases h
    · next h0 =>
      refine List.forall_mem_cons.mpr ⟨h0, ?_⟩
      split at h
      · next hlt =>
        intro x hx hkx
        have hox : comp o.key x.key < 0 := hhead x.key (List.mem_map_of_mem hx)
        have hkx' : comp k x.key < 0 := hc.lt_of_lt_of_le hlt hox.le
        exact absurd hkx hkx'.ne
      · exact chainGet_none hc htail h

/-- The place the walk of `u_hmap_put` finds in an ordered list. -/
theorem chainScan_spec (hc : IsPreorder comp) : ∀ {before l : List (Obj κ β)},
    ((before ++ l).map fun o => o.key).Pairwise (fun a b => comp a b < 0) →
    (∀ o ∈ before, comp o.key k < 0) →
    (∃ b o a, chainScan comp k i before l = .found ⟨i, b, o, a⟩ ∧ before ++ l = b ++ o :: a ∧
      comp k o.key = 0) ∨
    (∃ b a, chainScan comp k i before l = .room i b a ∧ before ++ l = b ++ a ∧
      (∀ o ∈ b, comp o.key k < 0) ∧ ∀ o ∈ a, comp k o.key < 0)
  | before, [], _, hb => Or.inr ⟨before, [], rfl, rfl, hb, by simp⟩
  | before, o :: after, hs, hb => by
    have hswap := hc.swap o.key k
    simp only [chainScan]
    split
    · next h0 => exact Or.inl ⟨before, o, after, rfl, rfl, h0⟩
    · next h0 =>
      split
      · next hlt =>
        refine Or.inr ⟨before, o :: after, rfl, rfl, hb, List.forall_mem_cons.mpr ⟨hlt, ?_⟩⟩
        intro x hx
        rw [List.map_append, List.map_cons] at hs
        have hox : comp o.key x.key < 0 :=
          (List.pairwise_cons.mp (List.pairwise_append.mp hs).2.1).1 x.key (List.mem_map_of_mem hx)
        exact hc.lt_of_lt_of_le hlt hox.le
      · next hge =>
        have hassoc : before ++ o :: after = (before ++ [o]) ++ after := by simp
        rw [hassoc] at hs ⊢
        refine chainScan_spec hc hs ?_
        intro x hx
        rcases List.mem_append.mp hx with hx | hx
        · exact hb x hx
        · rw [List.mem_singleton.mp hx]
          omega

end Chain

/-! ## 4. Probes -/

section Linear

variable {k : κ}

theorem ringIdx_zero {size h : Nat} (hh : h < size) : ringIdx size h 0 = h := if_pos hh

/-- The slot before the first is the last of the ring. -/
theorem ringIdx_eq_last {size h d : Nat} (hh : h < size) (hd : d < size) :
    ringIdx size h d = (h + size - 1) % size ↔ d = size - 1 := by
  have hlast : (h + size - 1) % size = ringIdx size h (size - 1) := by
    rw [ringIdx_eq_mod hh (by omega)]
    congr 1
    omega
  rw [hlast]
  unfold ringIdx
  split <;> split <;> omega

/-- Two slots of a probe at different distances are different. -/
theorem ringIdx_inj {size h d e : Nat} (hd : d < size) (he : e < size)
    (heq : ringIdx size h d = ringIdx size h e) : d = e := by
  unfold ringIdx at heq
  split at heq <;> split at heq <;> omega

/-- The next slot of a probe, around the end of the table. -/
theorem ringIdx_next {size h d : Nat} (hh : h < size) (hd : d + 1 ≤ size) :
    (ringIdx size h d + 1) % size = ringIdx size h (d + 1) := by
  have hlt : ringIdx size h d < size := ringIdx_lt hh (by omega)
  rw [← ringIdx_eq_mod hlt (by omega), ringIdx_add hh hd]

/-- Slot `i` is taken by another key. -/
def Busy (m : Hmap κ β) (k : κ) (i : Nat) : Prop :=
  ∃ o after, m.buckets i = o :: after ∧ m.opts.fComp o.key k ≠ 0

/-- What the loop of `__get` finds from distance `d` on. -/
theorem linearGet_spec {h : Nat} (hh : h < m.size) : ∀ (n d : Nat), n + d + 1 = m.size →
    (∃ e < m.size - 1, d ≤ e ∧ (∀ c, d ≤ c → c < e → ∀ o after,
        m.buckets (ringIdx m.size h c) = o :: after → m.opts.fComp k o.key ≠ 0) ∧
      ∃ o after, linearGet m k ((h + m.size - 1) % m.size) (n + 1) (ringIdx m.size h d)
          = some ⟨ringIdx m.size h e, [], o, after⟩ ∧
        m.buckets (ringIdx m.size h e) = o :: after ∧ m.opts.fComp k o.key = 0) ∨
    (linearGet m k ((h + m.size - 1) % m.size) (n + 1) (ringIdx m.size h d) = none ∧
      ∀ c < m.size - 1, d ≤ c → ∀ o after,
        m.buckets (ringIdx m.size h c) = o :: after → m.opts.fComp k o.key ≠ 0)
  | 0, d, hn => by
    have hlast := (ringIdx_eq_last hh (by omega)).mpr (by omega : d = m.size - 1)
    refine Or.inr ⟨by rw [linearGet, if_pos hlast], ?_⟩
    intro e he hde
    omega
  | n + 1, d, hn => by
    have hlast : ¬ ringIdx m.size h d = (h + m.size - 1) % m.size := fun hd => by
      have := (ringIdx_eq_last hh (by omega)).mp hd
      omega
    have ih := linearGet_spec hh n (d + 1) (by omega)
    rw [← ringIdx_next hh (by omega : d + 1 ≤ m.size)] at ih
    rw [linearGet, if_neg hlast]
    -- a slot that does not hold the key leaves the decision to the rest of the probe
    have hrest : (∀ o after, m.buckets (ringIdx m.size h d) = o :: after →
        m.opts.fComp k o.key ≠ 0) → ∀ n : Nat, (∀ c, d + 1 ≤ c → c < n → ∀ o after,
          m.buckets (ringIdx m.size h c) = o :: after → m.opts.fComp k o.key ≠ 0) →
        ∀ c, d ≤ c → c < n → ∀ o after,
          m.buckets (ringIdx m.size h c) = o :: after → m.opts.fComp k o.key ≠ 0 := by
      intro hd n hall c hdc hc
      rcases hdc.eq_or_lt with rfl | hlt
      · exact hd
      · exact hall c hlt hc
    cases hb : m.buckets (ringIdx m.size h d) with
    | nil =>
      have hd : ∀ o after, m.buckets (ringIdx m.size h d) = o :: after →
          m.opts.fComp k o.key ≠ 0 := fun o after heq => by simp [hb] at heq
      rcases ih with ⟨e, he, hde, hall, hfound⟩ | ⟨hnone, hall⟩
      · exact Or.inl ⟨e, he, by omega, hrest hd e hall, hfound⟩
      · exact Or.inr ⟨hnone, fun c hc hdc => hrest hd _ (fun c h₁ h₂ => hall c h₂ h₁) c hdc hc⟩
    | cons x rest =>
      dsimp only
      split
      · next h0 => exact Or.inl ⟨d, by omega, le_refl d, by omega, x, rest, rfl, hb, h0⟩
      · next h0 =>
        have hd : ∀ o after, m.buckets (ringIdx m.size h d) = o :: after →
            m.opts.fComp k o.key ≠ 0 := fun o after heq => by
          rw [hb, List.cons.injEq] at heq
          exact heq.1 ▸ h0
        rcases ih with ⟨e, he, hde, hall, hfound⟩ | ⟨hnone, hall⟩
        · exact Or.inl ⟨e, he, by omega, hrest hd e hall, hfound⟩
        · exact Or.inr ⟨hnone, fun c hc hdc => hrest hd _ (fun c h₁ h₂ => hall c h₂ h₁) c hdc hc⟩

/-- What the loop of `u_hmap_put` finds from distance `d` on, where every slot so far is busy. -/
theorem linearScan_spec {h : Nat} (hh : h < m.size) : ∀ (n d : Nat), n + d + 1 = m.size →
    (∀ c < d, Busy m k (ringIdx m.size h c)) →
    (∃ e < m.size - 1, (∀ c < e, Busy m k (ringIdx m.size h c)) ∧ ∃ o after,
      linearScan m k ((h + m.size - 1) % m.size) (n + 1) (ringIdx m.size h d)
        = .found ⟨ringIdx m.size h e, [], o, after⟩ ∧
      m.buckets (ringIdx m.size h e) = o :: after ∧ m.opts.fComp o.key k = 0) ∨
    (∃ e < m.size - 1, (∀ c < e, Busy m k (ringIdx m.size h c)) ∧
      linearScan m k ((h + m.size - 1) % m.size) (n + 1) (ringIdx m.size h d)
        = .room (ringIdx m.size h e) [] [] ∧
      m.buckets (ringIdx m.size h e) = []) ∨
    (linearScan m k ((h + m.size - 1) % m.size) (n + 1) (ringIdx m.size h d) = .full ∧
      ∀ c < m.size - 1, Busy m k (ringIdx m.size h c))
  | 0, d, hn, hbusy => by
    have hd : d = m.size - 1 := by omega
    refine Or.inr (Or.inr ⟨?_, hd ▸ hbusy⟩)
    rw [linearScan, if_pos ((ringIdx_eq_last hh (by omega)).mpr hd)]
  | n + 1, d, hn, hbusy => by
    have hlast : ¬ ringIdx m.size h d = (h + m.size - 1) % m.size := fun hd => by
      have := (ringIdx_eq_last hh (by omega)).mp hd
      omega
    rw [linearScan, if_neg hlast]
    cases hb : m.buckets (ringIdx m.size h d) with
    | nil => exact Or.inr (Or.inl ⟨d, by omega, hbusy, rfl, hb⟩)
    | cons x rest =>
      dsimp only
      split
      · next h0 => exact Or.inl ⟨d, by omega, hbusy, x, rest, rfl, hb, h0⟩
      · next h0 =>
        rw [ringIdx_next hh (by omega : d + 1 ≤ m.size)]
        refine linearScan_spec hh n (d + 1) (by omega) ?_
        intro c hc
        rcases (Nat.lt_succ_iff.mp hc).eq_or_lt with rfl | hlt
        · exact ⟨x, rest, hb, h0⟩
        · exact hbusy c hlt

end Linear

/-! ## 5. What lookups and puts find -/

section Specs

/-- An object of the map has key `k`. -/
def Has (m : Hmap κ β) (k : κ) : Prop := ∃ o ∈ stored m, o.key = k

/-- The key of an object at a pointer is stored. -/
theorem At.has {l : Loc κ β} (h : At m l) : Has m l.obj.key := ⟨l.obj, h.mem, rfl⟩

/-- An object with key `k` is in a bucket in which a lookup of `k` looks. -/
theorem Table.home_of_has (h : Table m) {k : κ} (hk : Has m k) :
    ∃ i < m.size, Home m k i ∧ ∃ o ∈ m.buckets i, o.key = k := by
  obtain ⟨o, ho, rfl⟩ := hk
  obtain ⟨i, hi, hoi⟩ := mem_stored.mp ho
  exact ⟨i, hi, h.home_of_mem hi hoi, o, hoi, rfl⟩

/-- A slot of a linear table holds one object at most. -/
theorem Table.eq_of_mem (h : Table m) (htype : m.opts.type = .linear) {i : Nat} (hi : i < m.size)
    {o x : Obj κ β} {after : List (Obj κ β)} (heq : m.buckets i = x :: after)
    (ho : o ∈ m.buckets i) : o = x ∧ after = [] := by
  have hlen := h.shape i hi
  rw [Shape, htype] at hlen
  rw [keys, heq, List.length_map, List.length_cons] at hlen
  obtain rfl : after = [] := List.length_eq_zero_iff.mp (by omega)
  rw [heq] at ho
  exact ⟨List.mem_singleton.mp ho, rfl⟩

/-- Bucket `i` is the first in which a lookup of `k` meets the key. -/
def First (m : Hmap κ β) (k : κ) (i : Nat) : Prop :=
  match m.opts.type with
  | .chain => i = m.hashOf k
  | .linear => ∃ e < m.size - 1, i = slot m k e ∧ ∀ c < e, k ∉ keys m (slot m k c)

/-- **A lookup finds an object with the key whenever the map has one**, and the first on its
way. -/
theorem find_spec (h : Table m) (k : κ) :
    (∃ l, m.find k = some (some l) ∧ At m l ∧ l.obj.key = k ∧ First m k l.idx) ∨
      (m.find k = some none ∧ ¬ Has m k) := by
  have hlt := h.lawful.hashOf_lt h.size_pos k
  have hzero := h.lawful.comp_zero
  cases htype : m.opts.type with
  | chain =>
    have hfind : m.find k = some (chainGet m.opts.fComp k (m.hashOf k) []
      (m.buckets (m.hashOf k))) := by
      simp only [find, htype, if_neg (Nat.not_le.mpr hlt)]
    have hshape := h.shape (m.hashOf k) hlt
    rw [Shape, htype] at hshape
    rw [hfind]
    cases hget : chainGet m.opts.fComp k (m.hashOf k) [] (m.buckets (m.hashOf k)) with
    | some l =>
      obtain ⟨hidx, heq, h0⟩ := chainGet_some hget
      refine Or.inl ⟨l, rfl, ⟨hidx ▸ hlt, by rw [hidx]; exact heq⟩, ((hzero _ _).mp h0).symm, ?_⟩
      rwa [First, htype]
    | none =>
      refine Or.inr ⟨rfl, fun hk => ?_⟩
      obtain ⟨i, hi, hhome, o, ho, hok⟩ := h.home_of_has hk
      rw [Home, htype] at hhome
      rw [hhome] at ho
      exact chainGet_none (h.lawful.comp_order htype) hshape hget o ho ((hzero _ _).mpr hok.symm)
  | linear =>
    have hfind : m.find k
        = some (linearGet m k ((m.hashOf k + m.size - 1) % m.size) m.size (m.hashOf k)) := by
      simp only [find, htype, if_neg (Nat.not_le.mpr hlt)]
    have hspec := @linearGet_spec _ _ m k _ hlt (m.size - 1) 0 (by omega)
    rw [ringIdx_zero hlt, (by omega : m.size - 1 + 1 = m.size)] at hspec
    have hnot : ∀ c < m.size - 1, (∀ o after, m.buckets (slot m k c) = o :: after →
        m.opts.fComp k o.key ≠ 0) → k ∉ keys m (slot m k c) := by
      intro c hc hne hk
      obtain ⟨o, ho, rfl⟩ := List.mem_map.mp hk
      obtain ⟨x, after, heq⟩ := List.exists_cons_of_ne_nil (List.ne_nil_of_mem ho)
      obtain ⟨rfl, -⟩ := h.eq_of_mem htype (ringIdx_lt hlt (by omega)) heq ho
      exact hne _ _ heq ((hzero _ _).mpr rfl)
    rw [hfind]
    rcases hspec with ⟨e, he, -, hall, o, after, hget, heq, h0⟩ | ⟨hget, hall⟩
    · refine Or.inl ⟨_, congrArg some hget, ⟨ringIdx_lt hlt (by omega), heq⟩,
        ((hzero _ _).mp h0).symm, ?_⟩
      rw [First, htype]
      exact ⟨e, he, rfl, fun c hc => hnot c (by omega) (hall c (Nat.zero_le c) hc)⟩
    · refine Or.inr ⟨congrArg some hget, fun hk => ?_⟩
      obtain ⟨i, hi, hhome, o, ho, hok⟩ := h.home_of_has hk
      rw [Home, htype] at hhome
      obtain ⟨d, hd, rfl⟩ := hhome
      exact hnot d hd (hall d hd (Nat.zero_le d)) (List.mem_map.mpr ⟨o, ho, hok⟩)

/-- What the caller gets of an object that has left the map. -/
def handedOut (opts : Opts κ β) (ho : Ho κ β) : Option (Ho κ β) :=
  if opts.ownsData then none else some ho

/-- The released objects once an object has left the map. -/
def released (opts : Opts κ β) (ho : Ho κ β) (freed : List (Ho κ β)) : List (Ho κ β) :=
  if opts.ownsData then ho :: freed else freed

theorem dispose_eq (m : Hmap κ β) (ho : Ho κ β) : m.dispose ho
    = (handedOut m.opts ho, { m with freed := released m.opts ho m.freed }) := by
  unfold dispose handedOut released
  split <;> rfl

/-- A del of a key that is found unlinks its object and counts it out. -/
theorem del_of_find {k : κ} {l : Loc κ β} (hfind : m.find k = some (some l)) :
    m.del k = some (⟨.errNone, handedOut m.opts l.obj.toHo⟩,
      { m.setBucket l.idx (l.before ++ l.after) with
        freed := released m.opts l.obj.toHo m.freed, sz := SizeT.sub m.sz 1 }) := by
  simp only [del, hfind, Option.bind_eq_bind, Option.bind_some, dispose_eq]
  rfl

/-- In a linear table, an empty slot comes before one that holds `k` on the probe for `k`. -/
def HoleBefore (m : Hmap κ β) (k : κ) : Prop :=
  m.opts.type = .linear ∧ ∃ e < m.size - 1, k ∈ keys m (slot m k e) ∧
    ∃ d < e, keys m (slot m k d) = []

instance [DecidableEq κ] (m : Hmap κ β) (k : κ) : Decidable (HoleBefore m k) :=
  inferInstanceAs (Decidable (_ ∧ ∃ e < _, _ ∧ ∃ d < e, _))

/-- The first `e` slots of the probe for `k` hold other keys. -/
def Passes (m : Hmap κ β) (k : κ) (e : Nat) : Prop :=
  ∀ c < e, keys m (slot m k c) ≠ [] ∧ k ∉ keys m (slot m k c)

/-- In a linear table, the probe for `k` comes to slot `i`. -/
def Reached (m : Hmap κ β) (k : κ) (i : Nat) : Prop :=
  m.opts.type = .linear → ∃ e < m.size - 1, i = slot m k e ∧ Passes m k e

/-- A put of `k` links a new object: the key is not in its chain, or the probe for it comes to an
empty slot. -/
def Adds (m : Hmap κ β) (k : κ) : Prop :=
  match m.opts.type with
  | .chain => ¬ Has m k
  | .linear => ∃ e < m.size - 1, keys m (slot m k e) = [] ∧ Passes m k e

/-- A place where an object with key `k` may be linked. -/
structure Room (m : Hmap κ β) (k : κ) (i : Nat) (before after : List (Obj κ β)) : Prop where
  idx_lt : i < m.size
  eq : m.buckets i = before ++ after
  reached : Reached m k i
  link : ∀ obj : Obj κ β, obj.key = k → Table (m.setBucket i (before ++ obj :: after))

/-- Linking between what is below and what is above keeps a chain ordered. -/
theorem Shape.link {opts : Opts κ β} (htype : opts.type = .chain) {b a : List (Obj κ β)}
    {obj : Obj κ β} (h : Shape opts ((b ++ a).map fun o => o.key))
    (hb : ∀ o ∈ b, opts.fComp o.key obj.key < 0) (ha : ∀ o ∈ a, opts.fComp obj.key o.key < 0) :
    Shape opts ((b ++ obj :: a).map fun o => o.key) := by
  unfold Shape at h ⊢
  rw [htype] at h ⊢
  dsimp only at h ⊢
  rw [List.map_append] at h
  obtain ⟨hsb, hsa, hba⟩ := List.pairwise_append.mp h
  rw [List.map_append, List.map_cons]
  refine List.pairwise_append.mpr ⟨hsb, List.pairwise_cons.mpr ⟨?_, hsa⟩, ?_⟩
  · intro x hx
    obtain ⟨o, ho, rfl⟩ := List.mem_map.mp hx
    exact ha o ho
  · intro x hx y hy
    obtain ⟨o, ho, rfl⟩ := List.mem_map.mp hx
    rcases List.mem_cons.mp hy with rfl | hy
    · exact hb o ho
    · exact hba _ (List.mem_map_of_mem ho) y hy

/-- The walk of a put along the chain of its key: the key is there, or it is really absent. -/
theorem scan_chain (h : Table m) (htype : m.opts.type = .chain) (k : κ) :
    (∃ l, m.scan k = some (.found l) ∧ At m l ∧ l.obj.key = k) ∨
      (∃ i before after, m.scan k = some (.room i before after) ∧ Room m k i before after ∧
        ¬ Has m k) := by
  have hlt := h.lawful.hashOf_lt h.size_pos k
  have hzero := h.lawful.comp_zero
  have hc := h.lawful.comp_order htype
  have hscan : m.scan k
      = some (chainScan m.opts.fComp k (m.hashOf k) [] (m.buckets (m.hashOf k))) := by
    simp only [scan, htype, if_neg (Nat.not_le.mpr hlt)]
  have hshape := h.shape (m.hashOf k) hlt
  have hsort := hshape
  rw [Shape, htype] at hsort
  rw [hscan]
  rcases @chainScan_spec _ _ _ k (m.hashOf k) hc [] (m.buckets (m.hashOf k)) hsort (by simp) with
    ⟨b, o, a, hs, heq, h0⟩ | ⟨b, a, hs, heq, hb, ha⟩
  · exact Or.inl ⟨_, congrArg some hs, ⟨hlt, heq⟩, ((hzero _ _).mp h0).symm⟩
  · rw [List.nil_append] at heq
    refine Or.inr ⟨_, b, a, congrArg some hs, ⟨hlt, heq, ?_, ?_⟩, fun hk => ?_⟩
    · intro hlin
      rw [htype] at hlin
      cases hlin
    · rintro obj rfl
      rw [keys, heq] at hshape
      refine h.setBucket ?_ (hshape.link htype hb ha)
      intro o ho
      rw [List.mem_append, List.mem_cons, or_left_comm, ← List.mem_append, ← heq] at ho
      rcases ho with rfl | ho
      · rw [Home, htype]
      · exact h.home_of_mem hlt ho
    · -- every object of the bucket is below or above the key
      obtain ⟨i, hi, hhome, o, ho, rfl⟩ := h.home_of_has hk
      rw [Home, htype] at hhome
      rw [hhome, heq] at ho
      have hrefl := hc.refl o.key
      rcases List.mem_append.mp ho with ho | ho
      · exact (hb o ho).ne hrefl
      · exact (ha o ho).ne hrefl

/-- A busy slot holds one object, with another key. -/
theorem Table.passes (h : Table m) (htype : m.opts.type = .linear) {k : κ} {e : Nat}
    (he : e ≤ m.size - 1) (hb : ∀ c < e, Busy m k (slot m k c)) : Passes m k e := by
  intro c hc
  obtain ⟨x, after, heq, hne⟩ := hb c hc
  have hlt := h.lawful.hashOf_lt h.size_pos k
  refine ⟨by simp [keys, heq], fun hk => ?_⟩
  obtain ⟨o, ho, rfl⟩ := List.mem_map.mp hk
  obtain ⟨rfl, -⟩ := h.eq_of_mem htype (ringIdx_lt hlt (by omega)) heq ho
  exact hne ((h.lawful.comp_zero _ _).mpr rfl)

/-- The probe of a put: the key is found, an empty slot is, or the table is full. -/
theorem scan_linear (h : Table m) (htype : m.opts.type = .linear) (k : κ) :
    (∃ e < m.size - 1, Passes m k e ∧
      ∃ l, m.scan k = some (.found l) ∧ At m l ∧ l.obj.key = k ∧ l.idx = slot m k e) ∨
    (∃ e < m.size - 1, Passes m k e ∧ m.scan k = some (.room (slot m k e) [] []) ∧
      Room m k (slot m k e) [] []) ∨
    (m.scan k = some .full ∧ Passes m k (m.size - 1)) := by
  have hlt := h.lawful.hashOf_lt h.size_pos k
  have hzero := h.lawful.comp_zero
  have hscan : m.scan k
      = some (linearScan m k ((m.hashOf k + m.size - 1) % m.size) m.size (m.hashOf k)) := by
    simp only [scan, htype, if_neg (Nat.not_le.mpr hlt)]
  have hspec := @linearScan_spec _ _ m k _ hlt (m.size - 1) 0 (by omega) (by omega)
  rw [ringIdx_zero hlt, (by omega : m.size - 1 + 1 = m.size)] at hspec
  rw [hscan]
  rcases hspec with ⟨e, he, hb, o, after, hs, heq, h0⟩ | ⟨e, he, hb, hs, heq⟩ | ⟨hs, hb⟩
  · exact Or.inl ⟨e, he, h.passes htype he.le hb, _, congrArg some hs,
      ⟨ringIdx_lt hlt (by omega), heq⟩, (hzero _ _).mp h0, rfl⟩
  · have hpass := h.passes htype he.le hb
    refine Or.inr (Or.inl ⟨e, he, hpass, congrArg some hs, ringIdx_lt hlt (by omega), heq,
      fun _ => ⟨e, he, rfl, hpass⟩, ?_⟩)
    rintro obj rfl
    refine h.setBucket ?_ ?_
    · intro o ho
      rw [List.mem_singleton.mp ho, Home, htype]
      exact ⟨e, he, rfl⟩
    · rw [Shape, htype]
      exact le_refl 1
  · exact Or.inr (Or.inr ⟨congrArg some hs, h.passes htype (le_refl _) hb⟩)

/-- **What a put finds.**  An object with the key; or room, and then the key is absent unless a
hole hides it; or a full linear table. -/
theorem scan_spec (h : Table m) (k : κ) :
    (∃ l, m.scan k = some (.found l) ∧ At m l ∧ l.obj.key = k ∧ Reached m k l.idx ∧ ¬ Adds m k) ∨
      (∃ i before after, m.scan k = some (.room i before after) ∧ Room m k i before after ∧
        Adds m k ∧ (Has m k → HoleBefore m k)) ∨
      (m.scan k = some .full ∧ m.opts.type = .linear ∧ ¬ Adds m k ∧
        Passes m k (m.size - 1)) := by
  cases htype : m.opts.type with
  | chain =>
    have hnot : ∀ i, Reached m k i := fun i hlin => by
      rw [htype] at hlin
      cases hlin
    rcases scan_chain h htype k with ⟨l, hs, hl, rfl⟩ | ⟨i, b, a, hs, hr, hk⟩
    · refine Or.inl ⟨l, hs, hl, rfl, hnot _, ?_⟩
      rw [Adds, htype]
      exact not_not.mpr hl.has
    · refine Or.inr (Or.inl ⟨i, b, a, hs, hr, ?_, fun hhas => absurd hhas hk⟩)
      rwa [Adds, htype]
  | linear =>
    have hadds : Adds m k ↔ ∃ e < m.size - 1, keys m (slot m k e) = [] ∧ Passes m k e := by
      rw [Adds, htype]
    rcases scan_linear h htype k with
      ⟨e, he, hpass, l, hs, hl, rfl, hidx⟩ | ⟨e, he, hpass, hs, hr⟩ | ⟨hs, hpass⟩
    · refine Or.inl ⟨l, hs, hl, rfl, fun _ => ⟨e, he, hidx, hpass⟩, ?_⟩
      rw [hadds]
      rintro ⟨e', he', hnil, hpass'⟩
      have hin : l.obj.key ∈ keys m (slot m l.obj.key e) := by
        rw [← hidx, keys, hl.eq]
        simp
      -- the empty slot would be before the object, at it or after it
      rcases Nat.lt_trichotomy e' e with hlt | rfl | hlt
      · exact (hpass e' hlt).1 hnil
      · rw [hnil] at hin
        cases hin
      · exact (hpass' e hlt).2 hin
    · have hnil : keys m (slot m k e) = [] := by rw [keys, hr.eq]; rfl
      refine Or.inr (Or.inl ⟨_, [], [], hs, hr, hadds.mpr ⟨e, he, hnil, hpass⟩, fun hk => ?_⟩)
      obtain ⟨i, hi, hhome, o, ho, hok⟩ := h.home_of_has hk
      rw [Home, htype] at hhome
      obtain ⟨d, hd, rfl⟩ := hhome
      have hin : k ∈ keys m (slot m k d) := List.mem_map.mpr ⟨o, ho, hok⟩
      refine ⟨htype, d, hd, hin, e, ?_, hnil⟩
      -- before the empty slot there are only other keys
      by_contra hle
      rcases (Nat.not_lt.mp hle).eq_or_lt with rfl | hlt
      · rw [hnil] at hin
        cases hin
      · exact (hpass d hlt).2 hin
    · refine Or.inr (Or.inr ⟨hs, rfl, ?_, hpass⟩)
      rw [hadds]
      rintro ⟨e, he, hnil, -⟩
      exact (hpass e he).1 hnil

/-- The probe of a put passes all slots but one. -/
def Full (m : Hmap κ β) (k : κ) : Prop := m.opts.type = .linear ∧ Passes m k (m.size - 1)

theorem Table.scan_full_iff (h : Table m) (k : κ) : m.scan k = some .full ↔ Full m k := by
  rcases scan_spec h k with
    ⟨l, hs, hl, rfl, hreached, -⟩ | ⟨i, before, after, hs, -, hadds, -⟩ | ⟨hs, htype, -, hpasses⟩
  · rw [hs]
    refine iff_of_false (by simp) ?_
    rintro ⟨htype, hpasses⟩
    obtain ⟨e, he, hidx, -⟩ := hreached htype
    refine (hpasses e he).2 ?_
    rw [← hidx]
    exact List.mem_map.mpr ⟨l.obj, by rw [hl.eq]; simp, rfl⟩
  · rw [hs]
    refine iff_of_false (by simp) ?_
    rintro ⟨htype, hpasses⟩
    rw [Adds, htype] at hadds
    obtain ⟨e, he, hempty, -⟩ := hadds
    exact (hpasses e he).1 hempty
  · rw [hs]
    exact iff_of_true rfl ⟨htype, hpasses⟩

/-- A put of `k` stores its object: it has a place for it, or may replace the one that it meets. -/
def Stores (m : Hmap κ β) (k : κ) : Prop :=
  Adds m k ∨ m.opts.noOverwrite = false ∧ ¬ Full m k

/-- A table is never empty. -/
theorem nextPrime_pos {sz idx p i : Nat} (h : nextPrime sz idx = some (p, i)) : 0 < p := by
  unfold nextPrime at h
  split at h
  · cases h
  · next hsz =>
    have hle : sz ≤ p := by simpa using List.find?_some h
    omega

/-! ## 6. Lookups after changes -/

/-- Writing back what is there. -/
theorem At.setBucket_self {l : Loc κ β} (h : At m l) :
    m.setBucket l.idx (l.before ++ l.obj :: l.after) = m := by
  rw [← h.eq, setBucket, Function.update_eq_self]

/-- The keys of a bucket are distinct. -/
theorem Table.nodup_keys (h : Table m) {i : Nat} (hi : i < m.size) : (keys m i).Nodup := by
  have hshape := h.shape i hi
  unfold Shape at hshape
  split at hshape
  · refine List.Pairwise.imp ?_ hshape
    rintro a b hlt rfl
    exact hlt.ne ((h.lawful.comp_zero a a).mpr rfl)
  · rcases hk : keys m i with _ | ⟨k, _ | ⟨k', ks⟩⟩
    · exact List.nodup_nil
    · exact List.nodup_singleton k
    · rw [hk] at hshape
      simp at hshape

/-- In one bucket an object is determined by its key. -/
theorem Table.eq_of_key (h : Table m) {i : Nat} (hi : i < m.size) {o o' : Obj κ β}
    (ho : o ∈ m.buckets i) (ho' : o' ∈ m.buckets i) (hk : o.key = o'.key) : o = o' :=
  List.inj_on_of_nodup_map (h.nodup_keys hi) ho ho' hk

/-- In a chained map, an object is determined by its key. -/
theorem Table.eq_of_chain (h : Table m) (htype : m.opts.type = .chain) {o o' : Obj κ β}
    (ho : o ∈ stored m) (ho' : o' ∈ stored m) (hk : o.key = o'.key) : o = o' := by
  obtain ⟨i, hi, hoi⟩ := mem_stored.mp ho
  obtain ⟨j, hj, hoj⟩ := mem_stored.mp ho'
  have hhome := h.home_of_mem hi hoi
  have hhome' := h.home_of_mem hj hoj
  rw [Home, htype] at hhome hhome'
  have hij : j = i := by rw [hhome, hhome', hk]
  exact h.eq_of_key hi hoi (hij ▸ hoj) hk

section Link

variable {k : κ} {i : Nat} {before after : List (Obj κ β)} {obj : Obj κ β}

/-- The objects of a bucket after one is linked. -/
theorem Room.mem_link (hr : Room m k i before after) {j : Nat} {o : Obj κ β} :
    o ∈ (m.setBucket i (before ++ obj :: after)).buckets j ↔
      (j = i ∧ o = obj) ∨ o ∈ m.buckets j := by
  by_cases hj : j = i
  · subst hj
    rw [setBucket_self, hr.eq]
    simp [or_left_comm]
  · rw [setBucket_of_ne hj]
    simp [hj]

/-- Linking an object does not change what a lookup of another key finds. -/
theorem find_link (h : Table m) (hr : Room m obj.key i before after) (hne : k ≠ obj.key)
    {l : Loc κ β} (hl : At m l) (hk : l.obj.key = k) (hfirst : First m k l.idx) :
    ∃ l', (m.setBucket i (before ++ obj :: after)).find k = some (some l') ∧
      At (m.setBucket i (before ++ obj :: after)) l' ∧ l'.obj = l.obj := by
  have h' : Table (m.setBucket i (before ++ obj :: after)) := hr.link obj rfl
  have hlt := h.lawful.hashOf_lt h.size_pos k
  have hold : ∀ {j : Nat} {o : Obj κ β}, o ∈ (m.setBucket i (before ++ obj :: after)).buckets j →
      o.key = k → o ∈ m.buckets j := by
    intro j o ho hok
    rcases hr.mem_link.mp ho with ⟨-, rfl⟩ | ho
    · exact absurd hok.symm hne
    · exact ho
  have hmem : l.obj ∈ m.buckets l.idx := by rw [hl.eq]; simp
  have hmem' : l.obj ∈ (m.setBucket i (before ++ obj :: after)).buckets l.idx :=
    hr.mem_link.mpr (Or.inr hmem)
  rcases find_spec h' k with ⟨l', hfind, hl', hk', hfirst'⟩ | ⟨-, hnot⟩
  · have hlmem : l'.obj ∈ (m.setBucket i (before ++ obj :: after)).buckets l'.idx := by
      rw [hl'.eq]
      simp
    refine ⟨l', hfind, hl', ?_⟩
    have hidx : l'.idx = l.idx := by
      cases htype : m.opts.type with
      | chain =>
        rw [First, htype] at hfirst
        rw [First, setBucket_opts, htype] at hfirst'
        exact hfirst'.trans hfirst.symm
      | linear =>
        rw [First, htype] at hfirst
        rw [First, setBucket_opts, htype] at hfirst'
        obtain ⟨e, he, hidx, hall⟩ := hfirst
        obtain ⟨e', he', hidx', hall'⟩ := hfirst'
        have hslot : ∀ c, slot (m.setBucket i (before ++ obj :: after)) k c = slot m k c :=
          fun _ => rfl
        rcases Nat.lt_trichotomy e e' with hlt' | rfl | hlt'
        · refine absurd (List.mem_map.mpr ⟨l.obj, ?_, hk⟩) (hall' e hlt')
          rwa [hslot, ← hidx]
        · rw [hidx', hidx, hslot]
        · refine absurd (List.mem_map.mpr ⟨l'.obj, hold ?_ hk', hk'⟩) (hall e' hlt')
          rwa [← hslot, ← hidx']
    rw [hidx] at hlmem
    exact h'.eq_of_key hl.idx_lt hlmem hmem' (hk'.trans hk.symm)
  · exact absurd ⟨l.obj, mem_stored.mpr ⟨_, hl.idx_lt, hmem'⟩, hk⟩ hnot

/-- In a linear table, a lookup of the key of the linked object finds this object. -/
theorem find_link_self (h : Table m) (htype : m.opts.type = .linear)
    (hr : Room m obj.key i before after) :
    ∃ l', (m.setBucket i (before ++ obj :: after)).find obj.key = some (some l') ∧
      At (m.setBucket i (before ++ obj :: after)) l' ∧ l'.obj = obj := by
  have h' : Table (m.setBucket i (before ++ obj :: after)) := hr.link obj rfl
  have hlt := h.lawful.hashOf_lt h.size_pos obj.key
  have hslot : ∀ c, slot (m.setBucket i (before ++ obj :: after)) obj.key c = slot m obj.key c :=
    fun _ => rfl
  have hmem : obj ∈ (m.setBucket i (before ++ obj :: after)).buckets i :=
    hr.mem_link.mpr (Or.inl ⟨rfl, rfl⟩)
  obtain ⟨e, he, rfl, hpass⟩ := hr.reached htype
  rcases find_spec h' obj.key with ⟨l', hfind, hl', hk', hfirst⟩ | ⟨-, hnot⟩
  · have hlmem : l'.obj ∈
        (m.setBucket (slot m obj.key e) (before ++ obj :: after)).buckets l'.idx := by
      rw [hl'.eq]
      simp
    refine ⟨l', hfind, hl', ?_⟩
    rw [First, setBucket_opts, htype] at hfirst
    obtain ⟨e', he', hidx, hall⟩ := hfirst
    rw [setBucket_size] at he'
    rw [hslot] at hidx
    rcases Nat.lt_trichotomy e' e with hlt' | rfl | hlt'
    · rw [hidx] at hlmem
      rcases hr.mem_link.mp hlmem with ⟨heq, -⟩ | hold
      · exact absurd (ringIdx_inj (by omega) (by omega) heq) hlt'.ne
      · exact absurd (List.mem_map.mpr ⟨_, hold, hk'⟩) (hpass e' hlt').2
    · rw [hidx] at hlmem
      exact h'.eq_of_key hr.idx_lt hlmem hmem hk'
    · exact absurd (List.mem_map.mpr ⟨obj, hmem, rfl⟩) (hall e hlt')
  · exact absurd ⟨obj, mem_stored.mpr ⟨_, hr.idx_lt, hmem⟩, rfl⟩ hnot

end Link

end Specs

end Libu.Hmap
