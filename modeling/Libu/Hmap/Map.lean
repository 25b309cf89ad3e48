/-
# Hash maps without a discard policy are finite maps

A map is read as the function `contents` from keys to values, and every call is compared with a step
of a finite map (`MapStep`).  The resize in the middle of a put is part of the put: the new table is
filled by puts of its own, which find their keys absent and never resize again.

* `chain_finite_map`: with chaining, every run is a run of the finite map.
* `finite_map_iff`: with linear probing it is one exactly when no put starts while an empty slot
  comes before its key on the probe.  Deleting makes such slots, and a put takes the first empty
  slot it meets: the key is then stored twice.

A put whose resize fails is refused and changes nothing; both theorems say when that happens.

The comparison is between lists of objects with different keys, up to their order.  Where an object
is in the table is known from `Libu.Hmap.Table`, and is not looked at any more: what counts here is
that a put adds its object or has it take the place of the one with its key, and that a delete takes
away the one with the key.

* §1: contents.
* §2: empty slots that hide a key (`HoleBefore`).
* §3: the sizes of tables, by the list of primes.
* §4 and §5: puts without and with a resize.
* §6 on: the calls, and their runs.
-/
import Libu.Hmap.Table
import Libu.Verif.Run
import Mathlib.Data.List.Flatten
import Mathlib.Data.List.Sigma

namespace Libu.Hmap

open Verif
open scoped List

variable {κ β : Type} {m : Hmap κ β}

/-! ## 1. Contents -/

/-- The stored objects, less their queue pointers. -/
def hos (m : Hmap κ β) : List (Ho κ β) := (stored m).map Obj.toHo

/-- What an object says about its key. -/
def Ho.entry (ho : Ho κ β) : (_ : κ) × β := ⟨ho.key, ho.val⟩

/-- No two objects have the same key. -/
def Distinct (l : List (Ho κ β)) : Prop := (l.map Ho.key).Nodup

/-- The function that a list of objects stands for. -/
def lookup [DecidableEq κ] (l : List (Ho κ β)) (k : κ) : Option β := (l.map Ho.entry).dlookup k

/-- The finite map that a hash map stands for. -/
def contents [DecidableEq κ] (m : Hmap κ β) : κ → Option β := lookup (hos m)

/-- The order of the objects is no matter. -/
theorem Distinct.perm {l l' : List (Ho κ β)} (h : Distinct l) (p : l ~ l') : Distinct l' :=
  (p.map Ho.key).nodup_iff.mp h

/-- One object more, with a key that is not there. -/
theorem distinct_cons {ho : Ho κ β} {l : List (Ho κ β)} :
    Distinct (ho :: l) ↔ ho.key ∉ l.map Ho.key ∧ Distinct l := List.nodup_cons

theorem keys_entry (l : List (Ho κ β)) : (l.map Ho.entry).keys = l.map Ho.key := by
  rw [List.keys, List.map_map]
  rfl

section Lookup

variable [DecidableEq κ]

/-- Where keys are different, the order does not matter for what is looked up either. -/
theorem lookup_perm {l l' : List (Ho κ β)} (h : Distinct l) (p : l ~ l') :
    lookup l = lookup l' := by
  funext k
  refine List.perm_dlookup k ?_ (p.map Ho.entry)
  rwa [List.NodupKeys, keys_entry]

/-- One object more updates the function at its key. -/
theorem lookup_cons (ho : Ho κ β) (l : List (Ho κ β)) :
    lookup (ho :: l) = Function.update (lookup l) ho.key (some ho.val) := by
  funext k
  by_cases hk : k = ho.key
  · subst hk
    rw [Function.update_self]
    exact List.dlookup_cons_eq _ _ _
  · rw [Function.update_of_ne hk]
    exact List.dlookup_cons_ne _ _ hk

/-- A key is looked up in vain if and only if it is not there. -/
theorem lookup_eq_none {l : List (Ho κ β)} {k : κ} : lookup l k = none ↔ k ∉ l.map Ho.key := by
  rw [lookup, List.dlookup_eq_none, keys_entry]

end Lookup

/-- The keys of the contents are the keys that are stored. -/
theorem mem_keys_hos {k : κ} : k ∈ (hos m).map Ho.key ↔ Has m k := by
  simp [hos, Has]

theorem distinct_hos : Distinct (hos m) ↔ ((stored m).map fun o => o.key).Nodup := by
  rw [Distinct, hos, List.map_map]
  rfl

/-- What unlinking or replacing the object at a pointer does to the stored objects. -/
theorem At.hos_perm {l : Loc κ β} (h : At m l) : ∃ rest, hos m ~ l.obj.toHo :: rest ∧
    hos (m.setBucket l.idx (l.before ++ l.after)) ~ rest ∧
    ∀ obj : Obj κ β, hos (m.setBucket l.idx (l.before ++ obj :: l.after)) ~ obj.toHo :: rest := by
  obtain ⟨rest, hrest, hrem, hrepl⟩ := h.exists_rest
  exact ⟨rest.map Obj.toHo, hrest.map Obj.toHo, hrem.map Obj.toHo,
    fun obj => (hrepl obj).map Obj.toHo⟩

/-- Linking an object adds it to the contents. -/
theorem Room.hos_perm {k : κ} {i : Nat} {before after : List (Obj κ β)}
    (h : Room m k i before after)
    (obj : Obj κ β) : hos (m.setBucket i (before ++ obj :: after)) ~ obj.toHo :: hos m :=
  (stored_link h.idx_lt h.eq obj).map Obj.toHo

@[simp] theorem hos_setPqe (m : Hmap κ β) (ptr : Nat) (pqe : Option Nat) :
    hos (m.setPqe ptr pqe) = hos m := by
  rw [hos, hos, stored_setPqe, List.map_map]
  refine List.map_congr_left ?_
  intro o _
  simp only [Function.comp]
  split <;> rfl

/-- Two objects with the same key in a map with distinct keys are in the same bucket. -/
theorem eq_idx_of_distinct (hd : Distinct (hos m)) {l : Loc κ β} (hl : At m l) {i : Nat}
    (hi : i < m.size) (hk : l.obj.key ∈ keys m i) : i = l.idx := by
  by_contra hne
  obtain ⟨o, ho, hok⟩ := List.mem_map.mp hk
  have hmem : o ∈ others m l.idx := by
    refine List.mem_flatMap.mpr ⟨i, ?_, ho⟩
    exact (List.mem_erase_of_ne hne).mpr (List.mem_range.mpr hi)
  have hd' := hd.perm (hl.stored_perm.map Obj.toHo)
  rw [List.map_cons, distinct_cons, List.map_map] at hd'
  refine hd'.1 ?_
  rw [← hok]
  exact List.mem_map.mpr ⟨o, List.mem_append_right _ hmem, rfl⟩

/-! ## 2. Holes -/

/-- No key is hidden behind an empty slot. -/
def Compact (m : Hmap κ β) : Prop := ∀ k, ¬ HoleBefore m k

/-- Whether a key is hidden is a matter of the keys in the slots. -/
theorem Compact.congr {m' : Hmap κ β} (h : Compact m) (hopts : m'.opts = m.opts)
    (hsize : m'.size = m.size) (hkeys : keys m' = keys m) : Compact m' := by
  intro k hk
  refine h k ?_
  simpa only [HoleBefore, slot, hashOf, hopts, hsize, hkeys] using hk

/-- A key that the probe reaches without a gap is not behind a hole. -/
theorem not_holeBefore (hd : Distinct (hos m)) (ht : Table m) {l : Loc κ β} (hl : At m l)
    (hr : Reached m l.obj.key l.idx) : ¬ HoleBefore m l.obj.key := by
  rintro ⟨htype, e, he, hk, d, hde, hnil⟩
  obtain ⟨e', he', hidx, hall⟩ := hr htype
  have hlt := ht.lawful.hashOf_lt ht.size_pos l.obj.key
  have heq : slot m l.obj.key e = l.idx :=
    eq_idx_of_distinct hd hl (ringIdx_lt hlt (by omega)) hk
  obtain rfl : e = e' := ringIdx_inj (by omega) (by omega) (heq.trans hidx)
  exact (hall d hde).1 hnil

/-- Linking an object where the probe first meets an empty slot makes no hole. -/
theorem Compact.link (h : Compact m) {k : κ} {i : Nat} {before after : List (Obj κ β)}
    (hr : Room m k i before after) {obj : Obj κ β} (hk : obj.key = k) :
    Compact (m.setBucket i (before ++ obj :: after)) := by
  rintro k' ⟨htype, e, he, hmem, d, hde, hnil⟩
  rw [setBucket_size] at he
  have hslot : ∀ c, slot (m.setBucket i (before ++ obj :: after)) k' c = slot m k' c := fun _ => rfl
  rw [hslot] at hmem hnil
  -- the hole was there before
  have hdi : slot m k' d ≠ i := by
    intro hdi
    rw [hdi, keys, setBucket_self] at hnil
    simp at hnil
  rw [keys, setBucket_of_ne hdi] at hnil
  by_cases hei : slot m k' e = i
  · have hold : keys m i = (before ++ after).map fun o => o.key := by rw [keys, hr.eq]
    rw [hei, keys, setBucket_self] at hmem
    have hcases : k' = obj.key ∨ k' ∈ keys m i := by
      rw [hold]
      simpa [or_left_comm, eq_comm] using hmem
    rcases hcases with rfl | hin
    · subst hk
      obtain ⟨e', he', hidx, hall⟩ := hr.reached htype
      obtain rfl : e = e' := ringIdx_inj (by omega) (by omega) (hei.trans hidx)
      exact (hall d hde).1 hnil
    · exact h k' ⟨htype, e, he, hei ▸ hin, d, hde, hnil⟩
  · rw [keys, setBucket_of_ne hei] at hmem
    exact h k' ⟨htype, e, he, hmem, d, hde, hnil⟩

/-- A full linear table has an object in all slots but one. -/
theorem length_stored_of_full (ht : Table m) {k : κ} (hfull : Passes m k (m.size - 1)) :
    m.size - 1 ≤ (stored m).length := by
  have hlt := ht.lawful.hashOf_lt ht.size_pos k
  have hnodup : ((List.range (m.size - 1)).map (slot m k)).Nodup := by
    refine List.Nodup.map_on ?_ List.nodup_range
    intro a ha b hb hab
    rw [List.mem_range] at ha hb
    exact ringIdx_inj (by omega) (by omega) hab
  have hsub : (List.range (m.size - 1)).map (slot m k) ⊆ List.range m.size := by
    intro i hi
    obtain ⟨c, hc, rfl⟩ := List.mem_map.mp hi
    rw [List.mem_range] at hc ⊢
    exact ringIdx_lt hlt (by omega)
  obtain ⟨slots, hperm, hslots⟩ := List.subperm_of_subset hnodup hsub
  have hone : ∀ l : List Nat, (∀ i ∈ l, keys m i ≠ []) → l.length ≤
    (l.flatMap m.buckets).length := by
    intro l
    induction l with
    | nil => simp
    | cons i l ih =>
      intro h
      have hi : m.buckets i ≠ [] := fun hb => h i (List.mem_cons_self ..) (by rw [keys, hb]; rfl)
      have hrest := ih fun j hj => h j (List.mem_cons_of_mem _ hj)
      have hpos := List.length_pos_of_ne_nil hi
      rw [List.flatMap_cons, List.length_append, List.length_cons]
      omega
  have hle := hone _ (fun i hi => by
    obtain ⟨c, hc, rfl⟩ := List.mem_map.mp hi
    exact (hfull c (List.mem_range.mp hc)).1)
  rw [List.length_map, List.length_range, ← (hperm.flatMap_right m.buckets).length_eq] at hle
  exact hle.trans (hslots.flatMap m.buckets).length_le

/-! ## 3. Sizes -/

theorem primes_sorted : primes.Pairwise (· < ·) := by decide

/-- The sizes of tables fit an `int`. -/
theorem primes_bounds : ∀ p ∈ primes, 13 ≤ p ∧ p ≤ 2147483647 := by decide

/-- They go up. -/
theorem primes_mono {i j p q : Nat} (hij : i ≤ j) (hp : primes[i]? = some p)
    (hq : primes[j]? = some q) : p ≤ q := by
  obtain ⟨hi, rfl⟩ := List.getElem?_eq_some_iff.mp hp
  obtain ⟨hj, rfl⟩ := List.getElem?_eq_some_iff.mp hq
  rcases hij.eq_or_lt with rfl | hlt
  · exact le_refl _
  · exact (List.pairwise_iff_getElem.mp primes_sorted i j hi hj hlt).le

/-- `__next_prime` of an entry of the table is this entry. -/
theorem nextPrime_prime : ∀ p ∈ primes.zipIdx, nextPrime p.1 0 = some p := by decide +kernel

theorem mem_drop_zipIdx {idx p i : Nat} :
    (p, i) ∈ primes.zipIdx.drop idx ↔ idx ≤ i ∧ primes[i]? = some p := by
  rw [List.mem_iff_getElem?]
  simp only [List.getElem?_drop, List.getElem?_zipIdx]
  constructor
  · rintro ⟨n, hn⟩
    obtain ⟨q, hq, heq⟩ := Option.map_eq_some_iff.mp hn
    obtain ⟨rfl, rfl⟩ := Prod.mk.inj heq
    exact ⟨by omega, by simpa using hq⟩
  · rintro ⟨hle, hp⟩
    refine ⟨i - idx, ?_⟩
    rw [(by omega : idx + (i - idx) = i), hp]
    simp

/-- `__next_prime` gives a size that is large enough, further on in the list. -/
theorem nextPrime_some {sz idx p i : Nat} (h : nextPrime sz idx = some (p, i)) :
    sz ≤ p ∧ idx ≤ i ∧ primes[i]? = some p := by
  unfold nextPrime at h
  split at h
  · cases h
  · exact ⟨by simpa using List.find?_some h, mem_drop_zipIdx.mp (List.mem_of_find?_eq_some h)⟩

/-- `__next_prime` only fails above the end of its table. -/
theorem nextPrime_none {sz idx : Nat} (hsz : 0 < sz) {q : Nat} (hidx : primes[idx]? = some q)
    (h : nextPrime sz idx = none) : 2147483647 < sz := by
  unfold nextPrime at h
  rw [if_neg hsz.ne'] at h
  obtain ⟨hlt, -⟩ := List.getElem?_eq_some_iff.mp hidx
  have hlast : (2147483647, 70) ∈ primes.zipIdx.drop idx :=
    mem_drop_zipIdx.mpr ⟨Nat.le_of_lt_succ hlt, rfl⟩
  simpa using List.find?_eq_none.mp h _ hlast

/-- What a map without policy keeps between resizes; `opts` are the options it was created
with. -/
structure Sizes (opts : Opts κ β) (m : Hmap κ β) : Prop where
  opts_eq : m.opts = { opts with size := m.opts.size }
  policy : opts.policy = .none
  ready : optsCheck m.opts = true
  threshold_eq : m.threshold = 3 * m.size / 4
  size_ge : 13 ≤ m.size
  size_le : m.size ≤ 2147483647
  opts_size : m.opts.size ≤ m.size
  px_prime : ∃ q, primes[m.px]? = some q ∧ m.size ≤ q

/-- **The invariant of a map without policy.**  One object more than the threshold is possible
after a resize that did not grow the table, which happens to maps with an initial size below 5. -/
structure Plain (opts : Opts κ β) (m : Hmap κ β) : Prop extends Table m, Sizes opts m where
  distinct : Distinct (hos m)
  sz_eq : m.sz = (hos m).length
  sz_le : m.sz ≤ m.threshold ∨ (m.opts.size = m.size ∧ m.sz ≤ m.threshold + 1)

/-- A step that leaves the options and the sizes alone. -/
structure Kept (m m' : Hmap κ β) : Prop where
  opts : m'.opts = m.opts
  size : m'.size = m.size
  threshold : m'.threshold = m.threshold
  px : m'.px = m.px

variable {opts : Opts κ β}

/-- Steps that keep the sizes keep what is known of them. -/
theorem Sizes.kept {m' : Hmap κ β} (h : Sizes opts m) (hk : Kept m m') : Sizes opts m' := by
  obtain ⟨h₁, h₂, h₃, h₄, h₅, h₆, h₇, h₈⟩ := h
  obtain ⟨ho, hs, ht, hx⟩ := hk
  exact ⟨by rwa [ho], h₂, by rwa [ho], by rwa [ht, hs], by rwa [hs], by rwa [hs], by rwa [ho, hs],
    by rwa [hx, hs]⟩

theorem Kept.trans {m₁ m₂ m₃ : Hmap κ β} (h : Kept m₁ m₂) (h' : Kept m₂ m₃) : Kept m₁ m₃ :=
  ⟨h'.opts.trans h.opts, h'.size.trans h.size, h'.threshold.trans h.threshold, h'.px.trans h.px⟩

/-- The options with another size. -/
theorem Lawful.resized (h : Lawful opts) (n : Nat) : Lawful { opts with size := n } :=
  ⟨h.hash_lt, h.comp_zero, h.comp_order⟩

/-- Empty buckets store nothing. -/
theorem stored_of_empty (h : ∀ i, m.buckets i = []) : stored m = [] := by
  simp [stored, h]

/-- A new map is empty and satisfies the invariant. -/
theorem new_plain {brk : Nat} {freed : List (Ho κ β)} {avail : Nat → QMem} (hl : Lawful opts)
    (hp : opts.policy = .none) (hnew : new opts brk freed avail = some m) :
    Plain opts m ∧ Compact m ∧ hos m = [] ∧ m.opts = opts ∧ m.sz = 0 := by
  unfold new at hnew
  split at hnew
  · cases hnew
  · next hcheck =>
    simp only [Option.bind_eq_bind, Option.bind_eq_some_iff, Prod.exists] at hnew
    obtain ⟨size, px, hprime, heq⟩ := hnew
    obtain rfl := Option.some.inj heq
    obtain ⟨hle, -, hget⟩ := nextPrime_some hprime
    have hbounds := primes_bounds size (List.mem_of_getElem? hget)
    have hhos : hos ⟨opts, 0, size, 3 * size / 4, px, fun _ => [], [], brk, freed, avail⟩ = [] := by
      rw [hos, stored_of_empty fun _ => rfl, List.map_nil]
    have hpos : 0 < size := by omega
    refine ⟨⟨table_of_empty hl hpos fun _ _ => rfl, ⟨rfl, hp, by simpa using hcheck, rfl,
      hbounds.1, hbounds.2, hle, size, hget, le_refl size⟩, ?_, ?_, Or.inl (Nat.zero_le _)⟩, ?_,
      hhos, rfl, rfl⟩
    · rw [hhos]
      exact List.nodup_nil
    · rw [hhos]
      rfl
    · rintro k ⟨-, e, -, hk, -⟩
      cases hk

/-! ## 4. Puts without a resize -/

/-- `m'` is `m` with one more object. -/
structure Linked (m : Hmap κ β) (obj : Obj κ β) (m' : Hmap κ β) : Prop where
  kept : Kept m m'
  table : Table m'
  perm : hos m' ~ obj.toHo :: hos m
  sz : m'.sz = m.sz + 1
  compact : Compact m → Compact m'

/-- A put that finds room links its object. -/
theorem putPlace_room (h : Plain opts m) {obj : Obj κ β} {i : Nat} {before after : List (Obj κ β)}
    (hs : m.scan obj.key = some (.room i before after)) (hr : Room m obj.key i before after) :
    ∃ m', m.putPlace obj = some (⟨.errNone, none⟩, m') ∧ Linked m obj m' := by
  have hpol : m.opts.policy = .none := by rw [h.opts_eq]; exact h.policy
  have hsz : m.sz + 1 < 2 ^ 64 := by
    have h₁ := h.sz_le
    have h₂ := h.threshold_eq
    have h₃ := h.size_le
    omega
  refine ⟨{ (m.setBucket i (before ++ obj :: after)).setPqe obj.ptr obj.pqe with
    sz := SizeT.add m.sz 1 }, ?_, ⟨rfl, rfl, rfl, rfl⟩, ?_, ?_, SizeT.add_of_lt hsz, ?_⟩
  · simp [putPlace, putEnd, putCount, hs, hpol, opPut, setPqe, setBucket]
  · exact ((hr.link obj rfl).setPqe obj.ptr obj.pqe).of_buckets rfl rfl rfl
  · have hperm := hr.hos_perm obj
    rw [← hos_setPqe _ obj.ptr obj.pqe] at hperm
    exact hperm
  · intro hc
    exact (hc.link hr rfl).congr rfl rfl (keys_setPqe _ obj.ptr obj.pqe)

/-- With room for one more object, linking a new key keeps the invariant. -/
theorem Plain.linked (h : Plain opts m) {obj : Obj κ β} {m' : Hmap κ β} (hl : Linked m obj m')
    (hk : ¬ Has m obj.key)
    (hsz : m.sz < m.threshold ∨ (m.opts.size = m.size ∧ m.sz ≤ m.threshold)) : Plain opts m' := by
  refine ⟨hl.table, h.toSizes.kept hl.kept, ?_, ?_, ?_⟩
  · refine Distinct.perm (distinct_cons.mpr ⟨?_, h.distinct⟩) hl.perm.symm
    exact fun hmem => hk (mem_keys_hos.mp hmem)
  · rw [hl.sz, hl.perm.length_eq, List.length_cons, h.sz_eq]
  · rw [hl.sz, hl.kept.threshold, hl.kept.opts, hl.kept.size]
    omega

/-- A full table would hold more objects than the threshold. -/
theorem Plain.not_full (h : Plain opts m) (hsz : m.sz ≤ m.threshold) (k : κ) :
    ¬ Passes m k (m.size - 1) := by
  intro hfull
  have hlen := length_stored_of_full h.toTable hfull
  have hsz_eq := h.sz_eq
  have hthr := h.threshold_eq
  have hge := h.size_ge
  rw [hos, List.length_map] at hsz_eq
  omega

/-- There is always room for a new key. -/
theorem putPlace_absent (h : Plain opts m) {obj : Obj κ β} (hk : ¬ Has m obj.key)
    (hsz : m.sz ≤ m.threshold) :
    ∃ m', m.putPlace obj = some (⟨.errNone, none⟩, m') ∧ Linked m obj m' := by
  rcases scan_spec h.toTable obj.key with ⟨l, -, hl, hlk, -⟩ |
    ⟨i, b, a, hs, hr, -⟩ | ⟨-, -, -, hfull⟩
  · exact absurd (hlk ▸ hl.has) hk
  · exact putPlace_room h hs hr
  · exact absurd hfull (h.not_full hsz obj.key)

/-- A put that finds its key is refused, or replaces the object in its place. -/
theorem putPlace_found (h : Plain opts m) {obj : Obj κ β} {l : Loc κ β}
    (hs : m.scan obj.key = some (.found l)) (hl : At m l) (hk : l.obj.key = obj.key) :
    (opts.noOverwrite = true ∧ ∃ m', m.putPlace obj
        = some (⟨.errExists, handedOut opts l.obj.toHo⟩, m') ∧
      Kept m m' ∧ m'.sz = m.sz ∧ Table m' ∧ hos m' = hos m) ∨
    (opts.noOverwrite = false ∧ ∃ m' rest, m.putPlace obj
        = some (⟨.errNone, handedOut opts l.obj.toHo⟩, m') ∧
      Kept m m' ∧ m'.sz = m.sz ∧ Table m' ∧ hos m ~ l.obj.toHo :: rest ∧
      hos m' ~ obj.toHo :: rest) := by
  have hpol : m.opts.policy = .none := by rw [h.opts_eq]; exact h.policy
  have hno : m.opts.noOverwrite = opts.noOverwrite := by rw [h.opts_eq]
  have howns : m.opts.ownsData = opts.ownsData := by rw [h.opts_eq]
  cases hcase : opts.noOverwrite with
  | true =>
    refine Or.inl ⟨rfl, ?_⟩
    cases hown : opts.ownsData with
    | true =>
      refine ⟨m.oFree obj.toHo, ?_, ⟨rfl, rfl, rfl, rfl⟩, rfl,
        h.toTable.of_buckets rfl rfl rfl, rfl⟩
      simp [putPlace, oOverwrite, hs, hno, howns, hcase, hown, handedOut]
    | false =>
      refine ⟨m, ?_, ⟨rfl, rfl, rfl, rfl⟩, rfl, h.toTable, rfl⟩
      simp [putPlace, oOverwrite, hs, hno, howns, hcase, hown, handedOut]
  | false =>
    obtain ⟨rest, hrest, -, hrepl⟩ := hl.hos_perm
    refine Or.inr ⟨rfl, { m.setBucket l.idx (l.before ++ obj :: l.after) with
      freed := released m.opts l.obj.toHo m.freed }, rest, ?_, ⟨rfl, rfl, rfl, rfl⟩, rfl,
      (h.toTable.replace hl hk.symm).of_buckets rfl rfl rfl, hrest, hrepl obj⟩
    have hover : m.putPlace obj = m.oOverwrite l obj := by simp only [putPlace, hs]; rfl
    rw [hover, oOverwrite, if_neg (by simp [hno, hcase])]
    simp only [hpol, opPut]
    rw [handedOut, ← howns]
    exact congrArg some (congrArg (Prod.map (Res.mk .errNone) id)
      (dispose_eq (m.setBucket l.idx (l.before ++ obj :: l.after)) l.obj.toHo))

/-! ## 5. Resizes -/

/-- A put function that does not resize a map with room. -/
def NoResize (put : Hmap κ β → Obj κ β → Option (Res κ β × Hmap κ β)) : Prop :=
  ∀ m obj, m.sz < m.threshold → put m obj = m.putPlace obj

theorem putAt_noResize (mem : Mem) (depth : Nat) : NoResize (@putAt κ β mem depth) := by
  intro m obj h
  have hcond : ¬ (m.threshold ≤ m.sz ∧ m.opts.policy = .none) := fun hc => absurd hc.1 (by omega)
  cases depth <;> simp [putAt, putWith, hcond]

/-- What a copy needs to go right: the objects `l` can all be put into `dst` before it resizes. -/
structure Fits (opts : Opts κ β) (dst : Hmap κ β) (l : List (Ho κ β)) : Prop where
  plain : Plain opts dst
  compact : Compact dst
  room : dst.sz + l.length ≤ dst.threshold
  distinct : Distinct (l ++ hos dst)

/-- What a copy makes of `dst`. -/
structure Filled (opts : Opts κ β) (dst : Hmap κ β) (l : List (Ho κ β)) (dst' : Hmap κ β) :
    Prop where
  plain : Plain opts dst'
  compact : Compact dst'
  kept : Kept dst dst'
  perm : hos dst' ~ l ++ hos dst

/-- A copy counts what it copies. -/
theorem Filled.sz {dst dst' : Hmap κ β} {l : List (Ho κ β)} (h : Filled opts dst l dst')
    (hdst : Plain opts dst) : dst'.sz = l.length + dst.sz := by
  rw [h.plain.sz_eq, h.perm.length_eq, List.length_append, hdst.sz_eq]

/-- One step of a copy. -/
theorem Fits.put {dst : Hmap κ β} {obj : Obj κ β} {l : List (Ho κ β)}
    (h : Fits opts dst (obj.toHo :: l)) :
    ∃ dst', (∀ put, NoResize put → put dst obj = some (⟨.errNone, none⟩, dst')) ∧
      Fits opts dst' l ∧ Filled opts dst [obj.toHo] dst' := by
  have hroom := h.room
  rw [List.length_cons] at hroom
  have hlt : dst.sz < dst.threshold := by omega
  have hd := h.distinct
  rw [List.cons_append, distinct_cons, List.map_append, List.mem_append, not_or] at hd
  have hk : ¬ Has dst obj.key := fun hhas => hd.1.2 (mem_keys_hos.mpr hhas)
  obtain ⟨dst', hput, hlink⟩ := putPlace_absent h.plain hk hlt.le
  have hplain := h.plain.linked hlink hk (Or.inl hlt)
  refine ⟨dst', fun put hnr => (hnr dst obj hlt).trans hput,
    ⟨hplain, hlink.compact h.compact, ?_, ?_⟩,
    ⟨hplain, hlink.compact h.compact, hlink.kept, hlink.perm⟩⟩
  · rw [hlink.sz, hlink.kept.threshold]
    omega
  · refine h.distinct.perm (List.Perm.trans ?_ (hlink.perm.symm.append_left l))
    exact List.perm_middle.symm

/-- A copy of several objects is one of the first and one of the rest. -/
theorem Filled.cons {dst dst₁ dst₂ : Hmap κ β} {ho : Ho κ β} {l : List (Ho κ β)}
    (h₁ : Filled opts dst [ho] dst₁) (h₂ : Filled opts dst₁ l dst₂) :
    Filled opts dst (ho :: l) dst₂ :=
  ⟨h₂.plain, h₂.compact, h₁.kept.trans h₂.kept,
    (h₂.perm.trans (h₁.perm.append_left l)).trans List.perm_middle⟩

/-- The inner loop of a copy. -/
theorem copyBucket_spec (i : Nat) : ∀ (l : List (Obj κ β)) {rest : List (Ho κ β)}
    {dst : Hmap κ β} (src : Hmap κ β), Fits opts dst (l.map Obj.toHo ++ rest) →
    ∃ dst' src', (∀ put, NoResize put → copyBucket put i l dst src = some (true, dst', src')) ∧
      Fits opts dst' rest ∧ Filled opts dst (l.map Obj.toHo) dst' ∧
      ∀ j ≠ i, src'.buckets j = src.buckets j
  | [], _, dst, src, h =>
    ⟨dst, src, fun _ _ => rfl, h, ⟨h.plain, h.compact, ⟨rfl, rfl, rfl, rfl⟩, List.Perm.refl _⟩,
      fun _ _ => rfl⟩
  | obj :: l, rest, dst, src, h => by
    obtain ⟨dst₁, hput, hfits, hfill⟩ := h.put
    obtain ⟨dst', src', hcopy, hfits', hfill', hsrc⟩ := copyBucket_spec i l
      (src.setBucket i l) hfits
    refine ⟨dst', src', fun put hnr => ?_, hfits', hfill.cons hfill', fun j hj => ?_⟩
    · simp [copyBucket, hput put hnr, hcopy put hnr]
    · rw [hsrc j hj, setBucket_of_ne hj]

/-- The outer loop of a copy. -/
theorem copyBuckets_spec : ∀ (is : List Nat) {dst : Hmap κ β} (src : Hmap κ β), is.Nodup →
    Fits opts dst ((is.flatMap src.buckets).map Obj.toHo) →
    ∃ dst' src', (∀ put, NoResize put → copyBuckets put is dst src = some (true, dst', src')) ∧
      Filled opts dst ((is.flatMap src.buckets).map Obj.toHo) dst'
  | [], dst, src, _, h =>
    ⟨dst, src, fun _ _ => rfl, h.plain, h.compact, ⟨rfl, rfl, rfl, rfl⟩, List.Perm.refl _⟩
  | i :: is, dst, src, hnd, h => by
    rw [List.flatMap_cons, List.map_append] at h ⊢
    obtain ⟨hi, his⟩ := List.nodup_cons.mp hnd
    obtain ⟨dst₁, src₁, hcopy, hfits, hfill, hsrc⟩ := copyBucket_spec i (src.buckets i) src h
    have hsame : is.flatMap src₁.buckets = is.flatMap src.buckets := by
      refine List.flatMap_congr ?_
      intro j hj
      exact hsrc j (fun hji => hi (hji ▸ hj))
    rw [← hsame] at hfits ⊢
    obtain ⟨dst', src', hcopy', hfill'⟩ := copyBuckets_spec is src₁ his hfits
    refine ⟨dst', src', fun put hnr => ?_, hfill'.plain, hfill'.compact,
      hfill.kept.trans hfill'.kept, ?_⟩
    · simp [copyBuckets, hcopy put hnr, hcopy' put hnr]
    · refine (hfill'.perm.trans (hfill.perm.append_left _)).trans ?_
      rw [← List.append_assoc]
      exact List.perm_append_comm.append_right _

/-- When the resize that a put asks for fails. -/
def ResizeFails (m : Hmap κ β) (mem : Mem) : Prop :=
  m.threshold ≤ m.sz ∧ (mem ≠ .ok ∨ 2147483647 < 3 * m.opts.size)

/-- `m'` is `m` with a larger table. -/
structure Grown (m m' : Hmap κ β) : Prop where
  full : m.threshold ≤ m.sz
  opts_size : m'.opts.size = m'.size
  prime : nextPrime (3 * m.opts.size) m.px = some (m'.size, m'.px)

theorem Grown.kept {m₁ m₂ : Hmap κ β} (h : Grown m m₁) (hk : Kept m₁ m₂) : Grown m m₂ := by
  refine ⟨h.full, ?_, ?_⟩
  · rw [hk.opts, hk.size, h.opts_size]
  · rw [hk.size, hk.px, h.prime]

/-- The new map of a resize, and what it can take. -/
theorem fits_new (h : Plain opts m) {size px : Nat} (hge : 3 * m.opts.size ≤ size)
    (hgrow : m.size ≤ size) (hget : primes[px]? = some size) :
    ∃ newmap, new { m.opts with size } m.brk m.freed m.avail = some newmap ∧
      Fits opts newmap (hos m) ∧ newmap.opts.size = newmap.size ∧ hos newmap = [] ∧
      newmap.size = size ∧ newmap.px = px := by
  have hready := h.ready
  simp only [optsCheck, Bool.and_eq_true, decide_eq_true_eq] at hready
  have hbounds := primes_bounds size (List.mem_of_getElem? hget)
  have hnext : nextPrime size 0 = some (size, px) :=
    nextPrime_prime (size, px) (List.mk_mem_zipIdx_iff_getElem?.mpr hget)
  have hcheck : optsCheck { m.opts with size } = true := by
    simp only [optsCheck, Bool.and_eq_true, decide_eq_true_eq]
    exact ⟨⟨by omega, hready.1.2⟩, hready.2⟩
  have hnew : new { m.opts with size } m.brk m.freed m.avail = some ⟨{ m.opts with size }, 0, size,
      3 * size / 4, px, fun _ => [], [], m.brk, m.freed, m.avail⟩ := by
    rw [new, if_neg (by simp [hcheck]), hnext]
    rfl
  have hpol : m.opts.policy = .none := by rw [h.opts_eq]; exact h.policy
  obtain ⟨hplain, hcompact, hhos, -, -⟩ := new_plain (h.lawful.resized size) hpol hnew
  refine ⟨_, hnew, ⟨⟨hplain.toTable, ⟨?_, h.policy, hplain.ready, hplain.threshold_eq,
    hplain.size_ge, hplain.size_le, hplain.opts_size, hplain.px_prime⟩, hplain.distinct,
    hplain.sz_eq, hplain.sz_le⟩, hcompact, ?_, ?_⟩, rfl, hhos, rfl, rfl⟩
  · change { m.opts with size } = { opts with size }
    rw [h.opts_eq]
  · have h₁ := h.sz_le
    have h₂ := h.threshold_eq
    have h₃ := h.size_ge
    rw [← h.sz_eq]
    change 0 + m.sz ≤ 3 * size / 4
    omega
  · rw [hhos, List.append_nil]
    exact h.distinct

/-- **A resize keeps all objects.**  It makes room for one more, or it fails, changes no object and
the map still has to grow.  No resize happens inside it, whatever its `put` would do there. -/
theorem resize_spec (h : Plain opts m) (hfull : m.threshold ≤ m.sz) (mem : Mem) :
    (∃ m', (∀ put, NoResize put → resize put mem m = some (true, m')) ∧ Plain opts m' ∧
      Compact m' ∧ hos m' ~ hos m ∧ Grown m m' ∧ m'.sz ≤ m'.threshold) ∨
    (∃ m', (∀ put, resize put mem m = some (false, m')) ∧ Plain opts m' ∧ hos m' = hos m ∧
      ResizeFails m mem ∧ ResizeFails m' mem ∧ (mem = .ok → Kept m m')) := by
  have hpol : ¬ m.opts.policy ≠ .none := by rw [h.opts_eq]; exact not_not.mpr h.policy
  have hsize := h.opts_size
  have hle := h.size_le
  have hmod : 3 * m.opts.size % 2 ^ 64 = 3 * m.opts.size := Nat.mod_eq_of_lt (by omega)
  have hpos : m.opts.size ≠ 0 := by
    have hready := h.ready
    simp only [optsCheck, Bool.and_eq_true, decide_eq_true_eq] at hready
    exact hready.1.1
  obtain ⟨q, hq, hmq⟩ := h.px_prime
  by_cases hmem : mem = .noOpts
  · have hfails : ResizeFails m mem := ⟨hfull, Or.inl (by simp [hmem])⟩
    refine Or.inr ⟨m, fun put => ?_, h, rfl, hfails, hfails, fun _ => ⟨rfl, rfl, rfl, rfl⟩⟩
    rw [resize, if_neg hpol, if_pos hmem]
  cases hprime : nextPrime (3 * m.opts.size) m.px with
  | none =>
    have hlt := nextPrime_none (by omega) hq hprime
    refine Or.inr ⟨m, fun put => ?_, h, rfl, ⟨hfull, Or.inr hlt⟩, ⟨hfull, Or.inr hlt⟩,
      fun _ => ⟨rfl, rfl, rfl, rfl⟩⟩
    rw [resize, if_neg hpol, if_neg hmem, hmod, hprime]
  | some p =>
    obtain ⟨size, px⟩ := p
    obtain ⟨hge, hpx, hget⟩ := nextPrime_some hprime
    have hgrow : m.size ≤ size := hmq.trans (primes_mono hpx hq hget)
    by_cases hmap : mem = .noMap
    · have hfails : ResizeFails m mem := ⟨hfull, Or.inl (by simp [hmap])⟩
      refine Or.inr ⟨{ m with px }, fun put => ?_, ?_, rfl, hfails, hfails,
        fun hok => (by rw [hmap] at hok; cases hok)⟩
      · rw [resize, if_neg hpol, if_neg hmem, hmod, hprime]
        exact if_pos hmap
      · exact ⟨h.toTable.of_buckets rfl rfl rfl, ⟨h.opts_eq, h.policy, h.ready, h.threshold_eq,
          h.size_ge, h.size_le, h.opts_size, size, hget, hgrow⟩, h.distinct, h.sz_eq, h.sz_le⟩
    · obtain ⟨newmap, hnew, hfits, hsz, hempty, hsize', hpx'⟩ := fits_new h hge hgrow hget
      obtain ⟨dst, src, hcopy, hfill⟩ := copyBuckets_spec (List.range m.size)
        { m with
          px
          opts := { m.opts with ownsData := false, noOverwrite := false, hashStrong := false } }
        List.nodup_range hfits
      have hperm : hos dst ~ hos m := by
        have := hfill.perm
        rwa [hempty, List.append_nil] at this
      refine Or.inl ⟨dst, fun put hnr => ?_, hfill.plain, hfill.compact, hperm, ?_, ?_⟩
      · rw [resize, if_neg hpol, if_neg hmem, hmod, hprime]
        dsimp only
        rw [if_neg hmap, hnew]
        dsimp only
        rw [copy, hcopy put hnr]
        rfl
      · refine ⟨hfull, ?_, ?_⟩
        · rw [hfill.kept.opts, hfill.kept.size, hsz]
        · rw [hfill.kept.size, hfill.kept.px, hsize', hpx', hprime]
      · have hroom := hfits.room
        rw [hfill.plain.sz_eq, hperm.length_eq, hfill.kept.threshold]
        omega

/-! ## 6. What a put does -/

/-- What a put of `ho` does to the objects `l`: it adds `ho`, or meets the object `old` with its
key and is refused or takes its place. -/
inductive PutDone (opts : Opts κ β) (l : List (Ho κ β)) (ho : Ho κ β) :
    Res κ β → List (Ho κ β) → Prop
  | added {l' : List (Ho κ β)} (hk : ho.key ∉ l.map Ho.key) (p' : l' ~ ho :: l) :
      PutDone opts l ho ⟨.errNone, none⟩ l'
  | refused {l' rest : List (Ho κ β)} {old : Ho κ β} (hk : old.key = ho.key) (p : l ~ old :: rest)
      (hno : opts.noOverwrite = true) (p' : l' ~ l) :
      PutDone opts l ho ⟨.errExists, handedOut opts old⟩ l'
  | replaced {l' rest : List (Ho κ β)} {old : Ho κ β} (hk : old.key = ho.key) (p : l ~ old :: rest)
      (hno : opts.noOverwrite = false) (p' : l' ~ ho :: rest) :
      PutDone opts l ho ⟨.errNone, handedOut opts old⟩ l'

theorem PutDone.of_perm {l l₁ l' : List (Ho κ β)} {ho : Ho κ β} {res : Res κ β}
    (h : PutDone opts l₁ ho res l') (p : l₁ ~ l) : PutDone opts l ho res l' := by
  cases h with
  | added hk p' =>
    exact .added (fun hmem => hk ((p.map Ho.key).mem_iff.mpr hmem)) (p'.trans (p.cons _))
  | refused hk p₀ hno p' => exact .refused hk (p.symm.trans p₀) hno (p'.trans p)
  | replaced hk p₀ hno p' => exact .replaced hk (p.symm.trans p₀) hno p'

/-- A put without a resize, of a key that is not behind a hole. -/
theorem putPlace_spec (h : Plain opts m) (obj : Obj κ β)
    (hsz : m.sz < m.threshold ∨ (m.opts.size = m.size ∧ m.sz ≤ m.threshold))
    (hsafe : ¬ HoleBefore m obj.key) :
    ∃ res m', m.putPlace obj = some (res, m') ∧ Plain opts m' ∧
      PutDone opts (hos m) obj.toHo res (hos m') ∧ Kept m m' := by
  have hle : m.sz ≤ m.threshold := hsz.elim Nat.le_of_lt And.right
  by_cases hk : Has m obj.key
  · rcases scan_spec h.toTable obj.key with ⟨l, hs, hl, hlk, -⟩ |
      ⟨i, b, a, -, -, -, hhole⟩ | ⟨-, -, -, hfull⟩
    · obtain ⟨rest₀, hrest₀, -, -⟩ := hl.hos_perm
      rcases putPlace_found h hs hl hlk with
        ⟨hno, m', hput, hkept, hsz', htab, hhos⟩ | ⟨hno, m', rest, hput, hkept, hsz', htab, hp, hp'⟩
      · refine ⟨_, m', hput, ⟨htab, h.toSizes.kept hkept, hhos ▸ h.distinct, ?_, ?_⟩,
          .refused hlk hrest₀ hno (hhos ▸ List.Perm.refl _), hkept⟩
        · rw [hsz', hhos, h.sz_eq]
        · rw [hsz', hkept.threshold, hkept.opts, hkept.size]
          exact h.sz_le
      · refine ⟨_, m', hput, ⟨htab, h.toSizes.kept hkept, ?_, ?_, ?_⟩,
          .replaced hlk hp hno hp', hkept⟩
        · have hd := h.distinct.perm hp
          rw [distinct_cons, hlk] at hd
          exact (distinct_cons.mpr hd).perm hp'.symm
        · rw [hsz', hp'.length_eq, h.sz_eq, hp.length_eq, List.length_cons, List.length_cons]
        · rw [hsz', hkept.threshold, hkept.opts, hkept.size]
          exact h.sz_le
    · exact absurd (hhole hk) hsafe
    · exact absurd hfull (h.not_full hle obj.key)
  · obtain ⟨m', hput, hlink⟩ := putPlace_absent h hk hle
    exact ⟨_, m', hput, h.linked hlink hk hsz,
      .added (fun hmem => hk (mem_keys_hos.mp hmem)) hlink.perm, hlink.kept⟩

/-- **What a put does to a map without policy**, when its key is not behind a hole or the table is
about to be rebuilt.  The recursion in `__resize` is one call deep: every larger depth gives
the same result. -/
theorem put_spec (h : Plain opts m) (obj : Obj κ β) (mem : Mem)
    (hsafe : m.threshold ≤ m.sz ∨ ¬ HoleBefore m obj.key) :
    ∃ res m', (∀ depth, putAt mem (depth + 1) m obj = some (res, m')) ∧ Plain opts m' ∧
      (PutDone opts (hos m) obj.toHo res (hos m') ∨
        (ResizeFails m mem ∧ res = ⟨.errFail, none⟩ ∧ hos m' = hos m ∧ ResizeFails m' mem)) ∧
      (mem = .ok → Kept m m' ∧ (m.sz < m.threshold ∨ hos m' = hos m) ∨ Grown m m') := by
  have hpol : m.opts.policy = .none := by rw [h.opts_eq]; exact h.policy
  by_cases hfull : m.threshold ≤ m.sz
  · have hput : ∀ depth, putAt mem (depth + 1) m obj = (resize (putAt mem depth) mem m).bind
        fun r => if !r.1 then some (⟨.errFail, none⟩, r.2) else r.2.putPlace obj := by
      intro depth
      rw [putAt, putWith, if_pos ⟨hfull, hpol⟩]
      rfl
    rcases resize_spec h hfull mem with
      ⟨m₁, hres, h₁, hc₁, hp₁, hgrown, hle⟩ | ⟨m₁, hres, h₁, hhos, hfails, hfails', hkept⟩
    · obtain ⟨res, m', hplace, h', hdone, hkept⟩ :=
        putPlace_spec h₁ obj (Or.inr ⟨hgrown.opts_size, hle⟩) (hc₁ obj.key)
      refine ⟨res, m', fun depth => ?_, h', Or.inl (hdone.of_perm hp₁),
        fun _ => Or.inr (hgrown.kept hkept)⟩
      rw [hput, hres _ (putAt_noResize mem depth)]
      exact hplace
    · refine ⟨_, m₁, fun depth => ?_, h₁, Or.inr ⟨hfails, rfl, hhos, hfails'⟩,
        fun hok => Or.inl ⟨hkept hok, Or.inr hhos⟩⟩
      rw [hput, hres]
      rfl
  · have hlt : m.sz < m.threshold := Nat.not_le.mp hfull
    obtain ⟨res, m', hplace, h', hdone, hkept⟩ :=
      putPlace_spec h obj (Or.inl hlt) (hsafe.resolve_left hfull)
    exact ⟨res, m', fun depth => (putAt_noResize mem (depth + 1) m obj hlt).trans hplace, h',
      Or.inl hdone, fun _ => Or.inl ⟨hkept, Or.inl hlt⟩⟩

/-- A put of a key behind a hole stores the key twice. -/
theorem put_of_hole (h : Plain opts m) (obj : Obj κ β) (mem : Mem) (hlt : m.sz < m.threshold)
    (hhole : HoleBefore m obj.key) :
    ∃ m', m.put obj mem = some (⟨.errNone, none⟩, m') ∧ ¬ Distinct (hos m') := by
  have hput : m.put obj mem = m.putPlace obj := putAt_noResize mem 1 m obj hlt
  rw [hput]
  have hk : Has m obj.key := by
    obtain ⟨-, e, he, hmem, -⟩ := hhole
    obtain ⟨o, ho, hok⟩ := List.mem_map.mp hmem
    have hslot := ringIdx_lt (h.lawful.hashOf_lt h.size_pos obj.key) (by omega : e ≤ m.size)
    exact ⟨o, mem_stored.mpr ⟨_, hslot, ho⟩, hok⟩
  rcases scan_spec h.toTable obj.key with
    ⟨l, -, hl, hlk, hr, -⟩ | ⟨i, b, a, hs, hr, -⟩ | ⟨-, -, -, hfull⟩
  · exact absurd hhole (hlk ▸ not_holeBefore h.distinct h.toTable hl (hlk ▸ hr))
  · obtain ⟨m', hplace, hlink⟩ := putPlace_room h hs hr
    refine ⟨m', hplace, fun hd => ?_⟩
    have hd' := hd.perm hlink.perm
    exact (distinct_cons.mp hd').1 (mem_keys_hos.mpr hk)
  · obtain ⟨-, e, he, -, d, hde, hnil⟩ := hhole
    exact absurd hnil (hfull d (by omega)).1

/-- The allocation of the new object leaves the map as it is. -/
theorem Plain.oNew (h : Plain opts m) (key : κ) (val : β) : Plain opts (m.oNew key val).2 :=
  ⟨h.toTable.of_buckets rfl rfl rfl, h.toSizes.kept ⟨rfl, rfl, rfl, rfl⟩,
    h.distinct, h.sz_eq, h.sz_le⟩

/-- A put rebuilds the table, or its key is not behind a hole. -/
def PutSafe (m : Hmap κ β) : MapOp κ β → Prop
  | .cache (.put k _ _) => m.threshold ≤ m.sz ∨ ¬ HoleBefore m k
  | _ => True

/-- A put of a key behind a hole is not what it should be. -/
theorem exec_of_unsafe (h : Plain opts m) (op : MapOp κ β) (hop : ¬ PutSafe m op) :
    ∃ res m', op.exec m = some (res, m') ∧ ¬ Distinct (hos m') := by
  match op with
  | .cache (.put k v mem) =>
    obtain ⟨hlt, hhole⟩ := not_or.mp hop
    obtain ⟨m', hput, hnd⟩ :=
      put_of_hole (h.oNew k v) (m.oNew k v).1 mem (Nat.not_le.mp hlt) (not_not.mp hhole)
    exact ⟨_, m', hput, hnd⟩
  | .cache (.get k) => exact absurd trivial hop
  | .del k => exact absurd trivial hop

/-! ## 7. The finite map -/

section Refinement

variable [DecidableEq κ]

/-- **The abstract machine**: what each call makes of the finite map `f`, which code it returns,
and the value it is about. -/
inductive MapStep (noOverwrite : Bool) (f : κ → Option β) :
    MapOp κ β → Ret → Option β → (κ → Option β) → Prop
  | insert (k : κ) (v : β) (mem : Mem) (h : f k = none) :
      MapStep noOverwrite f (.cache (.put k v mem)) .errNone none (Function.update f k (some v))
  | refuse (k : κ) (v w : β) (mem : Mem) (h : f k = some w) (hno : noOverwrite = true) :
      MapStep noOverwrite f (.cache (.put k v mem)) .errExists (some w) f
  | replace (k : κ) (v w : β) (mem : Mem) (h : f k = some w) (hno : noOverwrite = false) :
      MapStep noOverwrite f (.cache (.put k v mem)) .errNone (some w)
        (Function.update f k (some v))
  | hit (k : κ) (w : β) (h : f k = some w) :
      MapStep noOverwrite f (.cache (.get k)) .errNone (some w) f
  | miss (k : κ) (h : f k = none) : MapStep noOverwrite f (.cache (.get k)) .errFail none f
  | del (k : κ) (w : β) (h : f k = some w) :
      MapStep noOverwrite f (.del k) .errNone (some w) (Function.update f k none)
  | absent (k : κ) (h : f k = none) : MapStep noOverwrite f (.del k) .errFail none f

/-- The value that the caller is handed: of a map that owns its objects, only a get gives one
out. -/
def handed (opts : Opts κ β) (v : Option β) : MapOp κ β → Option β
  | .cache (.get _) => v
  | _ => if opts.ownsData then none else v

/-- The call is a put that asks for a resize, and this fails. -/
def PutFails (m : Hmap κ β) : MapOp κ β → Prop
  | .cache (.put _ _ mem) => ResizeFails m mem
  | _ => False

/-- What every call on a map created with `opts` must do.  The call is a step of the finite map,
or a put that is refused because its resize failed and changes nothing; no key is stored twice;
`u_hmap_count` counts the objects. -/
structure MapSpec (opts : Opts κ β) (m : Hmap κ β) (op : MapOp κ β) (res : Res κ β)
    (m' : Hmap κ β) : Prop where
  refines : (∃ v, MapStep opts.noOverwrite (contents m) op res.ret v (contents m') ∧
      res.obj.map Ho.val = handed opts v op) ∨
    (PutFails m op ∧ res = ⟨.errFail, none⟩ ∧ contents m' = contents m)
  distinct : ((stored m').map fun o => o.key).Nodup
  count : count m' = (stored m').length

instance (m : Hmap κ β) : ∀ op, Decidable (PutSafe m op)
  | .cache (.put k _ _) => inferInstanceAs (Decidable (m.threshold ≤ m.sz ∨ ¬ HoleBefore m k))
  | .cache (.get _) => inferInstanceAs (Decidable True)
  | .del _ => inferInstanceAs (Decidable True)

/-- The objects that a step leaves determine the rest of its specification. -/
theorem Plain.mapSpec {m' : Hmap κ β} {op : MapOp κ β} {res : Res κ β} (h' : Plain opts m')
    (h : (∃ v, MapStep opts.noOverwrite (contents m) op res.ret v (contents m') ∧
      res.obj.map Ho.val = handed opts v op) ∨
    (PutFails m op ∧ res = ⟨.errFail, none⟩ ∧ contents m' = contents m)) :
    MapSpec opts m op res m' := by
  refine ⟨h, distinct_hos.mp h'.distinct, ?_⟩
  have h₁ := h'.sz_le
  have h₂ := h'.threshold_eq
  have h₃ := h'.size_le
  rw [count, SizeT.toSigned_of_lt (by omega), h'.sz_eq, hos, List.length_map]

theorem lookup_of_perm {l rest : List (Ho κ β)} {old : Ho κ β} (hd : Distinct l)
    (p : l ~ old :: rest) : lookup l old.key = some old.val := by
  rw [lookup_perm hd p, lookup_cons, Function.update_self]

/-- A put that adds, refuses or replaces is a step of the finite map. -/
theorem PutDone.mapStep {l l' : List (Ho κ β)} {ho : Ho κ β} {res : Res κ β}
    (h : PutDone opts l ho res l') (hd : Distinct l) (hd' : Distinct l') (mem : Mem) :
    ∃ v, MapStep opts.noOverwrite (lookup l) (.cache (.put ho.key ho.val mem)) res.ret v
        (lookup l') ∧
      res.obj.map Ho.val = handed opts v (.cache (.put ho.key ho.val mem)) := by
  cases h with
  | added hk p' =>
    refine ⟨none, ?_, by simp [handed]⟩
    rw [lookup_perm hd' p', lookup_cons]
    exact .insert _ _ _ (lookup_eq_none.mpr hk)
  | refused hk p hno p' =>
    refine ⟨_, ?_, by simp only [handed, handedOut]; split <;> rfl⟩
    rw [lookup_perm hd' p']
    exact .refuse _ _ _ _ (hk ▸ lookup_of_perm hd p) hno
  | @replaced _ rest old hk p hno p' =>
    refine ⟨_, ?_, by simp only [handed, handedOut]; split <;> rfl⟩
    have hupd : lookup l' = Function.update (lookup l) ho.key (some ho.val) := by
      rw [lookup_perm hd' p', lookup_perm hd p, lookup_cons, lookup_cons, hk,
        Function.update_idem]
    rw [hupd]
    exact .replace _ _ _ _ (hk ▸ lookup_of_perm hd p) hno

/-- A get is a step of the finite map, and leaves the hash map as it is. -/
theorem get_spec (h : Plain opts m) (k : κ) :
    ∃ res, m.get k = some (res, m) ∧ MapSpec opts m (.cache (.get k)) res m := by
  have hpol : opGet m.opts.policy = false := by rw [h.opts_eq, h.policy]; rfl
  rcases find_spec h.toTable k with ⟨l, hfind, hl, rfl, -⟩ | ⟨hfind, hk⟩
  · obtain ⟨rest, hrest, -, -⟩ := hl.hos_perm
    refine ⟨⟨.errNone, some l.obj.toHo⟩, ?_, h.mapSpec (Or.inl ⟨some l.obj.val, ?_, rfl⟩)⟩
    · simp [get, hfind, hpol]
    · exact .hit _ _ (lookup_of_perm h.distinct hrest)
  · refine ⟨⟨.errFail, none⟩, ?_, h.mapSpec (Or.inl ⟨none, ?_, rfl⟩)⟩
    · simp [get, hfind]
    · exact .miss _ (lookup_eq_none.mpr fun hmem => hk (mem_keys_hos.mp hmem))

/-- A del is a step of the finite map. -/
theorem del_spec (h : Plain opts m) (k : κ) :
    ∃ res m', m.del k = some (res, m') ∧ MapSpec opts m (.del k) res m' ∧ Plain opts m' := by
  rcases find_spec h.toTable k with ⟨l, hfind, hl, rfl, -⟩ | ⟨hfind, hk⟩
  · obtain ⟨rest, hrest, hrem, -⟩ := hl.hos_perm
    have hdel := del_of_find hfind
    have hsz : m.sz = rest.length + 1 := by rw [h.sz_eq, hrest.length_eq, List.length_cons]
    have hbound : m.sz < 2 ^ 64 := by
      have h₁ := h.sz_le
      have h₂ := h.threshold_eq
      have h₃ := h.size_le
      omega
    have hsub : SizeT.sub m.sz 1 = rest.length := by
      rw [SizeT.sub_of_le hbound (by omega)]
      omega
    have hd := distinct_cons.mp (h.distinct.perm hrest)
    have h' : Plain opts { m.setBucket l.idx (l.before ++ l.after) with
        freed := released m.opts l.obj.toHo m.freed, sz := rest.length } := by
      refine ⟨(h.toTable.remove hl).of_buckets rfl rfl rfl,
        h.toSizes.kept ⟨rfl, rfl, rfl, rfl⟩, hd.2.perm hrem.symm, hrem.length_eq.symm, ?_⟩
      have hle := h.sz_le
      change rest.length ≤ m.threshold ∨ (m.opts.size = m.size ∧ rest.length ≤ m.threshold + 1)
      omega
    rw [hsub] at hdel
    refine ⟨_, _, hdel, h'.mapSpec (Or.inl ⟨some l.obj.val, ?_, ?_⟩), h'⟩
    · have hupd : lookup rest = Function.update (lookup (hos m)) l.obj.key none := by
        rw [lookup_perm h.distinct hrest, lookup_cons, Function.update_idem,
          eq_comm, Function.update_eq_self_iff]
        exact (lookup_eq_none.mpr hd.1).symm
      have hcont : contents { m.setBucket l.idx (l.before ++ l.after) with
          freed := released m.opts l.obj.toHo m.freed, sz :=
            rest.length } = lookup rest := lookup_perm h'.distinct hrem
      rw [hcont, hupd]
      exact .del _ _ (lookup_of_perm h.distinct hrest)
    · have howns : m.opts.ownsData = opts.ownsData := by rw [h.opts_eq]
      simp only [handed, handedOut, howns]
      split <;> rfl
  · refine ⟨⟨.errFail, none⟩, m, ?_, h.mapSpec (Or.inl ⟨none, ?_, ?_⟩), h⟩
    · simp [del, hfind]
    · exact .absent _ (lookup_eq_none.mpr fun hmem => hk (mem_keys_hos.mp hmem))
    · simp [handed]

/-- **One call on a map without policy.** -/
theorem exec_spec (h : Plain opts m) (op : MapOp κ β) (hsafe : PutSafe m op) :
    ∃ res m', op.exec m = some (res, m') ∧ MapSpec opts m op res m' ∧ Plain opts m' := by
  match op with
  | .cache (.put k v mem) =>
    obtain ⟨res, m', hput, h', hcases, -⟩ := put_spec (h.oNew k v) (m.oNew k v).1 mem hsafe
    refine ⟨res, m', hput 0, h'.mapSpec ?_, h'⟩
    rcases hcases with hdone | ⟨hfails, hres, hhos, -⟩
    · exact Or.inl (hdone.mapStep h.distinct h'.distinct mem)
    · exact Or.inr ⟨hfails, hres, congrArg lookup hhos⟩
  | .cache (.get k) =>
    obtain ⟨res, hget, hspec⟩ := get_spec h k
    exact ⟨res, m, hget, hspec, h⟩
  | .del k => exact del_spec h k

/-- What every call on a chained map must do besides: keep its buckets in strict order. -/
structure ChainSpec (opts : Opts κ β) (m : Hmap κ β) (op : MapOp κ β) (res : Res κ β)
    (m' : Hmap κ β) : Prop extends MapSpec opts m op res m' where
  sorted : ∀ i < m'.size,
    ((m'.buckets i).map fun o => o.key).Pairwise fun a b => opts.fComp a b < 0

/-- **With chaining, a map without policy is a finite map**, in every run of puts, gets and dels,
through any number of resizes.  A resize that fails for want of memory or of a larger prime refuses
the put and changes nothing, and the count is the number of keys throughout. -/
theorem chain_finite_map (hl : Lawful opts) (htype : opts.type = .chain)
    (hp : opts.policy = .none) {brk : Nat} {freed : List (Ho κ β)} {avail : Nat → QMem}
    (hnew : new opts brk freed avail = some m) (ops : List (MapOp κ β)) :
    Always MapOp.exec (ChainSpec opts) m ops := by
  refine always_of_guarded (Plain opts) ?_ (new_plain hl hp hnew).1
    (guarded_of_forall (fun _ _ => trivial : ∀ _ _, True) ops m)
  intro m op h _
  have hchain : m.opts.type = .chain := by rw [h.opts_eq]; exact htype
  have hcomp : m.opts.fComp = opts.fComp := by rw [h.opts_eq]
  have hsafe : PutSafe m op := by
    match op with
    | .cache (.put k _ _) =>
      refine Or.inr fun hhole => ?_
      rw [HoleBefore, hchain] at hhole
      cases hhole.1
    | .cache (.get _) => trivial
    | .del _ => trivial
  obtain ⟨res, m', hst, hspec, h'⟩ := exec_spec h op hsafe
  refine ⟨res, m', hst, ⟨hspec, fun i hi => ?_⟩, h'⟩
  have hshape := h'.shape i hi
  rw [h'.opts_eq, Shape, htype] at hshape
  exact hshape

/-- **When a map without policy is a finite map**, with chaining or linear probing: in a run of
puts, gets and dels, every call is what it should be if and only if no put that keeps the table
starts with an empty slot before its key.  Only a linear table can have one there. -/
theorem finite_map_iff (hl : Lawful opts)
    (hp : opts.policy = .none) {brk : Nat} {freed : List (Ho κ β)} {avail : Nat → QMem}
    (hnew : new opts brk freed avail = some m) (ops : List (MapOp κ β)) :
    Always MapOp.exec (MapSpec opts) m ops ↔ Guarded MapOp.exec PutSafe m ops := by
  refine always_iff_guarded (fun _ _ => True) (Plain opts) ?_ ?_ (new_plain hl hp hnew).1
    (guarded_of_forall (fun _ _ => trivial) ops m)
  · intro m op h _
    constructor
    · rintro ⟨res, m', hst, hspec⟩
      by_contra hop
      obtain ⟨res₂, m₂, hst₂, hnd⟩ := exec_of_unsafe h op hop
      obtain ⟨rfl, rfl⟩ : res = res₂ ∧ m' = m₂ := by simpa [hst] using hst₂
      exact hnd (distinct_hos.mpr hspec.distinct)
    · intro hop
      obtain ⟨res, m', hst, hspec, -⟩ := exec_spec h op hop
      exact ⟨res, m', hst, hspec⟩
  · intro m op res m' h _ hst hspec
    have hsafe : PutSafe m op := by
      by_contra hop
      obtain ⟨res₂, m₂, hst₂, hnd⟩ := exec_of_unsafe h op hop
      obtain ⟨rfl, rfl⟩ : res = res₂ ∧ m' = m₂ := by simpa [hst] using hst₂
      exact hnd (distinct_hos.mpr hspec.distinct)
    obtain ⟨res₂, m₂, hst₂, -, h'⟩ := exec_spec h op hsafe
    obtain ⟨rfl, rfl⟩ : res = res₂ ∧ m' = m₂ := by simpa [hst] using hst₂
    exact h'

end Refinement

/-! ## 8. Runs on natural numbers -/

/-- Options for maps from numbers to characters that neither own their objects nor overwrite. -/
def natOpts (type : Typ) : Opts Nat Char where
  size := 1
  max := 100
  type
  policy := .none
  ownsData := false
  noOverwrite := true
  hashStrong := true
  fHash k n := k % n
  defaultHash := false
  fComp a b := (a : Int) - b
  fPcyCmp := none

theorem natOpts_lawful (type : Typ) : Lawful (natOpts type) where
  hash_lt k _ hn := Nat.mod_lt k hn
  comp_zero a b := by
    simp only [natOpts]
    omega
  comp_order _ := by
    refine ⟨fun a b => ?_, fun a b c hab hbc => ?_⟩
    · simp only [natOpts]
      omega
    · simp only [natOpts] at *
      omega

/-- A new map with these options. -/
def natMap (type : Typ) : Hmap Nat Char where
  opts := natOpts type
  sz := 0
  size := 13
  threshold := 9
  px := 0
  buckets _ := []
  queue := []
  brk := 0
  freed := []
  avail _ := .ok

theorem new_natOpts (type : Typ) : new (natOpts type) 0 [] = some (natMap type) := rfl

/-- Forty puts, which resize the map of 13 buckets twice, then a put of an old key, a get and a
del. -/
theorem chain_finite_map_nat :
    Always MapOp.exec (ChainSpec (natOpts .chain)) (natMap .chain)
      ((List.range 40).map (fun k => MapOp.cache (.put k 'a' .ok)) ++
        [.cache (.put 14 'b' .ok), .cache (.get 14), .del 1]) :=
  chain_finite_map (natOpts_lawful .chain) rfl rfl (new_natOpts .chain) _

/-- A run that stays clear of holes: 14 follows 1 in the table, and 1 is deleted last. -/
theorem finite_map_iff_nat :
    Always MapOp.exec (MapSpec (natOpts .linear)) (natMap .linear)
      [.cache (.put 1 'a' .ok), .cache (.put 14 'b' .ok), .cache (.put 14 'c' .ok),
        .cache (.get 14), .del 1] :=
  (finite_map_iff (natOpts_lawful .linear) rfl (new_natOpts .linear) _).mpr (by decide +kernel)

/-- A put, a put that collides with it, and a del of the first key. -/
def holeRun : List (MapOp Nat Char) :=
  [.cache (.put 1 'a' .ok), .cache (.put 14 'b' .ok), .del 1]

/-- After `holeRun`, 14 is behind an empty slot: putting it again is not refused, and two slots
hold it. -/
theorem linear_put_duplicates :
    (run MapOp.exec (natMap .linear) (holeRun ++ [.cache (.put 14 'c' .ok)])).map
        (fun p => (p.1.map Res.ret, (stored p.2).map fun o => (o.key, o.val)))
      = some ([.errNone, .errNone, .errNone, .errNone], [(14, 'c'), (14, 'b')]) ∧
    ¬ Always MapOp.exec (MapSpec (natOpts .linear)) (natMap .linear)
      (holeRun ++ [.cache (.put 14 'c' .ok)]) := by
  refine ⟨by decide +kernel, fun h => ?_⟩
  obtain ⟨rs, m', hrun, m₁, res, hspec⟩ := h.run_last
  have hkeys : (run MapOp.exec (natMap .linear) (holeRun ++ [.cache (.put 14 'c' .ok)])).map
      (fun p => (stored p.2).map fun o => o.key) = some [14, 14] := by decide +kernel
  rw [hrun, Option.map_some, Option.some.injEq] at hkeys
  have hnodup := hspec.distinct
  rw [hkeys] at hnodup
  exact absurd hnodup (by decide)

end Libu.Hmap
