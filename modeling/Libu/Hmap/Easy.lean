/-
# The easy interface of `toolbox/hmap.c`

Maps from strings to pointers, with the default options and a value type that releases nothing.
There is no discard policy, so they grow; but each new table is three times as large as the one
before, from a list of primes that ends, and what is put into a full table of the last size is
refused.

With the default options nothing is overwritten: a put of a key that is there is refused, and its
value is released, since the map takes it over in any case.  So a run of puts keeps, for each key,
the first value that was put under it, until the map is full; that is what the callers of the
interface in the other modules build on.

* §1 is the interface; §2: the sizes such a map goes through, and how many objects it takes.
* §3: what the calls do (`easyPut_spec`, `easyGet_spec`), and a run of puts (`fill_spec`).
-/
import Libu.Hmap.Map

namespace Libu.Hmap

open Verif
open scoped List

/-! ## 1. Strings and options -/

/-- `strcmp` -/
def strcmp : List Char → List Char → Int
  | [], [] => 0
  | [], _ :: _ => -1
  | _ :: _, [] => 1
  | a :: s, b :: t => if a = b then strcmp s t else (a.toNat : Int) - b.toNat

/-- `u_hmap_opts_init`, with the free function that releases nothing. -/
def easyOpts (β : Type) : Opts (List Char) β where
  size := 512
  max := 512
  type := .chain
  policy := .none
  ownsData := true
  noOverwrite := true
  hashStrong := false
  fHash key size := fHashDefault (key.map fun c => c.toNat.toUInt8) size
  defaultHash := true
  fComp := strcmp
  fPcyCmp := none

variable {β : Type} {m : Hmap (List Char) β}

/-- `u_hmap_easy_new`, where objects of hash maps have addresses of their own. -/
def easyNew (β : Type) : Option (Hmap (List Char) β) := new (easyOpts β) 0 []

/-- `u_hmap_easy_put` -/
def easyPut (m : Hmap (List Char) β) (key : List Char) (val : β) :
    Option (Ret × Hmap (List Char) β) := do
  let (obj, m) := m.oNew key val
  let (res, m) ← m.put obj .ok
  return (res.ret, m)

/-- `u_hmap_easy_get` -/
def easyGet (m : Hmap (List Char) β) (key : List Char) :
    Option (Option β × Hmap (List Char) β) := do
  let (res, m) ← m.get key
  return (if res.ret = .errNone then res.obj.map Ho.val else none, m)

theorem toNat_ne {a b : Char} (h : a ≠ b) : a.toNat ≠ b.toNat := by
  intro heq
  exact h (Char.ext (UInt32.toNat_inj.mp heq))

theorem strcmp_swap : ∀ s t : List Char, strcmp s t = - strcmp t s
  | [], [] => rfl
  | [], _ :: _ => rfl
  | _ :: _, [] => rfl
  | a :: s, b :: t => by
    by_cases hab : a = b
    · rw [strcmp, strcmp, if_pos hab, if_pos hab.symm, strcmp_swap s t]
    · rw [strcmp, strcmp, if_neg hab, if_neg (Ne.symm hab)]
      omega

theorem strcmp_eq_zero : ∀ {s t : List Char}, strcmp s t = 0 ↔ s = t
  | [], [] => by simp [strcmp]
  | [], _ :: _ => by simp [strcmp]
  | _ :: _, [] => by simp [strcmp]
  | a :: s, b :: t => by
    by_cases hab : a = b
    · rw [strcmp, if_pos hab, strcmp_eq_zero, hab, List.cons.injEq, eq_self, true_and]
    · have hne := toNat_ne hab
      rw [strcmp, if_neg hab, List.cons.injEq]
      exact ⟨fun h => absurd h (by omega), fun h => absurd h.1 hab⟩

theorem strcmp_trans : ∀ {s t u : List Char}, strcmp s t ≤ 0 → strcmp t u ≤ 0 → strcmp s u ≤ 0
  | [], _, [], _, _ => Int.le_refl 0
  | [], _, _ :: _, _, _ => by simp [strcmp]
  | _ :: _, [], _, h, _ => absurd h (by simp [strcmp])
  | _ :: _, _ :: _, [], _, h => absurd h (by simp [strcmp])
  | a :: s, b :: t, c :: u, hst, htu => by
    rw [strcmp] at hst htu ⊢
    split at hst
    · next hab =>
      split at htu
      · next hbc =>
        rw [if_pos (hab.trans hbc)]
        exact strcmp_trans hst htu
      · next hbc =>
        rw [if_neg (hab ▸ hbc), hab]
        exact htu
    · next hab =>
      have hne := toNat_ne hab
      split at htu
      · next hbc =>
        rw [if_neg (hbc ▸ hab), ← hbc]
        exact hst
      · next hbc =>
        have hac : a ≠ c := by
          rintro rfl
          omega
        rw [if_neg hac]
        omega

theorem easyOpts_lawful (β : Type) : Lawful (easyOpts β) where
  hash_lt _ _ hn := fHashDefault_lt _ hn
  comp_zero _ _ := strcmp_eq_zero
  comp_order _ := by
    constructor
    · intro s t
      change strcmp s t < 0 ↔ 0 < strcmp t s
      rw [strcmp_swap s t]
      omega
    · intro s t u hst htu
      exact strcmp_trans hst htu

/-! ## 2. Growth -/

/-- The sizes of a map with these options: the one asked for, the one of the table, and the index of
the latter among the primes. -/
def growth : List (Nat × Nat × Nat) :=
  [(512, 599, 12), (1777, 1777, 16), (6719, 6719, 21), (24989, 24989, 26), (92861, 92861, 31),
    (344857, 344857, 36), (1280519, 1280519, 41), (4754591, 4754591, 46), (17653589, 17653589, 51),
    (65546729, 65546729, 56), (243370577, 243370577, 61), (903618083, 903618083, 66)]

/-- How many objects the last table takes. -/
def capacity : Nat := 677713562

theorem growth_next : ∀ e ∈ growth, (nextPrime (3 * e.1) e.2.2).all (fun p =>
    (p.1, p.1, p.2) ∈ growth ∧ 3 * e.2.1 / 4 < 3 * p.1 / 4) = true := by
  decide +kernel

theorem growth_bound : ∀ e ∈ growth, 3 * e.2.1 / 4 ≤ capacity ∧
    (2147483647 < 3 * e.1 → 3 * e.2.1 / 4 = capacity) := by
  decide

/-- **The invariant of an easy map.** -/
structure Easy (m : Hmap (List Char) β) : Prop extends Plain (easyOpts β) m where
  grown : (m.opts.size, m.size, m.px) ∈ growth
  room : m.sz ≤ m.threshold

/-- The keys and values that are stored. -/
def pairs (m : Hmap (List Char) β) : List (List Char × β) := (hos m).map fun ho => (ho.key, ho.val)

theorem keys_pairs : (pairs m).map Prod.fst = (hos m).map Ho.key := by
  rw [pairs, List.map_map]
  rfl

theorem Easy.length_pairs (h : Easy m) : (pairs m).length = m.sz := by
  rw [pairs, List.length_map, h.sz_eq]

theorem Easy.sz_le_capacity (h : Easy m) : m.sz ≤ capacity := by
  refine h.room.trans ?_
  rw [h.threshold_eq]
  exact (growth_bound _ h.grown).1

/-- A resize fails when the last table is full. -/
theorem Easy.not_resizeFails (h : Easy m) (hlt : m.sz < capacity) : ¬ ResizeFails m .ok := by
  rintro ⟨hfull, hmem | hsize⟩
  · exact hmem rfl
  · have hlast := (growth_bound _ h.grown).2 hsize
    rw [h.threshold_eq, hlast] at hfull
    exact absurd hlt (Nat.not_lt.mpr hfull)

theorem easyNew_spec (β : Type) : ∃ m, easyNew β = some m ∧ Easy m ∧ pairs m = [] := by
  have hprime : nextPrime 512 0 = some (599, 12) := by decide +kernel
  have hnew : easyNew β = some ⟨easyOpts β, 0, 599, 3 * 599 / 4, 12, fun _ => [], [], 0, [],
      fun _ => .ok⟩ := by
    rw [easyNew, new, if_neg (by simp [optsCheck, easyOpts])]
    change (nextPrime 512 0).bind _ = _
    rw [hprime]
    rfl
  obtain ⟨hplain, -, hhos, -, -⟩ := new_plain (easyOpts_lawful β) rfl hnew
  refine ⟨_, hnew, ⟨hplain, ?_, Nat.zero_le _⟩, ?_⟩
  · exact List.mem_cons_self
  · rw [pairs, hhos, List.map_nil]

/-! ## 3. Calls -/

/-- What a put does: the object is added, or it is refused because of its key or because the map is
full. -/
inductive EasyPut (m : Hmap (List Char) β) (key : List Char) (val : β) :
    Ret → Hmap (List Char) β → Prop
  | added {m'} (hk : key ∉ (pairs m).map Prod.fst) (hp : pairs m' ~ (key, val) :: pairs m) :
      EasyPut m key val .errNone m'
  | known {m'} (hk : key ∈ (pairs m).map Prod.fst) (hp : pairs m' ~ pairs m) :
      EasyPut m key val .errExists m'
  | full {m'} (hsz : m.sz = capacity) (hp : pairs m' ~ pairs m) : EasyPut m key val .errFail m'

theorem easyPut_spec (h : Easy m) (key : List Char) (val : β) :
    ∃ ret m', m.easyPut key val = some (ret, m') ∧ Easy m' ∧ EasyPut m key val ret m' := by
  have hchain : (m.oNew key val).2.opts.type = .chain := by
    change m.opts.type = .chain
    rw [h.opts_eq]
    rfl
  have hsafe : ¬ HoleBefore (m.oNew key val).2 key := by
    rintro ⟨htype, -⟩
    rw [hchain] at htype
    cases htype
  obtain ⟨res, m', hput, h', hcases, hsizes⟩ :=
    put_spec (h.oNew key val) (m.oNew key val).1 .ok (Or.inr hsafe)
  have heasy : m.easyPut key val = some (res.ret, m') := by
    unfold easyPut
    change (putAt .ok 1 (m.oNew key val).2 (m.oNew key val).1).bind _ = _
    rw [hput 0]
    rfl
  -- one object more, at most
  have hlen : m'.sz ≤ m.sz + 1 := by
    rw [h'.sz_eq, h.sz_eq]
    rcases hcases with hdone | ⟨-, -, hhos, -⟩
    · cases hdone with
      | added _ hp => exact hp.length_eq.le
      | refused _ _ _ hp => exact hp.length_eq.le.trans (Nat.le_succ _)
      | replaced _ _ hno _ => cases hno
    · rw [hhos]
      exact Nat.le_succ _
  have hgrown : (m'.opts.size, m'.size, m'.px) ∈ growth ∧ m'.sz ≤ m'.threshold := by
    rcases hsizes rfl with ⟨hkept, hroom⟩ | hgrown
    · have hthr : m'.threshold = m.threshold := hkept.threshold
      rw [hkept.opts, hkept.size, hkept.px, hthr]
      refine ⟨h.grown, ?_⟩
      rcases hroom with hlt | hhos
      · exact hlen.trans hlt
      · rw [h'.sz_eq, hhos]
        exact h.sz_eq ▸ h.room
    · have hnext := growth_next _ h.grown
      have hprime : nextPrime (3 * m.opts.size) m.px = some (m'.size, m'.px) := hgrown.prime
      rw [hprime, Option.all_some, decide_eq_true_eq] at hnext
      rw [hgrown.opts_size]
      refine ⟨hnext.1, ?_⟩
      have hroom := h.room
      rw [h.threshold_eq] at hroom
      rw [h'.threshold_eq]
      exact hlen.trans (Nat.lt_of_le_of_lt hroom hnext.2)
  refine ⟨res.ret, m', heasy, ⟨h', hgrown.1, hgrown.2⟩, ?_⟩
  have hpairs : ∀ {l : List (Ho (List Char) β)}, hos m' ~ l → pairs m' ~ l.map
    fun ho => (ho.key, ho.val) :=
    fun hp => hp.map _
  rcases hcases with hdone | ⟨hfails, rfl, hhos, -⟩
  · cases hdone with
    | added hk hp => exact .added (keys_pairs ▸ hk) (hpairs hp)
    | @refused _ rest old hk hp _ hp' =>
      have hmem : key ∈ (hos m).map Ho.key := List.mem_map.mpr
        ⟨old, hp.symm.mem_iff.mp List.mem_cons_self, hk⟩
      exact .known (keys_pairs ▸ hmem) (hpairs hp')
    | replaced _ _ hno _ => cases hno
  · refine .full ?_ (hpairs (hhos ▸ List.Perm.refl _))
    refine h.sz_le_capacity.eq_or_lt.resolve_right fun hlt => ?_
    exact h.not_resizeFails hlt hfails

/-- A get finds what is stored. -/
theorem easyGet_spec (h : Easy m) (key : List Char) : ∃ found, m.easyGet key = some (found, m) ∧
    ∀ val, found = some val ↔ (key, val) ∈ pairs m := by
  have hpol : opGet m.opts.policy = false := by
    rw [h.opts_eq]
    rfl
  rcases find_spec h.toTable key with ⟨l, hfind, hl, rfl, -⟩ | ⟨hfind, hno⟩
  · refine ⟨some l.obj.val, ?_, ?_⟩
    · simp [easyGet, get, hfind, hpol]
    · obtain ⟨rest, hrest, -, -⟩ := hl.hos_perm
      have hmem : l.obj.toHo ∈ hos m := hrest.symm.mem_iff.mp List.mem_cons_self
      intro val
      constructor
      · rintro hval
        obtain rfl := Option.some.inj hval
        exact List.mem_map.mpr ⟨_, hmem, rfl⟩
      · intro hval
        obtain ⟨ho, hho, heq⟩ := List.mem_map.mp hval
        obtain ⟨hkey, rfl⟩ := Prod.mk.injEq .. |>.mp heq
        -- keys are stored once
        have hsame : ho = l.obj.toHo := List.inj_on_of_nodup_map h.distinct hho hmem hkey
        rw [hsame]
  · refine ⟨none, ?_, ?_⟩
    · simp [easyGet, get, hfind]
    · intro val
      refine ⟨fun hval => (by cases hval), fun hval => absurd ?_ hno⟩
      rw [← mem_keys_hos, ← keys_pairs]
      exact List.mem_map_of_mem hval

/-- A run of puts, whose results nobody looks at. -/
def fill : List (List Char × β) → Hmap (List Char) β → Option (Hmap (List Char) β)
  | [], m => some m
  | e :: l, m => do
    let (_, m) ← m.easyPut e.1 e.2
    fill l m

theorem fill_append (l l' : List (List Char × β)) (m : Hmap (List Char) β) :
    fill (l ++ l') m = (fill l m).bind (fill l') := by
  induction l generalizing m with
  | nil => rfl
  | cons e l ih =>
    rw [List.cons_append, fill, fill]
    cases m.easyPut e.1 e.2 with
    | none => rfl
    | some r => exact ih r.2

theorem fill_easy (h : Easy m) (l : List (List Char × β)) : ∃ m', fill l m = some m' ∧ Easy m' := by
  induction l generalizing m with
  | nil => exact ⟨m, rfl, h⟩
  | cons e l ih =>
    obtain ⟨ret, m₁, hput, h₁, -⟩ := easyPut_spec h e.1 e.2
    obtain ⟨m', hfill, h'⟩ := ih h₁
    refine ⟨m', ?_, h'⟩
    rw [fill, hput]
    exact hfill

/-- **A run of puts** of keys that are new and differ: all are stored, as long as there is room. -/
theorem fill_spec (h : Easy m) {l : List (List Char × β)}
    (hnew : ((l ++ pairs m).map Prod.fst).Nodup)
    (hroom : (l ++ pairs m).length ≤ capacity) : ∃ m', fill l m = some m' ∧ Easy m' ∧
      pairs m' ~ l ++ pairs m := by
  induction l generalizing m with
  | nil => exact ⟨m, rfl, h, List.Perm.refl _⟩
  | cons e l ih =>
    obtain ⟨ret, m₁, hput, h₁, hdone⟩ := easyPut_spec h e.1 e.2
    rw [List.cons_append, List.map_cons, List.nodup_cons] at hnew
    rw [List.cons_append, List.length_cons, List.length_append, h.length_pairs] at hroom
    have hadded : pairs m₁ ~ e :: pairs m := by
      cases hdone with
      | added _ hp => exact hp
      | known hk _ =>
        refine absurd ?_ hnew.1
        rw [List.map_append]
        exact List.mem_append_right _ hk
      | full hsz _ => omega
    have hmid : l ++ pairs m₁ ~ e :: (l ++ pairs m) :=
      (hadded.append_left l).trans List.perm_middle
    obtain ⟨m', hfill, h', hp⟩ := ih h₁ ((hmid.map Prod.fst).nodup_iff.mpr
      (List.nodup_cons.mpr hnew)) (by
      rw [hmid.length_eq, List.length_cons, List.length_append, h.length_pairs]
      omega)
    refine ⟨m', ?_, h', hp.trans hmid⟩
    rw [fill, hput]
    exact hfill

/-- The entries that a run of puts stores: those with a new key, as long as there is room. -/
def kept (seen : List (List Char)) : List (List Char × β) → List (List Char × β)
  | [] => []
  | e :: l =>
    if e.1 ∈ seen ∨ capacity ≤ seen.length then kept seen l
    else e :: kept (e.1 :: seen) l

theorem kept_sublist (seen : List (List Char)) (l : List (List Char × β)) : kept seen l <+ l := by
  induction l generalizing seen with
  | nil => exact List.Sublist.refl _
  | cons e l ih =>
    rw [kept]
    split
    · exact (ih seen).cons e
    · exact (ih (e.1 :: seen)).cons_cons e

/-- **What a run of puts leaves in the map.** -/
theorem fill_kept (h : Easy m) {seen : List (List Char)} (hseen : seen ~ (pairs m).map Prod.fst)
    (l : List (List Char × β)) : ∃ m', fill l m = some m' ∧ Easy m' ∧
      pairs m' ~ kept seen l ++ pairs m := by
  induction l generalizing m seen with
  | nil => exact ⟨m, rfl, h, List.Perm.refl _⟩
  | cons e l ih =>
    obtain ⟨ret, m₁, hput, h₁, hdone⟩ := easyPut_spec h e.1 e.2
    have hlen : seen.length = m.sz := by rw [hseen.length_eq, List.length_map, h.length_pairs]
    have hfill : ∀ m', fill l m₁ = some m' → fill (e :: l) m = some m' := by
      intro m' hm'
      rw [fill, hput]
      exact hm'
    -- the map stays as it is
    have hrefused : (e.1 ∈ seen ∨ capacity ≤ seen.length) → pairs m₁ ~ pairs m →
        ∃ m', fill (e :: l) m = some m' ∧ Easy m' ∧ pairs m' ~ kept seen (e :: l) ++ pairs m := by
      intro hno hp
      obtain ⟨m', hm', h', hkept⟩ := ih h₁ (hseen.trans (hp.map Prod.fst).symm)
      rw [kept, if_pos hno]
      exact ⟨m', hfill m' hm', h', hkept.trans (hp.append_left _)⟩
    cases hdone with
    | known hk hp => exact hrefused (.inl (hseen.mem_iff.mpr hk)) hp
    | full hsz hp => exact hrefused (.inr (hlen.trans hsz).ge) hp
    | added hk hp =>
      have hroom : m.sz < capacity := by
        have hle := h₁.sz_le_capacity
        rw [← h₁.length_pairs, hp.length_eq, List.length_cons, h.length_pairs] at hle
        exact hle
      obtain ⟨m', hm', h', hkept⟩ := ih h₁ ((hseen.cons e.1).trans (hp.map Prod.fst).symm)
      have hyes : ¬ (e.1 ∈ seen ∨ capacity ≤ seen.length) := by
        rintro (hmem | hfull)
        · exact hk (hseen.mem_iff.mp hmem)
        · omega
      rw [kept, if_neg hyes]
      exact ⟨m', hfill m' hm', h', (hkept.trans (hp.append_left _)).trans List.perm_middle⟩

end Libu.Hmap
