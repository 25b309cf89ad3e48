/-
# The records of a load, and who releases them

`u_pwd_db_load` makes a record for a line and pushes it into the map.  If that fails it releases the
record itself, and so does the map when the user is known: `u_hmap_easy_put` hands a value that is
refused to `__hmap_pwd_rec_free`.  Only of a map that is full, the value is not released by the map.

* §1 is the code of `Libu.Pwd` once more, with an address for each record and a log of releases.
* §2: what is in the map and what has been released, after some lines (`Loaded`).
* §3: every record is released once, and every user has one that is not released before the end,
  exactly when no name comes twice in what the map takes (`balanced_iff`).
-/
import Libu.Pwd
import Libu.Hmap.Own

namespace Libu.Pwd

open Verif
open scoped List

/-! ## 1. The code -/

/-- A pointer to a `u_pwd_rec_t`. -/
structure Ptr where
  addr : Nat
  record : Rec
deriving DecidableEq

/-- The state of `u_pwd_db_load`: the next address, what `u_pwd_rec_free` has released, and the
map. -/
structure Loading where
  next : Nat
  recFrees : List Ptr
  db : Hmap (List Char) Ptr

/-- What the loop of `u_pwd_db_load` does with the fields of a record: `u_pwd_rec_new`,
`u_pwd_db_push`. -/
def Loading.push (s : Loading) (rec : Rec) : Option Loading := do
  let ptr : Ptr := ⟨s.next, rec⟩
  let (ret, db) ← s.db.easyPut rec.user ptr
  -- could not push record
  let recFrees := if ret ≠ .errNone then ptr :: s.recFrees else s.recFrees
  some ⟨s.next + 1, recFrees, db⟩

/-- The loop of `u_pwd_db_load`. -/
def Loading.pushLines : List Line → Loading → Option Loading
  | [], s => some s
  | ln :: lines, s =>
    if ln.isComment then pushLines lines s
    else
      match recNew (strtok ln.chomp [':']) with
      | none => pushLines lines s
      | some rec => do
        let s ← s.push rec
        pushLines lines s

/-- `u_pwd_load` of a resource that can be opened. -/
def loading (lines : List Line) : Option Loading := do
  let db ← Hmap.easyNew Ptr
  Loading.pushLines lines ⟨0, [], db⟩

/-- `u_pwd_term`, which frees the map. -/
def Loading.term (s : Loading) : Loading := { s with db := s.db.clear }

/-- What has been released, by `u_pwd_rec_free` or by the map. -/
def Loading.released (s : Loading) : List Ptr := s.recFrees ++ s.db.freed.map Hmap.Ho.val

/-! ## 2. After some lines -/

/-- The records that have been made. -/
def created (done : List Rec) : List Ptr := done.zipIdx.map fun p => ⟨p.2, p.1⟩

theorem created_snoc (done : List Rec) (rec : Rec) :
    created (done ++ [rec]) = created done ++ [⟨done.length, rec⟩] := by
  rw [created, created, List.zipIdx_append, List.map_append, Nat.zero_add]
  rfl

theorem addr_created (done : List Rec) : (created done).map Ptr.addr = List.range done.length := by
  rw [created, List.map_map, List.range_eq_range', ← List.zipIdx_map_snd 0 done]
  rfl

/-- The names that a map has room for. -/
def names (done : List Rec) : List (List Char) := (done.map Rec.user).take Hmap.capacity

theorem names_snoc_of_lt {done : List Rec} (rec : Rec) (h : done.length < Hmap.capacity) :
    names (done ++ [rec]) = names done ++ [rec.user] := by
  rw [names, names, List.map_append, List.take_of_length_le, List.take_of_length_le]
  · rfl
  · rw [List.length_map]
    exact Nat.le_of_lt h
  · rw [List.length_append, List.length_map, List.length_map]
    exact h

theorem names_snoc_of_le {done : List Rec} (rec : Rec) (h : Hmap.capacity ≤ done.length) :
    names (done ++ [rec]) = names done := by
  rw [names, names, List.map_append, List.take_append_of_le_length (by rwa [List.length_map])]

theorem names_sublist (done : List Rec) (rec : Rec) : names done <+ names (done ++ [rec]) := by
  by_cases h : done.length < Hmap.capacity
  · rw [names_snoc_of_lt rec h]
    exact List.sublist_append_left _ _
  · rw [names_snoc_of_le rec (Nat.not_lt.mp h)]

/-- **After some records**: what is stored and what is released is what was made, and what was
refused for its name once more. -/
structure Loaded (done : List Rec) (s : Loading) : Prop where
  easy : Hmap.Easy s.db
  owner : Hmap.Owner (Hmap.easyOpts Ptr) s.db
  next : s.next = done.length
  users : ∀ e ∈ Hmap.pairs s.db, e.2.record.user = e.1
  keys : (names done).Nodup → (Hmap.pairs s.db).map Prod.fst ~ names done
  account : ∃ twice, (Hmap.pairs s.db).map Prod.snd ++ s.released ~ created done ++ twice ∧
    (twice = [] ↔ (names done).Nodup) ∧ twice ⊆ created done

theorem Loaded.sz_eq {done : List Rec} {s : Loading} (h : Loaded done s)
    (hnew : (names done).Nodup) : s.db.sz = min Hmap.capacity done.length := by
  rw [← h.easy.length_pairs, ← List.length_map Prod.fst, (h.keys hnew).length_eq, names,
    List.length_take, List.length_map]

/-- With room for one more, names that differ are those of all records so far. -/
theorem Loaded.nodup_snoc_iff {done : List Rec} {s : Loading} (h : Loaded done s)
    (hroom : s.db.sz < Hmap.capacity) (rec : Rec) : (names (done ++ [rec])).Nodup ↔
      (names done).Nodup ∧ rec.user ∉ (Hmap.pairs s.db).map Prod.fst := by
  have hsnoc : (names done).Nodup → names (done ++ [rec]) = names done ++ [rec.user] := by
    intro hold
    have hsz := h.sz_eq hold
    exact names_snoc_of_lt rec (by omega)
  constructor
  · intro hnew
    have hold := hnew.sublist (names_sublist done rec)
    rw [hsnoc hold, List.perm_append_comm.nodup_iff, List.singleton_append, List.nodup_cons] at hnew
    exact ⟨hold, fun hmem => hnew.1 ((h.keys hold).mem_iff.mp hmem)⟩
  · rintro ⟨hold, hk⟩
    rw [hsnoc hold, List.perm_append_comm.nodup_iff, List.singleton_append, List.nodup_cons]
    exact ⟨fun hmem => hk ((h.keys hold).mem_iff.mpr hmem), hold⟩

theorem Loaded.push {done : List Rec} {s : Loading} (h : Loaded done s) (rec : Rec) :
    ∃ s', s.push rec = some s' ∧ Loaded (done ++ [rec]) s' := by
  obtain ⟨ret, db, hput, heasy, hdone⟩ := Hmap.easyPut_spec h.easy rec.user (⟨s.next, rec⟩ : Ptr)
  obtain ⟨howner, hfreed, hfull⟩ := h.easy.easyPut_heap h.owner hput
  obtain ⟨twice, hperm, htwice, hsub⟩ := h.account
  have hnext : s.next + 1 = (done ++ [rec]).length := by rw [List.length_append, h.next]; rfl
  have hcreated : created (done ++ [rec]) = created done ++ [⟨s.next, rec⟩] := by
    rw [created_snoc, h.next]
  have hsub' : twice ⊆ created (done ++ [rec]) := by
    rw [hcreated]
    exact List.subset_append_of_subset_left _ hsub
  have hswap : ⟨s.next, rec⟩ :: (created done ++ twice) ~ created (done ++ [rec]) ++ twice := by
    rw [hcreated, List.append_assoc]
    exact List.perm_middle.symm
  have hsame : ∀ {db : Hmap (List Char) Ptr}, Hmap.pairs db ~ Hmap.pairs s.db →
      ∀ e ∈ Hmap.pairs db, e.2.record.user = e.1 := fun hp e he => h.users e (hp.mem_iff.mp he)
  refine ⟨⟨s.next + 1, if ret ≠ .errNone then ⟨s.next, rec⟩ :: s.recFrees else s.recFrees, db⟩, ?_,
    ?_⟩
  · rw [Loading.push, hput]
    rfl
  cases hdone with
  | added hk hp =>
    have hroom : s.db.sz < Hmap.capacity := by
      have hle := heasy.sz_le_capacity
      rw [← heasy.length_pairs, hp.length_eq, List.length_cons, h.easy.length_pairs] at hle
      exact hle
    have hiff := h.nodup_snoc_iff hroom rec
    rw [and_iff_left hk] at hiff
    refine ⟨heasy, howner, hnext, fun e he => ?_, fun hnew => ?_, twice, ?_,
      htwice.trans hiff.symm, hsub'⟩
    · rcases List.mem_cons.mp (hp.mem_iff.mp he) with rfl | he
      · rfl
      · exact h.users e he
    · have hsz := h.sz_eq (hiff.mp hnew)
      rw [names_snoc_of_lt rec (by omega)]
      exact ((hp.map Prod.fst).trans ((h.keys (hiff.mp hnew)).cons _)).trans
        (List.perm_append_singleton _ _).symm
    · have hrel : Loading.released ⟨s.next + 1, s.recFrees, db⟩ = s.released := by
        rw [Loading.released, hfreed]
        rfl
      have hsnd : (Hmap.pairs db).map Prod.snd ~ ⟨s.next, rec⟩ :: (Hmap.pairs s.db).map
        Prod.snd := hp.map Prod.snd
      change _ ++ Loading.released ⟨s.next + 1, s.recFrees, db⟩ ~ _
      rw [hrel]
      exact ((hsnd.append_right _).trans (hperm.cons _)).trans hswap
  | known hk hp =>
    have hroom : s.db.sz < Hmap.capacity := by
      refine lt_of_le_of_ne h.easy.sz_le_capacity fun hsz => ?_
      cases hfull hsz
    have hnot : ¬ (names (done ++ [rec])).Nodup :=
      fun hnew => ((h.nodup_snoc_iff hroom rec).mp hnew).2 hk
    refine ⟨heasy, howner, hnext, hsame hp, fun hnew => absurd hnew hnot,
      ⟨s.next, rec⟩ :: twice, ?_, ?_, ?_⟩
    · -- both release the record
      have hrel : Loading.released ⟨s.next + 1, ⟨s.next, rec⟩ :: s.recFrees, db⟩ ~
          ⟨s.next, rec⟩ :: ⟨s.next, rec⟩ :: s.released := by
        rw [Loading.released, hfreed]
        exact (List.perm_middle (a := (⟨s.next, rec⟩ : Ptr))).cons _
      have hsnd : (Hmap.pairs db).map Prod.snd ~ (Hmap.pairs s.db).map Prod.snd := hp.map Prod.snd
      change _ ++ Loading.released ⟨s.next + 1, ⟨s.next, rec⟩ :: s.recFrees, db⟩ ~ _
      refine (hsnd.append hrel).trans ((List.perm_middle.trans (List.perm_middle.cons _)).trans ?_)
      refine ((hperm.cons _).cons _).trans ((List.perm_middle.symm.cons _).trans ?_)
      rw [hcreated, List.append_assoc]
      exact List.perm_middle.symm
    · exact iff_of_false (List.cons_ne_nil _ _) hnot
    · refine List.cons_subset.mpr ⟨?_, hsub'⟩
      rw [hcreated]
      exact List.mem_append_right _ List.mem_cons_self
  | full hsz hp =>
    have hback := fun hnew : (names (done ++ [rec])).Nodup => hnew.sublist (names_sublist done rec)
    have hsnoc : (names done).Nodup → names (done ++ [rec]) = names done := by
      intro hold
      have hlen := h.sz_eq hold
      exact names_snoc_of_le rec (by omega)
    refine ⟨heasy, howner, hnext, hsame hp, fun hnew => ?_, twice, ?_, ?_, hsub'⟩
    · rw [hsnoc (hback hnew)]
      exact (hp.map Prod.fst).trans (h.keys (hback hnew))
    · have hrel : Loading.released ⟨s.next + 1, ⟨s.next, rec⟩ :: s.recFrees, db⟩ =
        ⟨s.next, rec⟩ :: s.released := by
        rw [Loading.released, hfreed]
        rfl
      have hsnd : (Hmap.pairs db).map Prod.snd ~ (Hmap.pairs s.db).map Prod.snd := hp.map Prod.snd
      change _ ++ Loading.released ⟨s.next + 1, ⟨s.next, rec⟩ :: s.recFrees, db⟩ ~ _
      rw [hrel]
      exact (hsnd.append_right _).trans ((List.perm_middle.trans (hperm.cons _)).trans hswap)
    · rw [htwice]
      exact ⟨fun hold => by rwa [hsnoc hold], hback⟩

theorem Loaded.pushLines {done : List Rec} {s : Loading} (h : Loaded done s) (lines : List Line) :
    ∃ s', Loading.pushLines lines s = some s' ∧ Loaded (done ++ records lines) s' := by
  induction lines generalizing done s with
  | nil =>
    refine ⟨s, rfl, ?_⟩
    rw [records, List.filterMap_nil, List.append_nil]
    exact h
  | cons ln lines ih =>
    rw [Loading.pushLines, records_cons]
    unfold Line.record
    split
    · exact ih h
    · cases recNew (strtok ln.chomp [':']) with
      | none => exact ih h
      | some rec =>
        obtain ⟨s₁, hpush, h₁⟩ := h.push rec
        obtain ⟨s', hpushes, h'⟩ := ih h₁
        refine ⟨s', ?_, ?_⟩
        · dsimp only
          rw [hpush]
          exact hpushes
        · rw [List.append_assoc] at h'
          exact h'

/-- **What a load leaves.** -/
theorem loading_spec (lines : List Line) : ∃ s, loading lines = some s ∧
    Loaded (records lines) s := by
  obtain ⟨new, hnew, heasy, hempty⟩ := Hmap.easyNew_spec Ptr
  have hfreed := (Hmap.new_heap hnew).2.2
  have hstart : Loaded [] ⟨0, [], new⟩ := by
    refine ⟨heasy, Hmap.new_owner (Hmap.easyOpts_lawful Ptr) hnew, rfl, fun e he => ?_, fun _ => ?_,
      [], ?_, ?_, List.nil_subset _⟩
    · rw [hempty] at he
      cases he
    · rw [hempty]
      exact List.Perm.refl _
    · rw [Loading.released, hempty, hfreed]
      exact List.Perm.refl _
    · exact iff_of_true rfl List.nodup_nil
  obtain ⟨s, hpush, h⟩ := hstart.pushLines lines
  refine ⟨s, ?_, h⟩
  rw [loading, hnew]
  exact hpush

/-- The puts of some records, from an address on. -/
def entries (next : Nat) (recs : List Rec) : List (List Char × Ptr) :=
  (recs.zipIdx next).map fun p => (p.1.user, ⟨p.2, p.1⟩)

theorem pushLines_db (lines : List Line) (s : Loading) :
    (Loading.pushLines lines s).map Loading.db = Hmap.fill
    (entries s.next (records lines)) s.db := by
  induction lines generalizing s with
  | nil => rfl
  | cons ln lines ih =>
    rw [Loading.pushLines, records_cons]
    unfold Line.record
    split
    · exact ih s
    · cases recNew (strtok ln.chomp [':']) with
      | none => exact ih s
      | some rec =>
        dsimp only
        rw [Option.toList_some, List.singleton_append, entries, List.zipIdx_cons, List.map_cons,
          Hmap.fill, Loading.push]
        cases hput : s.db.easyPut rec.user ⟨s.next, rec⟩ with
        | none => rfl
        | some r => exact ih _

theorem kept_map {β γ : Type} (f : β → γ) (seen : List (List Char)) (l : List (List Char × β)) :
    (Hmap.kept seen l).map (Prod.map id f) = Hmap.kept seen (l.map (Prod.map id f)) := by
  induction l generalizing seen with
  | nil => rfl
  | cons e l ih =>
    rw [List.map_cons, Hmap.kept, Hmap.kept]
    by_cases h : e.1 ∈ seen ∨ Hmap.capacity ≤ seen.length
    · rw [if_pos h, if_pos (by exact h)]
      exact ih seen
    · rw [if_neg h, if_neg (by exact h), List.map_cons]
      exact congrArg _ (ih (e.1 :: seen))

/-- But for the addresses, the map is that of `u_pwd_load`. -/
theorem loading_pairs (lines : List Line) : ∃ s new db, loading lines = some s ∧
    Hmap.easyNew Rec = some new ∧
    Pwd.pushLines lines new = some db ∧ (Hmap.pairs s.db).map (Prod.map id Ptr.record) ~
    Hmap.pairs db := by
  obtain ⟨s, hload, -⟩ := loading_spec lines
  obtain ⟨start, hstart, heasy, hempty⟩ := Hmap.easyNew_spec Ptr
  obtain ⟨new, hnew, heasy', hempty'⟩ := Hmap.easyNew_spec Rec
  have hseen : [] ~ (Hmap.pairs start).map Prod.fst := by rw [hempty, List.map_nil]
  have hseen' : [] ~ (Hmap.pairs new).map Prod.fst := by rw [hempty', List.map_nil]
  obtain ⟨m, hfill, -, hpairs⟩ := Hmap.fill_kept heasy hseen (entries 0 (records lines))
  obtain ⟨db, hfill', -, hpairs'⟩ :=
    Hmap.fill_kept heasy' hseen' ((records lines).map fun rec => (rec.user, rec))
  have hdb : m = s.db := by
    have hpush := pushLines_db lines ⟨0, [], start⟩
    rw [loading, hstart] at hload
    rw [show Loading.pushLines lines ⟨0, [], start⟩ = some s from hload] at hpush
    exact (Option.some.inj (hpush.trans hfill)).symm
  refine ⟨s, new, db, hload, hnew, (Pwd.pushLines_fill lines new).trans hfill', ?_⟩
  subst hdb
  rw [hempty, List.append_nil] at hpairs
  rw [hempty', List.append_nil] at hpairs'
  have hentries : (entries 0 (records lines)).map (Prod.map id Ptr.record) =
      (records lines).map fun rec => (rec.user, rec) := by
    rw [entries, List.map_map]
    conv_rhs => rw [← List.zipIdx_map_fst 0 (records lines), List.map_map]
    rfl
  rw [← hentries, ← kept_map] at hpairs'
  exact (hpairs.map _).trans hpairs'.symm

/-! ## 3. The end -/

/-- At the end, what is stored is released. -/
theorem Loaded.released_term {done : List Rec} {s : Loading} (h : Loaded done s) :
    s.term.released ~ (Hmap.pairs s.db).map Prod.snd ++ s.released := by
  have howns : s.db.opts.ownsData = true := h.owner.live.held.ownsData
  have hfreed : s.db.clear.freed = (Hmap.stored s.db).reverse.map Hmap.Obj.toHo ++
    s.db.freed := if_pos howns
  have hvals : ((Hmap.stored s.db).reverse.map Hmap.Obj.toHo).map Hmap.Ho.val ~
      (Hmap.pairs s.db).map Prod.snd := by
    rw [Hmap.pairs, Hmap.hos, List.map_map, List.map_map, List.map_map]
    exact (List.reverse_perm _).map _
  rw [Loading.released, Loading.released, Loading.term, hfreed, List.map_append,
    ← List.append_assoc, ← List.append_assoc]
  exact (List.perm_append_comm.trans (hvals.append_right _)).append_right _

/-- Every record is released once; and before the end, every user has one that is not. -/
structure Balanced (lines : List Line) (s : Loading) : Prop where
  once : ∀ a < s.next, (s.term.released.map Ptr.addr).count a = 1
  held : ∀ rec ∈ records lines, ∃ ptr, s.db.easyGet rec.user = some (some ptr, s.db) ∧
    ptr.record.user = rec.user ∧ ptr.addr ∉ s.released.map Ptr.addr

/-- No name comes twice in what the map takes, and no other one later. -/
def Distinct (done : List Rec) : Prop := (names done).Nodup ∧ ∀ rec ∈ done, rec.user ∈ names done

theorem Loaded.count_term {twice : List Ptr} {recs : List Rec} {s : Loading} (h : Loaded recs s)
    (hperm : (Hmap.pairs s.db).map Prod.snd ++ s.released ~ created recs ++ twice) {a : Nat}
    (ha : a < s.next) :
    (s.term.released.map Ptr.addr).count a = 1 + (twice.map Ptr.addr).count a := by
  have hrange : (List.range recs.length).count a = 1 := by
    rw [List.count_eq_one_of_mem List.nodup_range]
    rw [List.mem_range, ← h.next]
    exact ha
  have hall := (h.released_term.trans hperm).map Ptr.addr
  rw [hall.count_eq, List.map_append, List.count_append, addr_created, hrange]

/-- **Who releases the records.**  Loading and terminating release every record once, and leave one
for every user in between, exactly if the names differ.  A second record of a name is refused by the
map, which has released it then, and `u_pwd_db_load` releases it once more. -/
theorem balanced_iff (lines : List Line) :
    ∃ s, loading lines = some s ∧ (Balanced lines s ↔ Distinct (records lines)) := by
  obtain ⟨s, hload, h⟩ := loading_spec lines
  obtain ⟨twice, hperm, htwice, hsub⟩ := h.account
  refine ⟨s, hload, ?_, ?_⟩
  · intro hbal
    have hnil : twice = [] := by
      refine List.eq_nil_iff_forall_not_mem.mpr fun ptr hptr => ?_
      have hmade : ptr.addr ∈ List.range (records lines).length := by
        rw [← addr_created]
        exact List.mem_map_of_mem (hsub hptr)
      have ha : ptr.addr < s.next := by
        rw [h.next]
        exact List.mem_range.mp hmade
      have hcount := h.count_term hperm ha
      rw [hbal.once _ ha] at hcount
      have hpos : 0 < (twice.map Ptr.addr).count ptr.addr :=
        List.count_pos_iff.mpr (List.mem_map_of_mem hptr)
      omega
    have hnew := htwice.mp hnil
    refine ⟨hnew, fun rec hrec => ?_⟩
    obtain ⟨ptr, hget, -, -⟩ := hbal.held rec hrec
    obtain ⟨found, hget', hfound⟩ := Hmap.easyGet_spec h.easy rec.user
    rw [hget'] at hget
    obtain ⟨rfl, -⟩ := Prod.mk.inj (Option.some.inj hget)
    have hmem := (hfound ptr).mp rfl
    exact (h.keys hnew).mem_iff.mp (List.mem_map.mpr ⟨_, hmem, rfl⟩)
  · rintro ⟨hnew, hall⟩
    have hnil := htwice.mpr hnew
    rw [hnil] at hperm
    refine ⟨fun a ha => ?_, fun rec hrec => ?_⟩
    · rw [h.count_term hperm ha]
      rfl
    · obtain ⟨e, he, hkey⟩ := List.mem_map.mp ((h.keys hnew).mem_iff.mpr (hall rec hrec))
      obtain ⟨found, hget, hfound⟩ := Hmap.easyGet_spec h.easy rec.user
      have hmem : (rec.user, e.2) ∈ Hmap.pairs s.db := by
        rw [← hkey]
        exact he
      obtain rfl := (hfound e.2).mpr hmem
      refine ⟨e.2, hget, (h.users e he).trans hkey, fun hrel => ?_⟩
      -- it would be there twice
      have hnodup : (((Hmap.pairs s.db).map Prod.snd ++ s.released).map Ptr.addr).Nodup := by
        rw [(hperm.map Ptr.addr).nodup_iff, List.append_nil, addr_created]
        exact List.nodup_range
      rw [List.map_append, List.nodup_append] at hnodup
      exact hnodup.2.2 _ (List.mem_map_of_mem (List.mem_map_of_mem he)) _ hrel rfl

/-- Two lines for a user. -/
def twoLines : List Line := [⟨['a', ':', 'b'], by decide, by decide⟩,
  ⟨['a', ':', 'c'], by decide, by decide⟩]

/-- The second record is released by the map, and by the load. -/
theorem not_balanced_twoLines : ∃ s, loading twoLines = some s ∧ ¬ Balanced twoLines s := by
  have hload : (loading twoLines).map (fun s => (s.next, (s.term.released.map Ptr.addr).count 1)) =
    some (2, 2) := by
    decide +kernel
  obtain ⟨s, hs, heq⟩ := Option.map_eq_some_iff.mp hload
  obtain ⟨hnext, hcount⟩ := Prod.mk.inj heq
  refine ⟨s, hs, fun hbalanced => ?_⟩
  have honce := hbalanced.once 1 (by rw [hnext]; decide)
  rw [hcount] at honce
  cases honce

end Libu.Pwd
