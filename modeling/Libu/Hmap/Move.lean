/-
# Walks over a hash map, and copies of one map into another

`u_hmap_foreach` and its variants call a function for every object, bucket by bucket, and
`u_hmap_copy` moves every object, until one call fails.

A walk is compared with the list of the objects as it was at its beginning, and a copy with the
lists of both maps.  The objects that a copy has moved are a front of that list, put into the other
map one after the other; it stops at the first one that is refused, which is lost, and those behind
it are where they were.

* §1 is the walk.  The function that is called has a state of its own, and does not change the map.
* §2: a walk is one over the finite map that the hash map stands for (`foreach_finite_map`).
* §3: a copy loses nothing but the object at which it stops (`copy_moves`).
-/
import Libu.Hmap.Map

namespace Libu.Hmap

open Verif
open scoped List

variable {κ β : Type} {m : Hmap κ β} {σ : Type}

/-! ## 1. Walks -/

/-- The inner loop of a walk; `call` is what is done with an object. -/
def foreachBucket (call : Obj κ β → σ → Int × σ) : List (Obj κ β) → σ → Ret × σ
  | [], s => (.errNone, s)
  | obj :: rest, s =>
    let (rc, s) := call obj s
    if rc ≠ 0 then (.errFail, s) else foreachBucket call rest s

/-- The outer loop of a walk. -/
def foreachBuckets (call : Obj κ β → σ → Int × σ) (m : Hmap κ β) : List Nat → σ → Ret × σ
  | [], s => (.errNone, s)
  | i :: is, s =>
    let (ret, s) := foreachBucket call (m.buckets i) s
    if ret ≠ .errNone then (.errFail, s) else foreachBuckets call m is s

/-- `u_hmap_foreach` -/
def foreach (m : Hmap κ β) (f : β → σ → Int × σ) : σ → Ret × σ :=
  foreachBuckets (fun obj => f obj.val) m (List.range m.size)

/-- `u_hmap_foreach_arg` -/
def foreachArg {α : Type} (m : Hmap κ β) (f : β → α → σ → Int × σ) (arg : α) : σ → Ret × σ :=
  foreachBuckets (fun obj => f obj.val arg) m (List.range m.size)

/-- `u_hmap_foreach_keyval` -/
def foreachKeyval (m : Hmap κ β) (f : κ → β → σ → Int × σ) : σ → Ret × σ :=
  foreachBuckets (fun obj => f obj.key obj.val) m (List.range m.size)

/-! ## 2. The finite map -/

/-- A walk over a list of keys and values. -/
def visit (f : κ → β → σ → Int × σ) : List (κ × β) → σ → Ret × σ
  | [], s => (.errNone, s)
  | e :: l, s =>
    let (rc, s) := f e.1 e.2 s
    if rc ≠ 0 then (.errFail, s) else visit f l s

theorem foreachBucket_append (call : Obj κ β → σ → Int × σ) (l l' : List (Obj κ β)) (s : σ) :
    foreachBucket call (l ++ l') s =
      if (foreachBucket call l s).1 ≠ .errNone then (.errFail, (foreachBucket call l s).2)
      else foreachBucket call l' (foreachBucket call l s).2 := by
  induction l generalizing s with
  | nil => simp [foreachBucket]
  | cons obj l ih =>
    simp only [List.cons_append, foreachBucket]
    split
    · simp
    · exact ih _

/-- The two loops are one over the stored objects. -/
theorem foreachBuckets_eq (call : Obj κ β → σ → Int × σ) (m : Hmap κ β) (is : List Nat) (s : σ) :
    foreachBuckets call m is s = foreachBucket call (is.flatMap m.buckets) s := by
  induction is generalizing s with
  | nil => rfl
  | cons i is ih =>
    simp only [List.flatMap_cons, foreachBucket_append, foreachBuckets]
    split
    · rfl
    · exact ih _

theorem foreachBucket_eq_visit (f : κ → β → σ → Int × σ) (l : List (Obj κ β)) (s : σ) :
    foreachBucket (fun obj => f obj.key obj.val) l s =
      visit f (l.map fun obj => (obj.key, obj.val)) s := by
  induction l generalizing s with
  | nil => rfl
  | cons obj l ih =>
    simp only [List.map_cons, foreachBucket, visit]
    split
    · rfl
    · exact ih _

/-- The keys and values of a map, as a walk meets them. -/
def entries (m : Hmap κ β) : List (κ × β) := (stored m).map fun obj => (obj.key, obj.val)

theorem foreachKeyval_eq (f : κ → β → σ → Int × σ) (s : σ) :
    m.foreachKeyval f s = visit f (entries m) s := by
  rw [foreachKeyval, foreachBuckets_eq, foreachBucket_eq_visit]
  rfl

theorem keys_entries : (entries m).map Prod.fst = (hos m).map Ho.key := by
  rw [entries, hos, List.map_map, List.map_map]
  rfl

theorem not_holeBefore_chain (htype : m.opts.type = .chain) (k : κ) : ¬ HoleBefore m k := by
  rintro ⟨hlinear, -⟩
  rw [htype] at hlinear
  cases hlinear

theorem putSafe_chain (htype : m.opts.type = .chain) (op : MapOp κ β) : PutSafe m op := by
  cases op with
  | cache op =>
    cases op with
    | put k v mem => exact Or.inr (not_holeBefore_chain htype k)
    | get k => trivial
  | del k => trivial

variable {opts : Opts κ β}

section FiniteMap

variable [DecidableEq κ]

/-- The entries are those of the finite map. -/
theorem mem_entries (hd : Distinct (hos m)) {k : κ} {v : β} :
    (k, v) ∈ entries m ↔ contents m k = some v := by
  have hnodup : ((hos m).map Ho.entry).NodupKeys := by
    rw [List.NodupKeys, keys_entry]
    exact hd
  have hlookup := List.mem_dlookup_iff (a := k) (b := v) hnodup
  rw [Option.mem_def] at hlookup
  rw [contents, lookup, hlookup]
  simp [entries, hos, Ho.entry]

/-- What holds before a run of calls on a map without policy holds behind it. -/
theorem plain_of_run (htype : opts.type = .chain) (h : Plain opts m) {ops : List (MapOp κ β)}
    {rs : List (Res κ β)} {m' : Hmap κ β} (hrun : run MapOp.exec m ops = some (rs, m')) :
    Plain opts m' := by
  induction ops generalizing m rs with
  | nil =>
    obtain ⟨-, rfl⟩ := Prod.mk.inj (Option.some.inj hrun)
    exact h
  | cons op ops ih =>
    simp only [run, Option.bind_eq_bind, Option.bind_eq_some_iff, Prod.exists] at hrun
    obtain ⟨r, m₁, hst, rs₁, m₂, hrun₁, heq⟩ := hrun
    obtain ⟨-, rfl⟩ := Prod.mk.inj (Option.some.inj heq)
    have hchain : m.opts.type = .chain := by rw [h.opts_eq]; exact htype
    obtain ⟨r', m₁', hst', -, h₁⟩ := exec_spec h op (putSafe_chain hchain op)
    obtain ⟨-, rfl⟩ : r = r' ∧ m₁ = m₁' := by simpa [hst] using hst'
    exact ih h₁ hrun₁

/-- **A walk meets every entry of the finite map once.**  After every run of puts, gets and dels on
a chained map, for every function with any state of its own: what `u_hmap_foreach_keyval` does is
done with a list of the entries of the finite map, each of them once, up to the first for which the
function fails; there are as many as `u_hmap_count` says. -/
theorem foreach_finite_map (hl : Lawful opts) (htype : opts.type = .chain)
    (hp : opts.policy = .none) {brk : Nat} {freed : List (Ho κ β)} {avail : Nat → QMem}
    (hnew : new opts brk freed avail = some m) {ops : List (MapOp κ β)} {rs : List (Res κ β)}
    {m' : Hmap κ β} (hrun : run MapOp.exec m ops = some (rs, m')) :
    ∃ l : List (κ × β), (l.map Prod.fst).Nodup ∧ (∀ k v, (k, v) ∈ l ↔ contents m' k = some v) ∧
      count m' = l.length ∧
      (∀ (σ : Type) (f : κ → β → σ → Int × σ) s, m'.foreachKeyval f s = visit f l s) ∧
      (∀ (σ : Type) (f : β → σ → Int × σ) s, m'.foreach f s = visit (fun _ => f) l s) ∧
      ∀ (σ α : Type) (f : β → α → σ → Int × σ) (arg : α) s,
        m'.foreachArg f arg s = visit (fun _ v => f v arg) l s := by
  have h := plain_of_run htype (new_plain hl hp hnew).1 hrun
  have hcount : count m' = (entries m').length := by
    have h₁ := h.sz_le
    have h₂ := h.threshold_eq
    have h₃ := h.size_le
    rw [count, SizeT.toSigned_of_lt (by omega), h.sz_eq, entries, hos, List.length_map,
      List.length_map]
  refine ⟨entries m', ?_, fun k v => mem_entries h.distinct, hcount,
    fun _ f s => foreachKeyval_eq f s, fun _ f s => foreachKeyval_eq (fun _ => f) s,
    fun _ _ f arg s => foreachKeyval_eq (fun _ v => f v arg) s⟩
  rw [keys_entries]
  exact h.distinct

/-- Two keys of one bucket, one of them taken out again. -/
def twoKeys : List (MapOp Nat Char) := [.cache (.put 1 'a' .ok), .cache (.put 14 'b' .ok), .del 1]

theorem foreach_finite_map_nat : ∃ rs m', run MapOp.exec (natMap .chain) twoKeys = some (rs, m') ∧
    ∃ l : List (Nat × Char), (l.map Prod.fst).Nodup ∧
      (∀ k v, (k, v) ∈ l ↔ contents m' k = some v) ∧ count m' = l.length ∧
      (∀ (σ : Type) (f : Nat → Char → σ → Int × σ) s, m'.foreachKeyval f s = visit f l s) ∧
      (∀ (σ : Type) (f : Char → σ → Int × σ) s, m'.foreach f s = visit (fun _ => f) l s) ∧
      ∀ (σ α : Type) (f : Char → α → σ → Int × σ) (arg : α) s,
        m'.foreachArg f arg s = visit (fun _ v => f v arg) l s :=
  have hsome : (run MapOp.exec (natMap .chain) twoKeys).isSome = true := rfl
  have ⟨⟨rs, m'⟩, hrun⟩ := Option.isSome_iff_exists.mp hsome
  ⟨rs, m', hrun, foreach_finite_map (natOpts_lawful .chain) rfl rfl (new_natOpts .chain) hrun⟩

end FiniteMap

/-! ## 3. Copies -/

/-- What one put of a copy does to the objects of its map: the object is added or takes the place of
one with its key, or it is refused because of its key, or because the map has to grow and does
not. -/
inductive MovePut (opts : Opts κ β) (mem : Mem) (l : List (Ho κ β)) (ho : Ho κ β)
    (m' : Hmap κ β) : Ret → Prop
  | added (hk : ho.key ∉ l.map Ho.key) (hp : hos m' ~ ho :: l) : MovePut opts mem l ho m' .errNone
  | replaced {old rest} (hk : old.key = ho.key) (hno : opts.noOverwrite = false)
      (hl : l ~ old :: rest) (hp : hos m' ~ ho :: rest) : MovePut opts mem l ho m' .errNone
  | known (hk : ho.key ∈ l.map Ho.key) (hno : opts.noOverwrite = true) (hp : hos m' ~ l) :
      MovePut opts mem l ho m' .errExists
  | full (hfails : ResizeFails m' mem) (hp : hos m' ~ l) :
      MovePut opts mem l ho m' .errFail

theorem put_moves (h : Plain opts m) (htype : opts.type = .chain) (obj : Obj κ β) (mem : Mem) :
    ∃ res m', m.put obj mem = some (res, m') ∧ Plain opts m' ∧
      MovePut opts mem (hos m) obj.toHo m' res.ret := by
  have hchain : m.opts.type = .chain := by rw [h.opts_eq]; exact htype
  obtain ⟨res, m', hput, h', hcases, -⟩ :=
    put_spec h obj mem (Or.inr (not_holeBefore_chain hchain obj.key))
  refine ⟨res, m', hput 0, h', ?_⟩
  rcases hcases with hdone | ⟨-, rfl, hhos, hfails⟩
  · cases hdone with
    | added hk hp => exact .added hk hp
    | refused hk hl hno hp =>
      refine .known ?_ hno hp
      rw [← hk]
      exact List.mem_map_of_mem (hl.symm.mem_iff.mp List.mem_cons_self)
    | replaced hk hl hno hp => exact .replaced hk hno hl hp
  · exact .full hfails (hhos ▸ List.Perm.refl _)

section Copy

variable [DecidableEq κ]

/-- A finite map after objects have been put into it, one after the other. -/
def moveIn (f : κ → Option β) (l : List (Obj κ β)) : κ → Option β :=
  l.foldl (fun f obj => Function.update f obj.key (some obj.val)) f

/-- How far a copy has come: all of the objects `rest` that it did not move are still where they
were (`left`), but for the first of them, at which it stopped.  It stops there because the object's
key is known and keys are not overwritten, or because the map it copies to is as full as it may be
(`ResizeFails`) and there is no memory for a larger table, or no larger prime. -/
inductive Stopped (opts : Opts κ β) (mem : Mem) (dst : Hmap κ β) :
    Bool → List (Obj κ β) → List (Obj κ β) → Prop
  | done : Stopped opts mem dst true [] []
  | known {obj left} (hno : opts.noOverwrite = true) (hk : (contents dst obj.key).isSome) :
      Stopped opts mem dst false (obj :: left) left
  | full {obj left} (hfails : ResizeFails dst mem) :
      Stopped opts mem dst false (obj :: left) left

theorem Stopped.of_true {mem : Mem} {rest left : List (Obj κ β)}
    (h : Stopped opts mem m true rest left) : rest = [] ∧ left = [] := by
  cases h
  exact ⟨rfl, rfl⟩

theorem Stopped.append {mem : Mem} {rest left : List (Obj κ β)}
    (h : Stopped opts mem m false rest left) (l : List (Obj κ β)) :
    Stopped opts mem m false (rest ++ l) (left ++ l) := by
  cases h with
  | known hno hk => exact .known hno hk
  | full hfails => exact .full hfails

/-- What a copy has made of the map it copies to, when it has moved the objects `moved`. -/
structure Took (opts : Opts κ β) (dst dst' : Hmap κ β) (moved : List (Obj κ β)) : Prop where
  plain : Plain opts dst'
  contents : contents dst' = moveIn (contents dst) moved
  kept : opts.noOverwrite = true → hos dst' ~ moved.map Obj.toHo ++ hos dst

theorem Took.refl (h : Plain opts m) : Took opts m m [] := ⟨h, rfl, fun _ => List.Perm.refl _⟩

theorem Took.trans {m₁ m₂ : Hmap κ β} {l₁ l₂ : List (Obj κ β)} (h₁ : Took opts m m₁ l₁)
    (h₂ : Took opts m₁ m₂ l₂) : Took opts m m₂ (l₁ ++ l₂) := by
  refine ⟨h₂.plain, ?_, fun hno => ?_⟩
  · rw [h₂.contents, h₁.contents, moveIn, moveIn, moveIn, List.foldl_append]
  · have hperm := (h₂.kept hno).trans ((h₁.kept hno).append_left _)
    rw [List.map_append, List.append_assoc]
    exact hperm.trans (List.perm_append_comm_assoc _ _ _)

/-- **One put of a copy.** -/
theorem put_took (h : Plain opts m) (htype : opts.type = .chain) (obj : Obj κ β) (mem : Mem) :
    ∃ res m', m.put obj mem = some (res, m') ∧
      (res.ret = .errNone ∧ Took opts m m' [obj] ∨
        res.ret ≠ .errNone ∧ Took opts m m' [] ∧
          ∀ left, Stopped opts mem m' false (obj :: left) left) := by
  obtain ⟨res, m', hput, h', hmove⟩ := put_moves h htype obj mem
  refine ⟨res, m', hput, ?_⟩
  have hd := h'.distinct
  generalize res.ret = ret at hmove ⊢
  cases hmove with
  | added hk hp =>
    refine .inl ⟨rfl, h', ?_, fun _ => hp⟩
    rw [contents, lookup_perm hd hp, lookup_cons]
    rfl
  | @replaced old rest hk hno hl hp =>
    refine .inl ⟨rfl, h', ?_, fun hyes => absurd (hno.symm.trans hyes) (by simp)⟩
    rw [contents, contents, lookup_perm hd hp, lookup_perm h.distinct hl, lookup_cons]
    change _ = Function.update _ _ _
    rw [lookup_cons, hk, Function.update_idem]
  | known hk hno hp =>
    refine .inr ⟨by simp, ⟨h', lookup_perm hd hp, fun _ => hp⟩, fun left => .known hno ?_⟩
    rw [contents, lookup_perm hd hp, Option.isSome_iff_ne_none, Ne, lookup_eq_none]
    exact not_not_intro hk
  | full hfails hp =>
    exact .inr ⟨by simp, ⟨h', lookup_perm hd hp, fun _ => hp⟩, fun left => .full hfails⟩

/-- The inner loop of a copy. -/
theorem copyBucket_took (htype : opts.type = .chain) (mem : Mem) (i : Nat) :
    ∀ (l : List (Obj κ β)) {dst : Hmap κ β} (src : Hmap κ β), Plain opts dst →
    src.buckets i = l →
    ∃ ok dst' src' moved rest left,
      copyBucket (fun m obj => m.put obj mem) i l dst src = some (ok, dst', src') ∧
      l = moved ++ rest ∧ Took opts dst dst' moved ∧ Stopped opts mem dst' ok rest left ∧
      src' = src.setBucket i left
  | [], dst, src, h, hl => by
    refine ⟨true, dst, src, [], [], [], rfl, rfl, .refl h, .done, ?_⟩
    rw [setBucket, ← hl, Function.update_eq_self]
  | obj :: l, dst, src, h, hl => by
    obtain ⟨res, dst₁, hput, hcases⟩ := put_took h htype obj mem
    rcases hcases with ⟨hok, htook⟩ | ⟨hfail, htook, hstop⟩
    · obtain ⟨ok, dst', src', moved, rest, left, hcopy, rfl, htook', hstop, hsrc⟩ :=
        copyBucket_took htype mem i l (src.setBucket i l) htook.plain (by simp [setBucket])
      refine ⟨ok, dst', src', obj :: moved, rest, left, ?_, rfl, htook.trans htook', hstop, ?_⟩
      · simp [copyBucket, hput, hok, hcopy]
      · simp [hsrc, setBucket]
    · refine ⟨false, dst₁, src.setBucket i l, [], obj :: l, l, ?_, rfl, htook, hstop l, rfl⟩
      simp [copyBucket, hput, hfail]

/-- The outer loop of a copy. -/
theorem copyBuckets_took (htype : opts.type = .chain) (mem : Mem) :
    ∀ (is : List Nat) {dst : Hmap κ β} (src : Hmap κ β), is.Nodup → Plain opts dst →
    ∃ ok dst' src' moved rest left,
      copyBuckets (fun m obj => m.put obj mem) is dst src = some (ok, dst', src') ∧
      is.flatMap src.buckets = moved ++ rest ∧ Took opts dst dst' moved ∧
      Stopped opts mem dst' ok rest left ∧ is.flatMap src'.buckets = left ∧
      (∀ j, j ∉ is → src'.buckets j = src.buckets j) ∧ src'.size = src.size ∧ src'.sz = src.sz
  | [], dst, src, _, h =>
    ⟨true, dst, src, [], [], [], rfl, rfl, .refl h, .done, rfl, fun _ _ => rfl, rfl, rfl⟩
  | i :: is, dst, src, hnd, h => by
    obtain ⟨hi, his⟩ := List.nodup_cons.mp hnd
    obtain ⟨ok, dst₁, src₁, moved, rest, left, hcopy, hsplit, htook, hstop, rfl⟩ :=
      copyBucket_took htype mem i (src.buckets i) src h rfl
    have hothers : is.flatMap (src.setBucket i left).buckets = is.flatMap src.buckets := by
      refine List.flatMap_congr ?_
      intro j hj
      have hne : j ≠ i := fun hji => hi (hji ▸ hj)
      exact setBucket_of_ne hne src left
    cases ok with
    | true =>
      obtain ⟨rfl, rfl⟩ := hstop.of_true
      obtain ⟨ok', dst', src', moved', rest', left', hcopy', hsplit', htook', hstop', hleft, hsrc,
        hsize, hsz⟩ := copyBuckets_took htype mem is (src.setBucket i []) his htook.plain
      have hnil : src'.buckets i = [] := by
        rw [hsrc i hi]
        simp [setBucket]
      refine ⟨ok', dst', src', moved ++ moved', rest', left', ?_, ?_, htook.trans htook', hstop',
        ?_, fun j hj => ?_, hsize, hsz⟩
      · simp [copyBuckets, hcopy, hcopy']
      · rw [List.flatMap_cons, hsplit, List.append_nil, ← hothers, hsplit', List.append_assoc]
      · rw [List.flatMap_cons, hnil, hleft, List.nil_append]
      · obtain ⟨hji, hj⟩ := not_or.mp (mt List.mem_cons.mpr hj)
        rw [hsrc j hj, setBucket_of_ne hji]
    | false =>
      refine ⟨false, dst₁, src.setBucket i left, moved, rest ++ is.flatMap src.buckets,
        left ++ is.flatMap src.buckets, ?_, ?_, htook, hstop.append _, ?_, fun j hj => ?_, rfl,
        rfl⟩
      · simp [copyBuckets, hcopy]
      · rw [List.flatMap_cons, hsplit, List.append_assoc]
      · rw [List.flatMap_cons, hothers]
        simp [setBucket]
      · exact setBucket_of_ne (List.ne_of_not_mem_cons hj) src left

/-- **A copy loses nothing but the object at which it stops.**  The map `to` is chained, has no
policy and is as a run of puts, gets and dels leaves it (`plain_of_run`); a cleared one, whose count
is that of objects it no longer has, is not.  Nothing is asked of `from`.  `u_hmap_copy` takes the
objects in the order of the walk; those that it moves are put into the finite map of `to`, one after
the other, and no object of `to` is lost unless it may be overwritten.  It stops at the first object
whose key is known where keys are not overwritten, or for which the map has to grow and does not;
this object is then in neither map, and those behind it are all still in `from`.  The count of
`from` stays what it was. -/
theorem copy_moves {dst src : Hmap κ β} (h : Plain opts dst) (htype : opts.type = .chain)
    (mem : Mem) :
    ∃ ok dst' src' moved rest,
      copy (fun m obj => m.put obj mem) dst src = some (ok, dst', src') ∧
      stored src = moved ++ rest ∧ Took opts dst dst' moved ∧
      Stopped opts mem dst' ok rest (stored src') ∧ src'.sz = src.sz := by
  obtain ⟨ok, dst', src', moved, rest, left, hcopy, hsplit, htook, hstop, hleft, -, hsize, hsz⟩ :=
    copyBuckets_took htype mem (List.range src.size) src List.nodup_range h
  refine ⟨ok, dst', src', moved, rest, hcopy, hsplit, htook, ?_, hsz⟩
  rw [stored, hsize, hleft]
  exact hstop

/-- An object of its own is moved into an empty map. -/
theorem copy_moves_nat : ∃ ok dst' src' moved rest,
    copy (fun m obj => m.put obj .ok) (natMap .chain)
      ((natMap .chain).setBucket 1 [⟨⟨0, 1, 'a'⟩, none⟩]) = some (ok, dst', src') ∧
    stored ((natMap .chain).setBucket 1 [⟨⟨0, 1, 'a'⟩, none⟩]) = moved ++ rest ∧
    Took (natOpts .chain) (natMap .chain) dst' moved ∧
    Stopped (natOpts .chain) .ok dst' ok rest (stored src') ∧ src'.sz = 0 :=
  copy_moves (new_plain (natOpts_lawful .chain) rfl (new_natOpts .chain)).1 rfl .ok

end Copy

end Libu.Hmap
