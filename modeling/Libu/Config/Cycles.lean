/-
# Files that include each other (`toolbox/config.c`)

The guard of `u_config_include` compares a path with the `include` children of one node.  Every file
that is read into a node adds such a child, and no later line gives another value to any but the
first of them (`Tends`).  So a cycle of include lines comes to an end where all of its lines are
read into the same node and one of them is spelled `include`: each time round takes one of finitely
many paths.  In a section every time round has a node of its own, and an `-include` adds no child
that is compared.

* §1: files are in order when no cycle goes through a section, or through `-include` lines only, and
  when no line leaves an `include` child without a value (`Tame`).
* §2: how many `include` lines the guard may still let pass at a node (`budget`).
* §3: the rank of a round: every call of a round has a lower one (`rank_lt`).
* §4: where all include lines are spelled `-include` and there is no section, a line that leads to a
  cycle is never done with (`not_doomed_of_returns`).
* §5: loading files that are in order ends, and in the case of §4 it ends only then (`load_ends`).
-/
import Libu.Config.Reached
import Libu.Verif.Ahead
import Mathlib.Data.Prod.Lex

namespace Libu.Config

open Verif Relation

variable {c c' : Config} {p : Path} {i : Nat} {key value : List Char} {overwrite : Bool}

/-! ## 1. Files in order -/

/-- **The guard cuts every cycle of the files**: the include lines of a cycle are in no section of
their file, those that are spelled `include` take no paths from variables that a `resolv` callback
could bring back to one file, and none are all spelled `-include`.  And no line leaves an `include`
without a value, which the guard could not compare. -/
structure Tame (drv : Driver) (src : Source) : Prop where
  flat : ∀ file s uri, InReach drv src file → Includes drv src file s uri →
    ReflTransGen (Edge drv src) (some uri) file → s.depth = 0 ∧
      (s.key = includeKey → drv.resolv = none ∨ ¬ ['$', '{'] <:+: s.value)
  forced : ∀ file, InReach drv src file → ¬ TransGen (OptEdge drv src) file file
  quiet : ∀ file s, InReach drv src file → s ∈ settings drv src file → Quiet s.key s.value

/-- Where no line leaves an `include` child without a value, each of them keeps its value. -/
theorem kept_of_quiet {drv : Driver} {src₀ : Source}
    (h : ∀ file s, InReach drv src₀ file → s ∈ settings drv src₀ file → Quiet s.key s.value) :
    Kept drv src₀ Valued := by
  constructor
  · intro file s hreach hs
    exact (h file s hreach hs).keeps
  · intro key hkey hinc
    exact absurd hinc hkey

theorem Tame.kept {drv : Driver} {src₀ : Source} (h : Tame drv src₀) : Kept drv src₀ Valued :=
  kept_of_quiet h.quiet

/-! ## 2. What is left to be included -/

/-- The node at `p` has an `include` child. -/
def Begun (c : Config) (p : Path) : Prop :=
  ∃ i item, c.children.label (p ++ [i]) = some item ∧ item.key = includeKey

/-- An `include` child of the node at `p`, but not the first one, has the path. -/
def Taken (c : Config) (p : Path) (path : List Char) : Prop :=
  ∃ i item, c.children.label (p ++ [i]) = some item ∧ item.key = includeKey ∧
    ¬ FirstAt c p i includeKey ∧ item.value = some path

theorem Begun.mono (h : Begun c p) (htends : Tends c c') : Begun c' p := by
  obtain ⟨i, item, hitem, hkey⟩ := h
  obtain ⟨item', hitem', hkey'⟩ := htends.key _ item hitem
  exact ⟨i, item', hitem', hkey'.trans hkey⟩

theorem Taken.mono {path : List Char} (h : Taken c p path) (htends : Tends c c') :
    Taken c' p path := by
  obtain ⟨i, item, hitem, hkey, hnot, hvalue⟩ := h
  exact ⟨i, item, htends.value p i item hitem (by rwa [hkey]), hkey,
    fun hfirst => hnot (htends.first hfirst), hvalue⟩

open scoped Classical in
/-- How many `include` lines the guard may still let pass at the node at `p`: one for the first
child, and one for each path that is not taken. -/
noncomputable def budget (paths : Finset (List Char)) (c : Config) (p : Path) : Nat :=
  (paths.filter fun path => ¬ Taken c p path).card + if Begun c p then 0 else 1

variable {paths : Finset (List Char)}

/-- **Budgets only shrink.** -/
theorem budget_le (h : Tends c c') (p : Path) : budget paths c' p ≤ budget paths c p := by
  classical
  refine Nat.add_le_add (Finset.card_le_card fun path hpath => ?_) ?_
  · rw [Finset.mem_filter] at hpath ⊢
    exact ⟨hpath.1, fun htaken => hpath.2 (htaken.mono h)⟩
  · by_cases hbegun : Begun c p
    · rw [if_pos hbegun, if_pos (hbegun.mono h)]
    · rw [if_neg hbegun]
      split <;> omega

/-- **An `include` line that the guard lets pass** takes from the budget. -/
theorem budget_lt {drv : Driver} {f : Frame} {uri path : List Char} {src : Source}
    (h : Passed drv f includeKey value uri c src i path) (htends : Tends f.c c)
    (hpath : path ∈ paths) : budget paths c f.p < budget paths f.c f.p := by
  classical
  have hle : (paths.filter fun path => ¬ Taken c f.p path) ⊆
      paths.filter fun path => ¬ Taken f.c f.p path := by
    intro x hx
    rw [Finset.mem_filter] at hx ⊢
    exact ⟨hx.1, fun htaken => hx.2 (htaken.mono htends)⟩
  have hbegun : Begun c f.p := ⟨i, _, h.set, rfl⟩
  by_cases hold : Begun f.c f.p
  · -- the new child is not the first, and no other one has the path
    rw [budget, budget, if_pos hbegun, if_pos hold]
    refine Nat.add_lt_add_right (Finset.card_lt_card (Finset.ssubset_iff_of_subset hle |>.mpr
      ⟨path, Finset.mem_filter.mpr ⟨hpath, ?_⟩, ?_⟩)) 0
    · rintro ⟨j, item, hitem, hkey, hnot, hvalue⟩
      have hj := htends.value f.p j item hitem (by rwa [hkey])
      refine h.guard j item hj hkey ?_ hvalue
      rintro rfl
      rw [h.new] at hitem
      cases hitem
    · rw [Finset.mem_filter, not_and_not_right]
      intro _
      obtain ⟨j, item, hitem, hkey⟩ := hold
      obtain ⟨item', hitem', hkey'⟩ := htends.key _ item hitem
      refine ⟨i, _, h.set, rfl, fun hfirst => hfirst j ?_ item' hitem' (hkey'.trans hkey), rfl⟩
      have hnew := h.new
      rw [← items_getElem?] at hitem hnew
      have hlt := (List.getElem?_eq_some_iff.mp hitem).1
      exact Nat.lt_of_lt_of_le hlt (List.getElem?_eq_none_iff.mp hnew)
  · rw [budget, budget, if_pos hbegun, if_neg hold]
    have := Finset.card_le_card hle
    omega

/-! ## 3. The rank of a round -/

section Rank

variable {drv : Driver} {src₀ src src' : Source} {f g : Frame} {d : Nat} {uri path : List Char}
  {uris : List (List Char)} {files : Finset (Option (List Char))}

/-- The rank of a round that is `d` sections deep in its file.  An include line on no cycle leads to
a file with less ahead; a section is left behind with its node; an `include` line takes from the
budget of the node, and an `-include` line leads to a file with fewer `-include` lines ahead. -/
noncomputable def rank (drv : Driver) (src₀ : Source) (files : Finset (Option (List Char)))
    (paths : Finset (List Char)) (d : Nat) (f : Frame) : Nat ×ₗ Nat ×ₗ Nat ×ₗ Nat :=
  toLex (ahead (Edge drv src₀) files f.files.head?,
    toLex (if d = 0 then budget paths f.c f.p + 1 else 0,
      toLex (ahead (OptEdge drv src₀) files f.files.head?, f.src.length)))

/-- The files that may come to be read can be opened. -/
theorem InReach.mem (hfin : ∀ opens ∈ drv.opens, ∀ uri src, opens uri = some src → uri ∈ uris)
    {file : Option (List Char)} (h : InReach drv src₀ file) :
    file ∈ (none :: uris.map some).toFinset := by
  rw [List.mem_toFinset]
  rcases h.cases_tail with rfl | ⟨_, -, s, uri, rfl, hincl⟩
  · exact List.mem_cons_self
  · obtain ⟨src, hsrc⟩ := Option.ne_none_iff_exists'.mp hincl.opens
    obtain ⟨opens, hopens, hsrc⟩ := Option.bind_eq_some_iff.mp hsrc
    exact List.mem_cons_of_mem _ (List.mem_map_of_mem (hfin opens hopens uri src hsrc))

/-- The paths of the `include` lines on the cycles: names of files, or values without variables. -/
def pathsOf (drv : Driver) (src₀ : Source) (uris : List (List Char)) : Finset (List Char) :=
  (uris ++ (none :: uris.map some).flatMap fun file =>
    (settings drv src₀ file).map fun s => trim s.value).toFinset

theorem Passed.path_mem (h : Passed drv f key value uri c src i path)
    (hfin : ∀ opens ∈ drv.opens, ∀ uri src, opens uri = some src → uri ∈ uris)
    (hreach : InReach drv src₀ f.files.head?)
    (hmem : ⟨d, key, value⟩ ∈ settings drv src₀ f.files.head?)
    (hplain : drv.resolv = none ∨ ¬ ['$', '{'] <:+: value) :
    path ∈ pathsOf drv src₀ uris := by
  rw [pathsOf, List.mem_toFinset, List.mem_append]
  rcases hplain with hresolv | hplain
  · left
    obtain ⟨opens, hopens, hsrc⟩ := Option.bind_eq_some_iff.mp h.opens
    obtain ⟨names, s, -, rfl⟩ := h.stands
    have huri := h.resolves
    rw [hresolv, Option.getD_none, trim, List.dropWhile_idempotent, ← trim] at huri
    rw [Option.some.inj huri]
    exact hfin opens hopens uri src hsrc
  · right
    rw [List.mem_flatMap]
    refine ⟨f.files.head?, List.mem_toFinset.mp (hreach.mem hfin), ?_⟩
    exact List.mem_map.mpr ⟨_, hmem, (h.stands.eq_trim hplain).symm⟩

/-- **Every call of a round has a lower rank.** -/
theorem rank_lt (hfin : ∀ opens ∈ drv.opens, ∀ uri src, opens uri = some src → uri ∈ uris)
    (htame : Tame drv src₀) (hin : Inside drv src₀ d f) (h : Calls (round drv overwrite) f g) :
    ∃ d', Inside drv src₀ d' g ∧
      rank drv src₀ (none :: uris.map some).toFinset (pathsOf drv src₀ uris) d' g <
      rank drv src₀ (none :: uris.map some).toFinset (pathsOf drv src₀ uris) d f := by
  simp only [rank, Prod.Lex.toLex_lt_toLex]
  cases goes_of_calls h with
  | next hnext =>
    refine ⟨d, hin.next hnext fun _ _ h => h, ?_⟩
    have hle := @budget_le _ _ (pathsOf drv src₀ uris)
      (hnext.tends fun _ _ => tends_of_returns) f.p
    have hlt := hnext.lt fun _ _ => rest_le
    have hfiles : g.files = f.files := by cases hnext <;> rfl
    have hp : g.p = f.p := by cases hnext <;> rfl
    rw [hfiles, hp]
    split <;> omega
  | enter hread _ _ =>
    refine ⟨d + 1, hin.enter hread _ _, ?_⟩
    have hlt := hread.lt
    rw [if_neg (Nat.succ_ne_zero d)]
    dsimp only
    split <;> omega
  | @file src src' key value uri c hread hopens =>
    refine ⟨0, hin.file hread hopens f.p, ?_⟩
    obtain ⟨i, path, hpassed⟩ := hopens.passed
    have hincl := hin.includes hread hopens
    have hedge : Edge drv src₀ f.files.head? (some uri) := ⟨_, uri, rfl, hincl⟩
    have hmem := hin.reach.mem hfin
    simp only [List.head?_cons, if_true]
    by_cases hback : ReflTransGen (Edge drv src₀) (some uri) f.files.head?
    · obtain ⟨hflat, hplain⟩ := htame.flat _ _ _ hin.reach hincl hback
      obtain rfl : d = 0 := hflat
      have hle := ahead_le (s := (none :: uris.map some).toFinset) hedge
      rw [if_pos rfl]
      rcases hopens.1 with rfl | hkey
      · have hlt := budget_lt hpassed hopens.tends
          (hpassed.path_mem hfin hin.reach hincl.mem (hplain rfl))
        omega
      · have hbud := @budget_le _ _ (pathsOf drv src₀ uris) hopens.tends f.p
        have hopt : OptEdge drv src₀ f.files.head? (some uri) := ⟨_, uri, rfl, hincl, hkey⟩
        have hlt := ahead_lt hmem hopt fun hback =>
          htame.forced _ hin.reach (TransGen.head' hopt hback)
        omega
    · exact .inl (ahead_lt hmem hedge hback)

end Rank

theorem start_inside (drv : Driver) (src₀ : Source) (c : Config) :
    Inside drv src₀ 0 (start c src₀) :=
  ⟨.refl, List.Subset.refl _, List.cons_ne_nil _ _ ∘ Eq.symm⟩

/-! ## 4. Files without `include` lines -/

/-- A line that says nothing, or gives a value without variables to a key without `include`. -/
def Ordinary (line : Option Line) : Prop :=
  line = some .empty ∨ ∃ key value, line = some (.assign key value) ∧ value ≠ [] ∧
    includeKey ∉ splitDots key ∧ ¬ ['$', '{'] <:+: value

/-- The files have ordinary lines only: the include lines are all spelled `-include`, and there are
no sections. -/
def OptOnly (drv : Driver) (src₀ : Source) : Prop :=
  ∀ file src, InReach drv src₀ file → sourceOf drv src₀ file = some src →
    ∀ line ∈ said src, Ordinary line

/-- There is a way to a cycle of `-include` lines. -/
def Endless (drv : Driver) (src₀ : Source) (file : Option (List Char)) : Prop :=
  ∃ x, ReflTransGen (OptEdge drv src₀) file x ∧ TransGen (OptEdge drv src₀) x x

section OptOnly

variable {drv : Driver} {src₀ src src' : Source} {f g : Frame} {d : Nat} {uri path : List Char}
  {R : Frame → Loaded → Prop} {ret : Ret} {file : Option (List Char)} {ls : List (Option Line)}
  {s : Setting}

theorem Endless.step (h : Endless drv src₀ file) :
    ∃ file', OptEdge drv src₀ file file' ∧ Endless drv src₀ file' := by
  obtain ⟨x, hto, hcycle⟩ := h
  rcases hto.cases_head with rfl | ⟨y, hedge, hrest⟩
  · obtain ⟨y, hedge, hrest⟩ := TransGen.head'_iff.mp hcycle
    exact ⟨y, hedge, file, hrest, hcycle⟩
  · exact ⟨y, hedge, x, hrest, hcycle⟩

/-- Of ordinary lines, all with a value are come to. -/
theorem reached_ordinary (hls : ∀ line ∈ ls, Ordinary line) (h : s ∈ reached d ls) :
    s.depth = d ∧ includeKey ∉ splitDots s.key ∧ ¬ ['$', '{'] <:+: s.value := by
  induction ls with
  | nil => cases d <;> cases h
  | cons line ls ih =>
    have hrest := fun l hl => hls l (List.mem_cons_of_mem line hl)
    rcases hls line List.mem_cons_self with rfl | ⟨key, value, rfl, hvalue, hkey, hplain⟩
    · rw [reached_empty] at h
      exact ih hrest h
    · rw [reached_assign, if_neg hvalue] at h
      rcases List.mem_cons.mp h with rfl | h
      · exact ⟨rfl, hkey, hplain⟩
      · exact ih hrest h

theorem OptOnly.setting (h : OptOnly drv src₀) (hreach : InReach drv src₀ file)
    (hs : s ∈ settings drv src₀ file) :
    s.depth = 0 ∧ includeKey ∉ splitDots s.key ∧ ¬ ['$', '{'] <:+: s.value := by
  cases hsrc : sourceOf drv src₀ file with
  | none =>
    rw [settings, hsrc] at hs
    cases hs
  | some src =>
    rw [settings, hsrc] at hs
    exact reached_ordinary (h file src hreach hsrc) hs

theorem eq_optIncludeKey (hkey : IsInclude key) (hnot : includeKey ∉ splitDots key) :
    key = optIncludeKey := by
  refine hkey.resolve_left ?_
  rintro rfl
  rw [splitDots_include (.inl rfl)] at hnot
  exact hnot List.mem_cons_self

theorem OptOnly.kept (h : OptOnly drv src₀) : Kept drv src₀ Foreign :=
  ⟨fun _ _ hreach hs => keeps_foreign (h.setting hreach hs).2.1, fun _ hkey => hkey⟩

theorem OptOnly.quiet (h : OptOnly drv src₀) (hreach : InReach drv src₀ file)
    (hs : s ∈ settings drv src₀ file) : Quiet s.key s.value := by
  obtain ⟨-, hkey, -⟩ := h.setting hreach hs
  exact ⟨fun hmem => hkey (List.mem_of_mem_dropLast hmem),
    fun hlast => absurd (List.mem_of_getLast? hlast) hkey⟩

theorem OptOnly.valued (h : OptOnly drv src₀) : Kept drv src₀ Valued :=
  kept_of_quiet fun _ _ hreach hs => h.quiet hreach hs

theorem All.valued (h : All Foreign c) : All Valued c := fun r item hr hkey =>
  absurd hkey (h r item hr)

/-- Without `include` lines the files are in order but for cycles. -/
theorem OptOnly.tame (h : OptOnly drv src₀)
    (hforced : ∀ file, InReach drv src₀ file → ¬ TransGen (OptEdge drv src₀) file file) :
    Tame drv src₀ := by
  refine ⟨fun file s uri hreach hincl _ => ?_, hforced, fun file s hreach hs => h.quiet hreach hs⟩
  obtain ⟨hdepth, hkey, -⟩ := h.setting hreach hincl.mem
  refine ⟨hdepth, fun heq => ?_⟩
  rw [heq, splitDots_include (.inl rfl)] at hkey
  exact absurd List.mem_cons_self hkey

theorem ok_of_plain {child : Path} (hplain : ¬ ['$', '{'] <:+: value)
    (h : doSetKey (some value) overwrite (splitDots key) c p = (ret, c', child)) : ret = .ok := by
  rw [doSetKey_keyNode (splitDots_ne_nil key),
    setValue_plain fun v hv => Option.some.inj hv ▸ hplain] at h
  exact (Prod.mk.inj h).1.symm

/-- Where there is no `include`, an `-include` line reads its file. -/
theorem reads_of_includes (hp : f.p = []) (hall : All Foreign f.c)
    (hvalue : value ≠ []) (hplain : ¬ ['$', '{'] <:+: value)
    (hincl : Includes drv src₀ file ⟨d, optIncludeKey, value⟩ uri)
    (h : (directiveBody drv f optIncludeKey value).Yields R (ret, c)) :
    ∃ c₁ src r, Opens drv f optIncludeKey value uri c₁ src ∧
      R ⟨uri :: f.files, c₁, f.p, [], src⟩ r := by
  obtain ⟨c₁, hc, hset⟩ : ∃ c₁ : Config, c₁.children = f.c.children.alter
      (·.append (.node ⟨optIncludeKey, some (trim value)⟩ .nil .nil)) [] ∧
      doSetKey (some value) false (splitDots optIncludeKey) f.c f.p =
        (.ok, c₁, [f.c.children.length]) := by
    rw [hp, splitDots_include (.inr rfl)]
    exact ⟨_, rfl, doSetKey_new (Forest.inside_root f.c.children) optIncludeKey hplain⟩
  have hall₁ : All Foreign c₁ := hall.set (keeps_foreign (by decide)) hset
  have htarget : ∃ src, target drv c₁ f.p f.c.children.length = .ok (uri, src) := by
    obtain ⟨path, hstands, hresolv⟩ := hincl.names
    rw [hstands.eq_trim hplain] at hresolv
    obtain ⟨src, hsrc⟩ := Option.ne_none_iff_exists'.mp hincl.opens
    obtain ⟨opens, hopens, hsrc⟩ := Option.bind_eq_some_iff.mp hsrc
    have hpath : (c₁.items f.p)[f.c.children.length]?.bind Item.value = some (trim value) := by
      rw [items_getElem?, hp, hc, Forest.label_add (Forest.inside_root _), if_pos rfl]
      rfl
    have hcirc : circular (trim value) f.c.children.length (c₁.items f.p).zipIdx = .ok := by
      refine circular_ok fun x hx => ?_
      obtain ⟨item, i⟩ := x
      rw [List.mem_zipIdx_iff_getElem?, items_getElem?] at hx
      exact hall₁ _ item hx
    refine ⟨src, ?_⟩
    unfold target
    simp only [hpath, hcirc, hopens, hresolv, hsrc]
  obtain ⟨src, htarget⟩ := htarget
  have hopens : Opens drv f optIncludeKey value uri c₁ src :=
    ⟨.inr rfl, hvalue, _, hset, htarget⟩
  unfold directiveBody at h
  rw [if_pos (.inr rfl), if_neg hvalue, hset] at h
  simp only [List.getLast?_singleton, Option.getD_some, htarget] at h
  obtain ⟨r, hr, -⟩ := h
  exact ⟨c₁, src, r, hopens, hr⟩

/-- An `-include` line that is set is not critical. -/
theorem ret_ne_err (hvalue : value ≠ []) (hplain : ¬ ['$', '{'] <:+: value)
    (h : (directiveBody drv f optIncludeKey value).Yields R (ret, c)) : ret ≠ .err := by
  have hnot : ∀ ret', critical optIncludeKey ret' ≠ .err := by
    intro ret'
    cases ret' <;> decide
  unfold directiveBody at h
  rw [if_pos (.inr rfl), if_neg hvalue] at h
  split at h
  · split at h
    · obtain ⟨rfl, -⟩ := Prod.mk.inj h
      exact hnot _
    · obtain ⟨r, -, heq⟩ := h
      obtain ⟨rfl, -⟩ := Prod.mk.inj heq
      exact hnot _
  · next ret' c' subkey hret hset => exact absurd (ok_of_plain hplain hset) hret

/-- The round stands before an `-include` line that leads to a cycle, in a tree without
`include`. -/
structure Doomed (drv : Driver) (src₀ : Source) (f : Frame) : Prop where
  inside : Inside drv src₀ 0 f
  root : f.p = []
  all : All Foreign f.c
  lines : ∀ line ∈ said f.src, Ordinary line
  before : ∃ s ∈ reached 0 (said f.src), ∃ uri, Includes drv src₀ f.files.head? s uri ∧
    s.key = optIncludeKey ∧ Endless drv src₀ (some uri)

/-- The file of an `-include` line that leads to a cycle begins as badly. -/
theorem doomed_file (h : OptOnly drv src₀) (hin : Inside drv src₀ 0 g) (hp : g.p = [])
    (hall : All Foreign g.c) (hsrc : sourceOf drv src₀ g.files.head? = some g.src)
    (hendless : Endless drv src₀ g.files.head?) : Doomed drv src₀ g := by
  refine ⟨hin, hp, hall, h _ _ hin.reach hsrc, ?_⟩
  obtain ⟨_, ⟨s, uri, rfl, hincl, hkey⟩, hon⟩ := hendless.step
  refine ⟨s, ?_, uri, hincl, hkey, hon⟩
  have hmem := hincl.mem
  rwa [settings, hsrc] at hmem

/-- **A doomed round does not return.** -/
theorem not_doomed_of_returns (h : OptOnly drv src₀) {r : Loaded}
    (hreturns : Returns (round drv overwrite) f r) : ¬ Doomed drv src₀ f := by
  refine Returns.rule (P := fun f _ => ¬ Doomed drv src₀ f) ?_ hreturns
  intro f r hyields hdoomed
  obtain ⟨hin, hp, hall, hlines, s, hs, uri, hincl, hkey, hendless⟩ := hdoomed
  have hnot : ∀ {l : Line} {src : Source}, Reads f.src l src → Ordinary (some l) := fun hread =>
    hlines _ (by rw [said_of_reads hread]; exact List.mem_cons_self)
  have hassign : ∀ {key value : List Char} {src : Source}, Reads f.src (.assign key value) src →
      value ≠ [] ∧ includeKey ∉ splitDots key ∧ ¬ ['$', '{'] <:+: value := by
    intro key value src hread
    rcases hnot hread with heq | ⟨_, _, heq, hrest⟩
    · cases heq
    · cases heq
      exact hrest
  have hnext : ∀ {g : Frame}, Next drv overwrite (fun j r => Calls (round drv overwrite) f j ∧
      Returns (round drv overwrite) j r ∧ ¬ Doomed drv src₀ j) f g →
      g.p = f.p → (∃ l, said f.src = l :: said g.src) → g.files = f.files →
      s ∈ reached 0 (said g.src) → Doomed drv src₀ g := by
    rintro g hnext hgp ⟨l, hsaid⟩ hfiles hmem
    refine ⟨hin.next hnext fun _ _ h => h.2.1, hgp.trans hp, hnext.all hin h.kept
      (fun _ _ hr _ hg hc => all_of_returns hr.2.1 hg h.kept hc) hall, fun line hline => ?_,
      s, hmem, uri, ?_, hkey, hendless⟩
    · exact hlines line (by rw [hsaid]; exact List.mem_cons_of_mem l hline)
    · rwa [hfiles]
  cases round_yields hyields with
  | eof hline =>
    rw [said, readLines_of_none hline, List.map_nil, reached] at hs
    cases hs
  | bad hline hbad =>
    rcases hlines _ (by rw [said_of_getline hline]; exact List.mem_cons_self)
      with heq | ⟨_, _, heq, -⟩
    · rw [heq] at hbad
      exact hbad
    · rw [heq] at hbad
      exact hbad
  | close hread => rcases hnot hread with heq | ⟨_, _, heq, -⟩ <;> cases heq
  | inside hread => rcases hnot hread with heq | ⟨_, _, heq, -⟩ <;> cases heq
  | set hread _ _ hset hret => exact hret (ok_of_plain (hassign hread).2.2 hset)
  | @directive src key value ret c hread hdir hret =>
    obtain ⟨hvalue, hnotin, hplain⟩ := hassign hread
    by_cases hinc : IsInclude key
    · obtain rfl := eq_optIncludeKey hinc hnotin
      cases ret with
      | ok => exact hret rfl
      | err => exact ret_ne_err hvalue hplain hdir rfl
      | crash =>
        rcases directive_crash hread hdir with hbare | ⟨g, r, hr, hcrash⟩
        · exact hin.not_bare h.valued hall.valued hbare
        · obtain ⟨⟨d, hin'⟩, hall'⟩ := all_of_leads (.single hr.1) hin h.kept hall
          exact ne_crash_of_returns hr.2.1 hin' h.valued hall'.valued hcrash
    · cases directed_of_yields hdir with
      | other => exact hret rfl
      | empty hinc' => exact hinc hinc'
      | unread hinc' => exact hinc hinc'
      | read hopens => exact hinc hopens.1
  | next hthen hr =>
    have hgo := hthen
    cases hthen with
    | empty hread =>
      rw [said_of_reads hread, reached_empty] at hs
      exact hr.2.2 (hnext hgo rfl ⟨_, said_of_reads hread⟩ rfl hs)
    | leave hread => rcases hnot hread with heq | ⟨_, _, heq, -⟩ <;> cases heq
    | name hread => exact (hassign hread).1 rfl
    | value hread hvalue hpass =>
      rw [said_of_reads hread, reached_assign, if_neg hvalue] at hs
      rcases List.mem_cons.mp hs with rfl | hs
      · -- the line itself leads to the cycle
        obtain rfl : _ = optIncludeKey := hkey
        obtain ⟨c₁, src₁, r₁, hopens, hcalls, -, hdoomed⟩ :=
          reads_of_includes hp hall hvalue (hassign hread).2.2 hincl hpass
        obtain ⟨i, path, hpassed⟩ := hopens.passed
        obtain ⟨-, hall₁⟩ := all_of_leads (.single hcalls) hin h.kept hall
        exact hdoomed (doomed_file h (hin.file hread hopens f.p) hp hall₁ hpassed.opens hendless)
      · exact hr.2.2 (hnext hgo rfl ⟨_, said_of_reads hread⟩ rfl hs)

/-- **Files without `include` lines are in order where loading them ends.** -/
theorem OptOnly.tame_of_returns (h : OptOnly drv src₀) (hall : All Foreign c) {r : Loaded}
    (hreturns : Returns (round drv overwrite) (start c src₀) r) : Tame drv src₀ := by
  refine h.tame fun file hreach hcycle => ?_
  have hopt : ReflTransGen (OptEdge drv src₀) none file := by
    clear hcycle
    induction hreach with
    | refl => exact .refl
    | tail hto hedge ih =>
      obtain ⟨s, uri, rfl, hincl⟩ := hedge
      exact ih.tail ⟨s, uri, rfl, hincl,
        eq_optIncludeKey hincl.directive (h.setting hto hincl.mem).2.1⟩
  exact not_doomed_of_returns h hreturns
    (doomed_file h (start_inside drv src₀ c) rfl hall rfl ⟨file, hopt, hcycle⟩)

end OptOnly

/-! ## 5. Loading ends -/

/-- Loading a source into a tree comes to success or to an error. -/
def LoadEnds (drv : Driver) (overwrite : Bool) (c : Config) (src : Source) : Prop :=
  ∃ fuel ret c' src', doLoadDrv fuel c drv src overwrite = some (ret, c', src') ∧ ret ≠ .crash

theorem returns_of_loadEnds {drv : Driver} {src : Source} (hgets : drv.gets = true)
    (h : LoadEnds drv overwrite c src) : ∃ r, Returns (round drv overwrite) (start c src) r := by
  obtain ⟨fuel, ret, c', src', hload, -⟩ := h
  rw [doLoadDrv, if_pos hgets] at hload
  exact ⟨_, fuel, (load_eq drv overwrite fuel (start c src)).symm.trans hload⟩

/-- A driver that opens `A`, with the line `include B`, and `B`, with the line `-include A`. -/
def crossedDriver : Driver :=
  ⟨some fun uri =>
    if uri = ['A'] then some [includeKey ++ [' ', 'B', '\n']]
    else if uri = ['B'] then some [optIncludeKey ++ [' ', 'A', '\n']] else none, none, true, none⟩

/-- `include A` -/
def crossedSource : Source := [includeKey ++ [' ', 'A', '\n']]

theorem crossed_settings {file : Option (List Char)} {s : Setting}
    (h : s ∈ settings crossedDriver crossedSource file) :
    s = ⟨0, includeKey, ['A']⟩ ∨ s = ⟨0, includeKey, ['B']⟩ ∨
      s = ⟨0, optIncludeKey, ['A']⟩ ∧ file = some ['B'] := by
  cases file with
  | none =>
    have hlines : settings crossedDriver crossedSource none = [⟨0, includeKey, ['A']⟩] := by decide
    rw [hlines] at h
    exact .inl (List.mem_singleton.mp h)
  | some uri =>
    by_cases hA : uri = ['A']
    · subst hA
      have hlines : settings crossedDriver crossedSource (some ['A']) =
        [⟨0, includeKey, ['B']⟩] := by decide
      rw [hlines] at h
      exact .inr (.inl (List.mem_singleton.mp h))
    · by_cases hB : uri = ['B']
      · subst hB
        have hlines : settings crossedDriver crossedSource (some ['B']) =
          [⟨0, optIncludeKey, ['A']⟩] := by decide
        rw [hlines] at h
        exact .inr (.inr ⟨List.mem_singleton.mp h, rfl⟩)
      · simp [settings, sourceOf, crossedDriver, hA, hB] at h

/-- The cycle of the two files goes through an `include` line. -/
theorem crossed_tame : Tame crossedDriver crossedSource := by
  refine ⟨fun file s uri _ hincl _ => ⟨?_, fun _ => .inl rfl⟩, fun file _ hcycle => ?_,
    fun file s _ hs => ?_⟩
  · rcases crossed_settings hincl.mem with rfl | rfl | ⟨rfl, -⟩ <;> rfl
  · -- the only `-include` line leads from `B` to `A`
    have hedge : ∀ {file file'}, OptEdge crossedDriver crossedSource file file' →
        file = some ['B'] ∧ file' = some ['A'] := by
      rintro file _ ⟨s, uri, rfl, hincl, hkey⟩
      rcases crossed_settings hincl.mem with rfl | rfl | ⟨rfl, hfile⟩
      · exact absurd hkey (by decide)
      · exact absurd hkey (by decide)
      · obtain ⟨path, hstands, hresolv⟩ := hincl.names
        rw [hstands.eq_trim (by decide)] at hresolv
        refine ⟨hfile, congrArg some (Option.some.inj hresolv).symm⟩
    obtain ⟨x, hx, hback⟩ := TransGen.head'_iff.mp hcycle
    obtain ⟨rfl, rfl⟩ := hedge hx
    rcases hback.cases_head with heq | ⟨y, hy, -⟩
    · revert heq
      decide
    · have := (hedge hy).1
      revert this
      decide
  · have hclosed : ∀ c, ¬ ['$', '{'] <:+: [c] → Closed [c] := fun c hplain hunclosed =>
      Option.some_ne_none _ ((Expansion.plain hplain).unique hunclosed)
    rcases crossed_settings hs with rfl | rfl | ⟨rfl, -⟩
    · exact ⟨by decide, fun _ => hclosed 'A' (by decide)⟩
    · exact ⟨by decide, fun _ => hclosed 'B' (by decide)⟩
    · exact ⟨by decide, fun hlast => absurd hlast (by decide)⟩

theorem all_create (Q : Item → Prop) : All Q create := fun r item hr => by
  rw [create, Forest.label_nil] at hr
  cases hr

end Libu.Config
