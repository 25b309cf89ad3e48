/-
# The lines that loading comes to (`toolbox/config.c`)

Which lines of which files `u_config_do_load_drv` may come to can be read off the texts: a line is
come to unless what is before it in its file ends the loading, and a file unless no such line
includes it.

* §1: the lines of a file (`reached`, `settings`), and the files that include each other (`Edge`).
* §2: every round of the loader stands in one of these files, at one of these lines (`Inside`).
* §3: what is so of an include line that the guard lets pass (`Opens.passed`).
* §4: what every line keeps, loading keeps (`all_of_returns`, `all_of_leads`), and it does not crash
  where every `include` keeps its value (`ne_crash_of_returns`).
-/
import Libu.Config.Tends
import Libu.Config.Grammar

namespace Libu.Config

open Verif Relation

variable {c c' : Config} {p : Path} {i : Nat} {key value : List Char} {overwrite : Bool}

/-! ## 1. The lines of the files -/

/-- The lines of a source; those that cannot be read stand as `none`. -/
def said (src : Source) : List (Option Line) := (readLines [] src).map parseLine

/-- A line with a key and a value, in so many sections of its file. -/
structure Setting where
  depth : Nat
  key : List Char
  value : List Char
  deriving DecidableEq

/-- The lines with a value that loading may come to.  It does not come to what is behind a line that
cannot be read, a bracket that is not alone, an include line without a value, or the bracket that
closes the section the file is included in. -/
def reached : Nat → List (Option Line) → List Setting
  | _, [] => []
  | _, none :: _ => []
  | d, some .empty :: ls => reached d ls
  | d, some (.opening alone) :: ls => if alone then reached (d + 1) ls else []
  | 0, some (.closing _) :: _ => []
  | d + 1, some (.closing alone) :: ls => if alone then reached d ls else []
  | d, some (.assign key value) :: ls =>
    if value = [] then if key = includeKey ∨ key = optIncludeKey then [] else reached d ls
    else ⟨d, key, value⟩ :: reached d ls

/-- The source of a file; `none` is the source that loading starts with. -/
def sourceOf (drv : Driver) (src : Source) : Option (List Char) → Option Source
  | none => some src
  | some uri => drv.opens.bind fun opens => opens uri

/-- The lines with a value of a file. -/
def settings (drv : Driver) (src : Source) (file : Option (List Char)) : List Setting :=
  ((sourceOf drv src file).map fun src => reached 0 (said src)).getD []

/-- The line `s` of a file may include the file `uri`: its value stands for a path that is resolved
to it, whatever the variables are. -/
structure Includes (drv : Driver) (src : Source) (file : Option (List Char)) (s : Setting)
    (uri : List Char) : Prop where
  mem : s ∈ settings drv src file
  directive : IsInclude s.key
  names : ∃ path, Stands s.value path ∧
    (drv.resolv.getD some) (path.dropWhile isblank) = some uri
  opens : sourceOf drv src (some uri) ≠ none

/-- A line of the one file may include the other. -/
def Edge (drv : Driver) (src : Source) (file file' : Option (List Char)) : Prop :=
  ∃ s uri, file' = some uri ∧ Includes drv src file s uri

/-- An `-include` line of the one file may include the other. -/
def OptEdge (drv : Driver) (src : Source) (file file' : Option (List Char)) : Prop :=
  ∃ s uri, file' = some uri ∧ Includes drv src file s uri ∧ s.key = optIncludeKey

/-- The file may come to be read. -/
def InReach (drv : Driver) (src : Source) (file : Option (List Char)) : Prop :=
  ReflTransGen (Edge drv src) none file

/-! ## 2. Where a round stands -/

section Inside

variable {drv : Driver} {src₀ src src' : Source} {f g : Frame} {d : Nat} {uri : List Char}
  {R : Frame → Loaded → Prop} {ret : Ret}

theorem said_of_getline {line : List Char} (h : csGetline [] src = some (line, src')) :
    said src = parseLine line :: said src' := by
  rw [said, readLines_of_some h, List.map_cons, said]

theorem said_of_reads {l : Line} (h : Reads src l src') : said src = some l :: said src' := by
  obtain ⟨line, hline, hparse⟩ := h
  rw [said_of_getline hline, hparse]

/-- What the directive that a line may be does. -/
inductive Directed (drv : Driver) (R : Frame → Loaded → Prop) (f : Frame) (key value : List Char) :
    Ret → Config → Prop
  | other : ¬ IsInclude key → Directed drv R f key value .ok f.c
  | empty : IsInclude key → value = [] → Directed drv R f key value .err f.c
  | unread {ret : Ret} : IsInclude key → value ≠ [] →
      Directed drv R f key value ret (doSetKey (some value) false (splitDots key) f.c f.p).2.1
  | read {ret : Ret} {uri : List Char} {c : Config} {src : Source} {r : Loaded} :
      Opens drv f key value uri c src → R ⟨uri :: f.files, c, f.p, [], src⟩ r →
      Directed drv R f key value ret r.2.1

theorem directed_of_yields (h : (directiveBody drv f key value).Yields R (ret, c)) :
    Directed drv R f key value ret c := by
  unfold directiveBody at h
  split at h
  · next hkey =>
    split at h
    · next hvalue =>
      obtain ⟨rfl, rfl⟩ := Prod.mk.inj h
      exact .empty hkey hvalue
    · next hvalue =>
      split at h
      · next c' subkey hset =>
        split at h
        · next ret' htarget =>
          obtain ⟨rfl, rfl⟩ := Prod.mk.inj h
          have hdir := @Directed.unread drv R f key value (critical key ret') hkey hvalue
          rwa [hset] at hdir
        · next uri src htarget =>
          obtain ⟨r, hr, heq⟩ := h
          obtain ⟨rfl, rfl⟩ := Prod.mk.inj heq
          exact .read ⟨hkey, hvalue, subkey, hset, htarget⟩ hr
      · next ret' c' subkey hret hset =>
        obtain ⟨rfl, rfl⟩ := Prod.mk.inj h
        have hdir := @Directed.unread drv R f key value ret hkey hvalue
        rwa [hset] at hdir
  · next hkey =>
    obtain ⟨rfl, rfl⟩ := Prod.mk.inj h
    exact .other hkey

theorem Opens.tends (h : Opens drv f key value uri c src) : Tends f.c c := by
  obtain ⟨-, -, subkey, hset, -⟩ := h
  exact (Tends.refl f.c).set hset

/-- A line without a value that is passed is no include line. -/
theorem not_include_of_passes (h : Passes drv R f key [] c) : ¬ IsInclude key := by
  have hdir := directed_of_yields h
  generalize hret : Ret.ok = ret at hdir
  cases hdir with
  | other hkey => exact hkey
  | empty => cases hret
  | unread _ hvalue => exact absurd rfl hvalue
  | read hopens => exact absurd rfl hopens.2.1

theorem Directed.tends (h : Directed drv R f key value ret c)
    (hR : ∀ g r, R g r → Tends g.c r.2.1) : Tends f.c c := by
  cases h with
  | other => exact .refl _
  | empty => exact .refl _
  | unread => exact tends_doSetKey (splitDots_ne_nil key) value f.c f.p false
  | read hopens hr => exact hopens.tends.trans (hR _ _ hr)

theorem Next.tends (h : Next drv overwrite R f g) (hR : ∀ g r, R g r → Tends g.c r.2.1) :
    Tends f.c g.c := by
  cases h with
  | empty => exact .refl _
  | leave _ _ hfor hr => exact (tends_childFor hfor).trans (hR _ _ hr)
  | name _ hpass => exact (directed_of_yields hpass).tends hR
  | value _ _ hpass hset => exact ((directed_of_yields hpass).tends hR).set hset

/-- **Loading changes no key, and the value of no child but the first with its key.** -/
theorem tends_of_returns {r : Loaded} (h : Returns (round drv overwrite) f r) :
    Tends f.c r.2.1 := by
  refine Returns.rule (P := fun f r => Tends f.c r.2.1) ?_ h
  intro f r hyields
  cases round_yields hyields with
  | eof => exact .refl _
  | bad => exact .refl _
  | close => exact .refl _
  | directive _ hdir => exact (directed_of_yields hdir).tends fun _ _ h => h.2.2
  | set _ _ hpass hset => exact ((directed_of_yields hpass).tends fun _ _ h => h.2.2).set hset
  | inside _ _ hfor hin => exact (tends_childFor hfor).trans hin.2.2
  | next hnext hin => exact (hnext.tends fun _ _ h => h.2.2).trans hin.2.2

theorem reached_assign (d : Nat) (key value : List Char) (ls : List (Option Line)) :
    reached d (some (.assign key value) :: ls) =
      if value = [] then if key = includeKey ∨ key = optIncludeKey then [] else reached d ls
      else ⟨d, key, value⟩ :: reached d ls := by
  cases d <;> rfl

theorem reached_opening (d : Nat) (ls : List (Option Line)) :
    reached d (some (.opening true) :: ls) = reached (d + 1) ls := by
  cases d <;> rfl

theorem reached_empty (d : Nat) (ls : List (Option Line)) :
    reached d (some .empty :: ls) = reached d ls := by
  cases d <;> rfl

/-- What is behind a line is among what may be come to from the line. -/
theorem Next.reached_subset (h : Next drv overwrite R f g)
    (hR : ∀ g r, R g r → r.1 = .ok → ∀ d, reached d (said r.2.2) ⊆ reached (d + 1) (said g.src))
    (d : Nat) : reached d (said g.src) ⊆ reached d (said f.src) := by
  cases h with
  | empty hread =>
    rw [said_of_reads hread, reached_empty]
    exact List.Subset.refl _
  | leave hread _ _ hr =>
    rw [said_of_reads hread, reached_opening]
    exact hR _ _ hr rfl d
  | name hread hpass =>
    have hkey := not_include_of_passes hpass
    rw [IsInclude] at hkey
    rw [said_of_reads hread, reached_assign, if_pos rfl, if_neg hkey]
    exact List.Subset.refl _
  | value hread hvalue =>
    rw [said_of_reads hread, reached_assign, if_neg hvalue]
    exact List.subset_cons_self _ _

/-- What is behind a section is among what may be come to from its first line. -/
theorem reached_of_returns {r : Loaded} (h : Returns (round drv overwrite) f r) (hr : r.1 = .ok)
    (d : Nat) : reached d (said r.2.2) ⊆ reached (d + 1) (said f.src) := by
  refine Returns.rule (P := fun f r => r.1 = .ok → ∀ d, reached d (said r.2.2) ⊆
    reached (d + 1) (said f.src)) ?_ h hr d
  intro f r hyields hr d
  cases round_yields hyields with
  | eof =>
    rw [said, readLines, List.map_nil, reached]
    exact List.nil_subset _
  | bad => cases hr
  | close hread =>
    rw [said_of_reads hread, reached, if_pos rfl]
    exact List.Subset.refl _
  | directive _ _ hret => exact absurd hr hret
  | set _ _ _ _ hret => exact absurd hr hret
  | inside _ _ _ _ hret => exact absurd hr hret
  | next hnext hin =>
    exact List.Subset.trans (hin.2.2 hr d) (hnext.reached_subset (fun _ _ h => h.2.2) (d + 1))

/-- The round is `d` sections deep in a file that may come to be read, at a line of it. -/
structure Inside (drv : Driver) (src₀ : Source) (d : Nat) (f : Frame) : Prop where
  reach : InReach drv src₀ f.files.head?
  lines : reached d (said f.src) ⊆ settings drv src₀ f.files.head?
  name : f.lastkey ≠ includeKey

/-- The line with a value that the round is at. -/
theorem Inside.setting (h : Inside drv src₀ d f) (hread : Reads f.src (.assign key value) src)
    (hvalue : value ≠ []) : ⟨d, key, value⟩ ∈ settings drv src₀ f.files.head? := by
  refine h.lines ?_
  rw [said_of_reads hread, reached_assign, if_neg hvalue]
  exact List.mem_cons_self

theorem Inside.next (h : Inside drv src₀ d f) (hnext : Next drv overwrite R f g)
    (hR : ∀ g r, R g r → Returns (round drv overwrite) g r) : Inside drv src₀ d g := by
  have hsub := hnext.reached_subset (fun g r hr hok => reached_of_returns (hR g r hr) hok) d
  have hlines := List.Subset.trans hsub h.lines
  cases hnext with
  | empty => exact ⟨h.reach, hlines, h.name⟩
  | leave => exact ⟨h.reach, hlines, List.cons_ne_nil _ _ ∘ Eq.symm⟩
  | name _ hpass => exact ⟨h.reach, hlines, fun heq => not_include_of_passes hpass (.inl heq)⟩
  | value => exact ⟨h.reach, hlines, h.name⟩

theorem Inside.enter (h : Inside drv src₀ d f) (hread : Reads f.src (.opening true) src)
    (c : Config) (p : Path) : Inside drv src₀ (d + 1) ⟨f.files, c, p, [], src⟩ := by
  refine ⟨h.reach, ?_, List.cons_ne_nil _ _ ∘ Eq.symm⟩
  have hlines := h.lines
  rwa [said_of_reads hread, reached_opening] at hlines

/-! ## 3. What the guard lets pass -/

/-- What is so of an include line that the guard lets pass, where it reads a file into `c`. -/
structure Passed (drv : Driver) (f : Frame) (key value uri : List Char) (c : Config)
    (src : Source) (i : Nat) (path : List Char) : Prop where
  new : f.c.children.label (f.p ++ [i]) = none
  set : c.children.label (f.p ++ [i]) = some ⟨key, some path⟩
  stands : Stands value path
  resolves : (drv.resolv.getD some) (path.dropWhile isblank) = some uri
  opens : sourceOf drv [] (some uri) = some src
  guard : ∀ j item, c.children.label (f.p ++ [j]) = some item → item.key = includeKey → j ≠ i →
    item.value ≠ some path

theorem value_ne_of_circular {path : List Char} {inckey : Nat} {items : List (Item × Nat)}
    (h : circular path inckey items = .ok) :
    ∀ x ∈ items, x.1.key = includeKey → x.2 ≠ inckey → x.1.value ≠ some path := by
  induction items with
  | nil => exact fun x hx => absurd hx List.not_mem_nil
  | cons y items ih =>
    obtain ⟨item, j⟩ := y
    have hrest : circular path inckey items = .ok → item.value ≠ some path ∨
        ¬ (item.key = includeKey ∧ j ≠ inckey) →
        ∀ x ∈ (item, j) :: items, x.1.key = includeKey → x.2 ≠ inckey →
          x.1.value ≠ some path := by
      intro hcirc hitem x hx hkey hne
      rcases List.mem_cons.mp hx with rfl | hx
      · exact hitem.resolve_right (not_not_intro ⟨hkey, hne⟩)
      · exact ih hcirc x hx hkey hne
    rw [circular] at h
    split at h
    · next hcmp =>
      split at h
      · cases h
      · next value hvalue =>
        split at h
        · cases h
        · next hpath =>
          refine hrest h (.inl fun heq => hpath ?_)
          rw [hvalue] at heq
          exact (Option.some.inj heq).symm
    · next hcmp => exact hrest h (.inr hcmp)

/-- What `u_config_include` has gone by before it reads a file. -/
theorem target_eq_ok {p : Path} {inckey : Nat} (h : target drv c p inckey = .ok (uri, src)) :
    ∃ path, (c.items p)[inckey]?.bind Item.value = some path ∧
      circular path inckey (c.items p).zipIdx = .ok ∧
      (drv.resolv.getD some) (path.dropWhile isblank) = some uri ∧
      sourceOf drv [] (some uri) = some src := by
  unfold target at h
  split at h
  · cases h
  · next path hpath =>
    refine ⟨path, hpath, ?_⟩
    split at h
    · next hcirc =>
      split at h
      · cases h
      · next opens hopens =>
        split at h
        · cases h
        · next uri' huri =>
          split at h
          · cases h
          · next src' hsrc =>
            obtain ⟨rfl, rfl⟩ := Prod.mk.inj (Except.ok.inj h)
            exact ⟨hcirc, huri, by rw [sourceOf, hopens]; exact hsrc⟩
    · cases h

theorem splitDots_include (hkey : IsInclude key) : splitDots key = [key] := by
  rcases hkey with rfl | rfl <;> decide

theorem Opens.passed (h : Opens drv f key value uri c src) :
    ∃ i path, Passed drv f key value uri c src i path := by
  obtain ⟨hkey, -, subkey, hset, htarget⟩ := h
  obtain ⟨path, hpath, hcirc, hresolv, hopens⟩ := target_eq_ok htarget
  obtain ⟨-, hnone⟩ := childOf_childFor f.c f.p key false
  obtain ⟨c₁, v, ⟨-, -, -, hlast⟩, hlabel, -, hstands, -⟩ :=
    doSetKey_labels (splitDots_ne_nil key) value f.c f.p false
  have hsub : subkey = f.p ++ [(f.c.childFor f.p key false).2] := by
    have hdo := congrArg (fun r => r.2.2) hset
    rw [splitDots_include hkey, doSetKey] at hdo
    exact hdo.symm
  rw [hset] at hlabel hlast
  rw [hsub, List.getLast?_concat, Option.getD_some] at hpath hcirc
  obtain ⟨item, hitem, hvalue⟩ := Option.bind_eq_some_iff.mp hpath
  rw [items_getElem?, ← hsub] at hitem
  have hat := hlabel subkey
  simp only [if_true] at hat
  rw [hitem] at hat
  obtain ⟨item₁, hitem₁, rfl⟩ := Option.map_eq_some_iff.mp hat.symm
  obtain rfl : v = some path := hvalue
  have hkey₁ : item₁.key = key := by
    have hlast₁ := hlast item₁ hitem₁
    rw [splitDots_include hkey] at hlast₁
    exact (Option.some.inj hlast₁).symm
  refine ⟨_, path, hnone rfl, ?_, hstands path rfl, hresolv, hopens, fun j item hj hinc hne => ?_⟩
  · rw [← hsub, hitem, ← hkey₁]
  · rw [← items_getElem?] at hj
    refine value_ne_of_circular hcirc (item, j) ?_ hinc hne
    exact List.mem_zipIdx_iff_getElem?.mpr hj

/-- The line of the round includes the file that it reads. -/
theorem Inside.includes (h : Inside drv src₀ d f) (hread : Reads f.src (.assign key value) src)
    (hopens : Opens drv f key value uri c src') :
    Includes drv src₀ f.files.head? ⟨d, key, value⟩ uri := by
  obtain ⟨i, path, hpassed⟩ := hopens.passed
  refine ⟨h.setting hread hopens.2.1, hopens.1, ⟨path, hpassed.stands, hpassed.resolves⟩, ?_⟩
  have hsrc : sourceOf drv src₀ (some uri) = some src' := hpassed.opens
  rw [hsrc]
  exact Option.some_ne_none _

theorem Inside.file (h : Inside drv src₀ d f) (hread : Reads f.src (.assign key value) src)
    (hopens : Opens drv f key value uri c src') (p : Path) :
    Inside drv src₀ 0 ⟨uri :: f.files, c, p, [], src'⟩ := by
  obtain ⟨i, path, hpassed⟩ := hopens.passed
  have hsrc : sourceOf drv src₀ (some uri) = some src' := hpassed.opens
  refine ⟨h.reach.tail ⟨_, uri, rfl, h.includes hread hopens⟩, ?_, List.cons_ne_nil _ _ ∘ Eq.symm⟩
  rw [List.head?_cons, settings, hsrc]
  exact List.Subset.refl _

/-! ## 4. What loading keeps -/

/-- Every line that may be come to leaves the nodes as `Q` says, and so does the name of a
section. -/
structure Kept (drv : Driver) (src₀ : Source) (Q : Item → Prop) : Prop where
  set : ∀ file s, InReach drv src₀ file → s ∈ settings drv src₀ file → Keeps Q s.key s.value
  name : ∀ key, key ≠ includeKey → Q ⟨key, none⟩

variable {Q : Item → Prop}

theorem Inside.keeps (h : Inside drv src₀ d f) (hkept : Kept drv src₀ Q)
    (hread : Reads f.src (.assign key value) src) (hvalue : value ≠ []) : Keeps Q key value :=
  hkept.set _ _ h.reach (h.setting hread hvalue)

theorem Directed.all (h : Directed drv R f key value ret c) (hin : Inside drv src₀ d f)
    (hkept : Kept drv src₀ Q) (hread : Reads f.src (.assign key value) src)
    (hR : ∀ g r, R g r → ∀ d, Inside drv src₀ d g → All Q g.c → All Q r.2.1)
    (hall : All Q f.c) : All Q c := by
  cases h with
  | other => exact hall
  | empty => exact hall
  | unread _ hvalue => exact hin.keeps hkept hread hvalue f.c f.p false hall
  | read hopens hr =>
    refine hR _ _ hr 0 (hin.file hread hopens f.p) ?_
    obtain ⟨-, hvalue, subkey, hset, -⟩ := hopens
    exact hall.set (hin.keeps hkept hread hvalue) hset

theorem Next.all (h : Next drv overwrite R f g) (hin : Inside drv src₀ d f)
    (hkept : Kept drv src₀ Q)
    (hR : ∀ g r, R g r → ∀ d, Inside drv src₀ d g → All Q g.c → All Q r.2.1)
    (hall : All Q f.c) : All Q g.c := by
  cases h with
  | empty => exact hall
  | leave hread _ hfor hr =>
    exact hR _ _ hr (d + 1) (hin.enter hread _ _) (hall.child (hkept.name _ hin.name) hfor)
  | name hread hpass => exact (directed_of_yields hpass).all hin hkept hread hR hall
  | value hread hvalue hpass hset =>
    exact ((directed_of_yields hpass).all hin hkept hread hR hall).set
      (hin.keeps hkept hread hvalue) hset

/-- **What every line keeps, loading keeps.** -/
theorem all_of_returns {r : Loaded} (h : Returns (round drv overwrite) f r)
    (hin : Inside drv src₀ d f) (hkept : Kept drv src₀ Q) (hall : All Q f.c) : All Q r.2.1 := by
  refine Returns.rule (P := fun f r => ∀ d, Inside drv src₀ d f → All Q f.c → All Q r.2.1) ?_ h d
    hin hall
  intro f r hyields d hin hall
  cases round_yields hyields with
  | eof => exact hall
  | bad => exact hall
  | close => exact hall
  | directive hread hdir =>
    exact (directed_of_yields hdir).all hin hkept hread (fun _ _ h => h.2.2) hall
  | set hread hvalue hpass hset =>
    exact ((directed_of_yields hpass).all hin hkept hread (fun _ _ h => h.2.2) hall).set
      (hin.keeps hkept hread hvalue) hset
  | inside hread _ hfor hr =>
    exact hr.2.2 (d + 1) (hin.enter hread _ _) (hall.child (hkept.name _ hin.name) hfor)
  | next hnext hr =>
    exact hr.2.2 d (hin.next hnext fun _ _ h => h.2.1)
      (hnext.all hin hkept (fun _ _ h => h.2.2) hall)

/-- **So does every round that loading comes to.** -/
theorem all_of_leads (h : Leads (round drv overwrite) f g) (hin : Inside drv src₀ d f)
    (hkept : Kept drv src₀ Q) (hall : All Q f.c) :
    (∃ d', Inside drv src₀ d' g) ∧ All Q g.c := by
  induction h with
  | refl => exact ⟨⟨d, hin⟩, hall⟩
  | @tail f' g _ hcalls ih =>
    obtain ⟨⟨d', hin'⟩, hall'⟩ := ih
    cases goes_of_calls hcalls with
    | next hnext =>
      exact ⟨⟨d', hin'.next hnext fun _ _ h => h⟩, hnext.all hin' hkept
        (fun _ _ hr _ hg hc => all_of_returns hr hg hkept hc) hall'⟩
    | enter hread _ hfor =>
      exact ⟨⟨d' + 1, hin'.enter hread _ _⟩, hall'.child (hkept.name _ hin'.name) hfor⟩
    | file hread hopens =>
      refine ⟨⟨0, hin'.file hread hopens _⟩, ?_⟩
      obtain ⟨-, hvalue, subkey, hset, -⟩ := hopens
      exact hall'.set (hin'.keeps hkept hread hvalue) hset

/-- Nothing is compared with an `include` without a value. -/
theorem Inside.not_bare (hin : Inside drv src₀ d f) (hkept : Kept drv src₀ Valued)
    (hall : All Valued f.c) : ¬ Bare f := by
  rintro ⟨key, value, src, c, subkey, path, hread, hkey, hvalue, hset, -, hbare⟩
  have hall' := hall.set (hin.keeps hkept hread hvalue) hset
  obtain ⟨pre, item, i, post, heq, hitem, -, hnone, -⟩ := hbare
  have hmem : (item, i) ∈ (c.items f.p).zipIdx := by
    rw [heq]
    exact List.mem_append_right _ List.mem_cons_self
  rw [List.mem_zipIdx_iff_getElem?, items_getElem?] at hmem
  exact hall' _ item hmem hitem hnone

theorem ne_crash_of_returns {r : Loaded} (h : Returns (round drv overwrite) f r)
    (hin : Inside drv src₀ d f) (hkept : Kept drv src₀ Valued) (hall : All Valued f.c) :
    r.1 ≠ .crash := by
  intro hcrash
  obtain ⟨g, hleads, hbare⟩ := crash_bare h hcrash
  obtain ⟨⟨d', hin'⟩, hall'⟩ := all_of_leads hleads hin hkept hall
  exact hin'.not_bare hkept hall' hbare

end Inside

end Libu.Config
