/-
# The loader, whatever the fuel (`toolbox/config.c`)

A round of the loop of `u_config_do_load_drv` is a call of the loader on the line that comes next.
It calls the loader on a section, on an included file, and on the lines behind its own.

* §1: the rounds as a recursive procedure (`load_eq`).
* §2: the calls of a round (`goes_of_calls`) and its results (`round_yields`), one rule for each
  kind of line.
* §3: no call leaves more of a source than it has been given (`rest_le`); without an `open` callback
  a source is read to its end or to an error (`load_total`), with as much fuel as it has chunks.
* §4: so loading a text comes to what the rounds on it return (`loadFromBuf_eq`).
-/
import Libu.Config.Basic
import Libu.Verif.Recur

namespace Libu.Config

open Verif

/-! ## 1. Rounds -/

/-- A round of the loop of `u_config_do_load_drv`; `files` are those that are being read. -/
structure Frame where
  files : List (List Char)
  c : Config
  p : Path
  lastkey : List Char
  src : Source

/-- The round that loading a source into a tree starts with. -/
def start (c : Config) (src : Source) : Frame := ⟨[], c, [], [], src⟩

/-- The children of the node at `p`. -/
def items (c : Config) (p : Path) : List Item :=
  ((c.children.inside p).getD .nil).heads.map Prod.fst

/-- `load` on a round. -/
def Frame.load (load : Config → Path → List Char → Source → Option Loaded) (f : Frame) :
    Option Loaded :=
  load f.c f.p f.lastkey f.src

/-- What `u_config_include` comes to before it reads: the file and its source, or why there is
none. -/
def target (drv : Driver) (c : Config) (p : Path) (inckey : Nat) :
    Except Ret (List Char × Source) :=
  match (c.items p)[inckey]?.bind Item.value with
  | none => .error .err
  | some path =>
    match circular path inckey (c.items p).zipIdx with
    | .ok =>
      match drv.opens with
      | none => .error .err
      | some opens =>
        match (drv.resolv.getD some) (path.dropWhile isblank) with
        | none => .error .err
        | some uri =>
          match opens uri with
          | none => .error .err
          | some src => .ok (uri, src)
    | ret => .error ret

/-- What `u_config_include` returns behind a file that has been read with `ret`. -/
def closed (drv : Driver) (uri : List Char) (ret : Ret) : Ret :=
  if ret = .ok ∧ !(drv.closes.getD fun _ => true) uri then .err else ret

/-- What an `include` or `-include` line makes of what `u_config_include` returns. -/
def critical (key : List Char) (ret : Ret) : Ret :=
  if key = optIncludeKey ∧ ret = .err then .ok else ret

/-- `directive` -/
def directiveBody (drv : Driver) (f : Frame) (key value : List Char) :
    Body Frame Loaded (Ret × Config) :=
  if key = includeKey ∨ key = optIncludeKey then
    if value = [] then .ret (.err, f.c)
    else
      match doSetKey (some value) false (splitDots key) f.c f.p with
      | (.ok, c, subkey) =>
        match target drv c f.p (subkey.getLast?.getD 0) with
        | .error ret => .ret (critical key ret, c)
        | .ok (uri, src) =>
          .call ⟨uri :: f.files, c, f.p, [], src⟩ fun r => .ret
          (critical key (closed drv uri r.1), r.2.1)
      | (ret, c, _) => .ret (ret, c)
  else .ret (.ok, f.c)

/-- The loader goes on with the lines behind. -/
def goOn (f : Frame) : Body Frame Loaded Loaded := .call f .ret

/-- `assign` -/
def assignBody (drv : Driver) (overwrite : Bool) (f : Frame) (src : Source)
    (key value : List Char) : Body Frame Loaded Loaded :=
  (directiveBody drv f key value).bind fun r =>
    match r with
    | (.ok, c) =>
      if value = [] then goOn ⟨f.files, c, f.p, key, src⟩
      else
        match doSetKey (some value) overwrite (splitDots key) c f.p with
        | (.ok, c, _) => goOn ⟨f.files, c, f.p, f.lastkey, src⟩
        | (ret, c, _) => .ret (ret, c, src)
    | (ret, c) => .ret (ret, c, src)

/-- `openSection` -/
def sectionBody (overwrite : Bool) (f : Frame) (src : Source) : Body Frame Loaded Loaded :=
  let (c, i) := f.c.childFor f.p f.lastkey overwrite
  .call ⟨f.files, c, f.p ++ [i], [], src⟩ fun r =>
    match r with
    | (.ok, c, src) => goOn ⟨f.files, c, f.p, [], src⟩
    | r => .ret r

/-- `loadLine` -/
def round (drv : Driver) (overwrite : Bool) (f : Frame) : Body Frame Loaded Loaded :=
  match csGetline [] f.src with
  | none => .ret (.ok, f.c, [])
  | some (line, src) =>
    match parseLine line with
    | none => .ret (.err, f.c, src)
    | some .empty => goOn ⟨f.files, f.c, f.p, f.lastkey, src⟩
    | some (.opening alone) =>
      if f.lastkey = [] ∨ alone = false then .ret (.err, f.c, src) else sectionBody overwrite f src
    | some (.closing alone) => .ret (if f.p = [] ∨ alone = false then .err else .ok, f.c, src)
    | some (.assign key value) => assignBody drv overwrite f src key value

section Round

variable {drv : Driver} {overwrite : Bool} {f : Frame} {key value : List Char} {src : Source}
  (load : Config → Path → List Char → Source → Option Loaded)

theorem doInclude_eq (c : Config) (p : Path) (inckey : Nat) :
    doInclude load drv c p inckey =
      match target drv c p inckey with
      | .error ret => some (ret, c)
      | .ok (uri, src) => (load c p [] src).bind fun r => some (closed drv uri r.1, r.2.1) := by
  unfold doInclude target items
  dsimp only
  generalize ((c.children.inside p).getD .nil).heads.map Prod.fst = items
  cases items[inckey]?.bind Item.value with
  | none => rfl
  | some path =>
    dsimp only
    cases circular path inckey items.zipIdx with
    | ok =>
      cases drv.opens with
      | none => rfl
      | some opens =>
        dsimp only
        cases (drv.resolv.getD some) (path.dropWhile isblank) with
        | none => rfl
        | some uri =>
          dsimp only
          cases opens uri <;> rfl
    | err => rfl
    | crash => rfl

theorem directive_eq : directive load drv f.c f.p key value = (directiveBody drv f key value).run
    (Frame.load load) := by
  unfold directive directiveBody
  split
  · split
    · rfl
    · generalize doSetKey (some value) false (splitDots key) f.c f.p = r
      obtain ⟨ret, c, subkey⟩ := r
      cases ret with
      | ok =>
        dsimp only
        rw [doInclude_eq]
        cases target drv c f.p (subkey.getLast?.getD 0) with
        | error ret => rfl
        | ok m => simp [Frame.load, critical, Option.bind_assoc]
      | err => rfl
      | crash => rfl
  · rfl

theorem goOn_run (f : Frame) : (goOn f).run (Frame.load load) = load f.c f.p f.lastkey f.src := by
  simp [goOn, Frame.load]

theorem assign_eq : assign load drv overwrite f.c f.p f.lastkey src key value =
    (assignBody drv overwrite f src key value).run (Frame.load load) := by
  unfold assign assignBody
  rw [Body.run_bind, ← directive_eq]
  cases directive load drv f.c f.p key value with
  | none => rfl
  | some r =>
    obtain ⟨ret, c⟩ := r
    cases ret with
    | ok =>
      rw [Option.bind_some]
      dsimp only
      split
      · rw [goOn_run]
      · generalize doSetKey (some value) overwrite (splitDots key) c f.p = r
        obtain ⟨ret, c, subkey⟩ := r
        cases ret with
        | ok =>
          dsimp only
          rw [goOn_run]
        | err => rfl
        | crash => rfl
    | err => rfl
    | crash => rfl

theorem openSection_eq : openSection load overwrite f.c f.p f.lastkey src =
    (sectionBody overwrite f src).run (Frame.load load) := by
  unfold openSection sectionBody
  dsimp only
  rw [Body.run_call, Frame.load]
  cases load (f.c.childFor f.p f.lastkey overwrite).1
    (f.p ++ [(f.c.childFor f.p f.lastkey overwrite).2]) [] src with
  | none => rfl
  | some r =>
    obtain ⟨ret, c, src⟩ := r
    cases ret with
    | ok => rw [Option.bind_some, goOn_run]
    | err => rfl
    | crash => rfl

theorem loadLine_eq : loadLine load drv overwrite f.c f.p f.lastkey f.src =
    (round drv overwrite f).run (Frame.load load) := by
  unfold loadLine round
  cases csGetline [] f.src with
  | none => rfl
  | some m =>
    obtain ⟨line, src⟩ := m
    dsimp only
    cases parseLine line with
    | none => rfl
    | some l =>
      cases l with
      | empty =>
        dsimp only
        rw [goOn_run]
      | opening alone =>
        dsimp only
        split
        · rfl
        · exact openSection_eq load
      | closing alone =>
        dsimp only
        split <;> rfl
      | assign key value => exact assign_eq load

/-- **The loader is the procedure whose body is a round.** -/
theorem load_eq (drv : Driver) (overwrite : Bool) (n : Nat) (f : Frame) :
    Config.load drv overwrite n f.c f.p f.lastkey f.src = fix (round drv overwrite) n f := by
  induction n generalizing f with
  | zero => rfl
  | succ n ih =>
    have hload : Frame.load (Config.load drv overwrite n) = fix (round drv overwrite) n := funext ih
    rw [Config.load, loadLine_eq, hload, fix]

end Round

/-! ## 2. What a round calls -/

/-- The next line of the source is `l`. -/
def Reads (src : Source) (l : Line) (src' : Source) : Prop :=
  ∃ line, csGetline [] src = some (line, src') ∧ parseLine line = some l

/-- `key` is that of an include line. -/
def IsInclude (key : List Char) : Prop := key = includeKey ∨ key = optIncludeKey

/-- An include line of the round reads the file `uri`; the tree is `c` then. -/
def Opens (drv : Driver) (f : Frame) (key value uri : List Char) (c : Config)
    (src : Source) : Prop :=
  IsInclude key ∧ value ≠ [] ∧ ∃ subkey, doSetKey (some value) false (splitDots key) f.c f.p =
  (.ok, c, subkey) ∧
    target drv c f.p (subkey.getLast?.getD 0) = .ok (uri, src)

/-- Behind the directive that a line may be, the loader goes on with the tree `c`, where files
return as `R` says. -/
def Passes (drv : Driver) (R : Frame → Loaded → Prop) (f : Frame) (key value : List Char)
    (c : Config) : Prop :=
  (directiveBody drv f key value).Yields R (.ok, c)

/-- The loader goes on behind a line, where the sections and files it reads return as `R` says. -/
inductive Next (drv : Driver) (overwrite : Bool) (R : Frame → Loaded → Prop) (f : Frame) :
    Frame → Prop
  | empty {src : Source} : Reads f.src .empty src → Next drv overwrite R f { f with src := src }
  | leave {src src' : Source} {c c' : Config} {i : Nat} : Reads f.src (.opening true)
    src → f.lastkey ≠ [] →
      f.c.childFor f.p f.lastkey overwrite = (c, i) →
      R ⟨f.files, c, f.p ++ [i], [], src⟩ (.ok, c', src') →
      Next drv overwrite R f ⟨f.files, c', f.p, [], src'⟩
  | name {src : Source} {key : List Char} {c : Config} : Reads f.src (.assign key []) src →
      Passes drv R f key [] c → Next drv overwrite R f ⟨f.files, c, f.p, key, src⟩
  | value {src : Source} {key value : List Char} {c c' : Config} {child : Path} :
      Reads f.src (.assign key value) src → value ≠ [] → Passes drv R f key value c →
      doSetKey (some value) overwrite (splitDots key) c f.p = (.ok, c', child) →
      Next drv overwrite R f ⟨f.files, c', f.p, f.lastkey, src⟩

/-- The calls of a round. -/
inductive Goes (drv : Driver) (overwrite : Bool) (f : Frame) : Frame → Prop
  | next {g : Frame} : Next drv overwrite (Returns (round drv overwrite)) f g →
    Goes drv overwrite f g
  | enter {src : Source} {c : Config} {i : Nat} : Reads f.src (.opening true) src → f.lastkey ≠ [] →
      f.c.childFor f.p f.lastkey overwrite = (c, i) → Goes drv overwrite f
      ⟨f.files, c, f.p ++ [i], [], src⟩
  | file {src src' : Source} {key value uri : List Char} {c : Config} : Reads f.src
    (.assign key value) src →
      Opens drv f key value uri c src' → Goes drv overwrite f ⟨uri :: f.files, c, f.p, [], src'⟩

/-- A line that ends the loading with an error. -/
def Bad (f : Frame) : Option Line → Prop
  | none => True
  | some (.opening alone) => f.lastkey = [] ∨ alone = false
  | some (.closing alone) => f.p = [] ∨ alone = false
  | _ => False

/-- What a round returns, where the rounds it calls return as `R` says. -/
inductive Ends (drv : Driver) (overwrite : Bool) (R : Frame → Loaded → Prop) (f : Frame) :
    Loaded → Prop
  | eof : csGetline [] f.src = none → Ends drv overwrite R f (.ok, f.c, [])
  | bad {line : List Char} {src : Source} : csGetline [] f.src = some (line, src) →
    Bad f (parseLine line) →
      Ends drv overwrite R f (.err, f.c, src)
  | close {src : Source} : Reads f.src (.closing true) src → f.p ≠ [] →
    Ends drv overwrite R f (.ok, f.c, src)
  | directive {src : Source} {key value : List Char} {ret : Ret} {c : Config} :
      Reads f.src (.assign key value) src → (directiveBody drv f key value).Yields R
      (ret, c) → ret ≠ .ok →
      Ends drv overwrite R f (ret, c, src)
  | set {src : Source} {key value : List Char} {ret : Ret} {c c' : Config} {child : Path} :
      Reads f.src (.assign key value) src → value ≠ [] → Passes drv R f key value c →
      doSetKey (some value) overwrite (splitDots key) c f.p = (ret, c', child) → ret ≠ .ok →
      Ends drv overwrite R f (ret, c', src)
  | inside {src : Source} {c : Config} {i : Nat} {r : Loaded} : Reads f.src (.opening true)
    src → f.lastkey ≠ [] →
      f.c.childFor f.p f.lastkey overwrite = (c, i) →
      R ⟨f.files, c, f.p ++ [i], [], src⟩ r → r.1 ≠ .ok →
      Ends drv overwrite R f r
  | next {g : Frame} {r : Loaded} : Next drv overwrite R f g → R g r → Ends drv overwrite R f r

section Goes

variable {drv : Driver} {overwrite : Bool} {f g : Frame} {key value : List Char}

theorem target_ok {c : Config} {p : Path} {inckey : Nat} {uri : List Char} {src : Source}
    (h : target drv c p inckey = .ok (uri, src)) : ∃ opens, drv.opens = some opens ∧
      opens uri = some src := by
  unfold target at h
  generalize c.items p = items at h
  cases hpath : items[inckey]?.bind Item.value with
  | none => simp [hpath] at h
  | some path =>
    cases hcirc : circular path inckey items.zipIdx with
    | ok =>
      cases hopens : drv.opens with
      | none => simp [hpath, hcirc, hopens] at h
      | some opens =>
        simp only [hpath, hcirc, hopens] at h
        split at h
        · cases h
        · split at h
          · cases h
          · next src hsrc =>
            obtain ⟨rfl, rfl⟩ := Prod.mk.inj (Except.ok.inj h)
            exact ⟨opens, rfl, hsrc⟩
    | err => simp [hpath, hcirc] at h
    | crash => simp [hpath, hcirc] at h

theorem directive_calls {R : Frame → Loaded → Prop}
    (h : (directiveBody drv f key value).Calls R g) :
    ∃ uri c src, Opens drv f key value uri c src ∧ g = ⟨uri :: f.files, c, f.p, [], src⟩ := by
  unfold directiveBody at h
  split at h
  · next hkey =>
    split at h
    · simp at h
    · next hvalue =>
      split at h
      · next c subkey hset =>
        split at h
        · simp at h
        · next uri src htarget =>
          obtain rfl : g = _ := by simpa using h
          exact ⟨uri, c, src, ⟨hkey, hvalue, subkey, hset, htarget⟩, rfl⟩
      · simp at h
  · simp at h

/-- **The calls of a round**, one rule for each. -/
theorem goes_of_calls (h : Calls (round drv overwrite) f g) : Goes drv overwrite f g := by
  unfold Calls round at h
  split at h
  · simp at h
  · next line src hline =>
    split at h
    · simp at h
    · next hparse =>
      obtain rfl : g = _ := by simpa [goOn] using h
      exact .next (.empty ⟨line, hline, hparse⟩)
    · next alone hparse =>
      split at h
      · simp at h
      · next hbad =>
        rw [not_or, Bool.not_eq_false] at hbad
        obtain ⟨hkey, rfl⟩ := hbad
        have hread : Reads f.src (.opening true) src := ⟨line, hline, hparse⟩
        rcases Body.calls_call.mp h with rfl | ⟨⟨ret, c, src'⟩, hin, hk⟩
        · exact .enter hread hkey rfl
        · cases ret with
          | ok =>
            obtain rfl : g = _ := by simpa [goOn] using hk
            exact .next (.leave hread hkey rfl hin)
          | err => simp at hk
          | crash => simp at hk
    · simp at h
    · next key value hparse =>
      have hread : Reads f.src (.assign key value) src := ⟨line, hline, hparse⟩
      rcases Body.calls_bind.mp h with hdir | ⟨⟨ret, c⟩, hpass, hk⟩
      · obtain ⟨uri, c, src', hopens, rfl⟩ := directive_calls hdir
        exact .file hread hopens
      · cases ret with
        | ok =>
          dsimp only at hk
          split at hk
          · next hvalue =>
            subst hvalue
            obtain rfl : g = _ := by simpa [goOn] using hk
            exact .next (.name hread hpass)
          · next hvalue =>
            split at hk
            · next c' child hset =>
              obtain rfl : g = _ := by simpa [goOn] using hk
              exact .next (.value hread hvalue hpass hset)
            · simp at hk
        | err => simp at hk
        | crash => simp at hk

/-- **What a round returns**, one rule for each kind of line. -/
theorem round_yields {R : Frame → Loaded → Prop} {r : Loaded}
    (h : (round drv overwrite f).Yields R r) : Ends drv overwrite R f r := by
  unfold round at h
  split at h
  · next hline =>
    obtain rfl : r = _ := h
    exact .eof hline
  · next line src hline =>
    split at h
    · next hparse =>
      obtain rfl : r = _ := h
      exact .bad hline (by rw [hparse]; trivial)
    · next hparse =>
      obtain ⟨r', hr', rfl⟩ := h
      exact .next (.empty ⟨line, hline, hparse⟩) hr'
    · next alone hparse =>
      split at h
      · next hbad =>
        obtain rfl : r = _ := h
        exact .bad hline (by rw [hparse]; exact hbad)
      · next hbad =>
        rw [not_or, Bool.not_eq_false] at hbad
        obtain ⟨hkey, rfl⟩ := hbad
        have hread : Reads f.src (.opening true) src := ⟨line, hline, hparse⟩
        obtain ⟨⟨ret, c, src'⟩, hin, hk⟩ := h
        cases ret with
        | ok =>
          obtain ⟨r', hr', rfl⟩ := hk
          exact .next (.leave hread hkey rfl hin) hr'
        | err =>
          obtain rfl : r = _ := hk
          exact .inside hread hkey rfl hin fun h => (by cases h)
        | crash =>
          obtain rfl : r = _ := hk
          exact .inside hread hkey rfl hin fun h => (by cases h)
    · next alone hparse =>
      obtain rfl : r = _ := h
      split
      · next hbad => exact .bad hline (by rw [hparse]; exact hbad)
      · next hgood =>
        rw [not_or, Bool.not_eq_false] at hgood
        obtain ⟨hp, rfl⟩ := hgood
        exact .close ⟨line, hline, hparse⟩ hp
    · next key value hparse =>
      have hread : Reads f.src (.assign key value) src := ⟨line, hline, hparse⟩
      obtain ⟨⟨ret, c⟩, hdir, hk⟩ := Body.yields_bind.mp h
      cases ret with
      | ok =>
        have hpass : Passes drv R f key value c := hdir
        dsimp only at hk
        split at hk
        · next hvalue =>
          subst hvalue
          obtain ⟨r', hr', rfl⟩ := hk
          exact .next (.name hread hpass) hr'
        · next hvalue =>
          split at hk
          · next c' child hset =>
            obtain ⟨r', hr', rfl⟩ := hk
            exact .next (.value hread hvalue hpass hset) hr'
          · next ret c' child hret hset =>
            obtain rfl : r = _ := hk
            exact .set hread hvalue hpass hset fun h => hret h
      | err =>
        obtain rfl : r = _ := hk
        exact .directive hread hdir (by decide)
      | crash =>
        obtain rfl : r = _ := hk
        exact .directive hread hdir (by decide)

end Goes

/-! ## 3. Termination -/

section Termination

variable {drv : Driver} {overwrite : Bool} {f g : Frame} {src src' : Source} {l : Line}

theorem csGetline_lt {ln line : List Char} (h : csGetline ln src = some (line, src')) :
    src'.length < src.length := by
  induction src generalizing ln with
  | nil => cases h
  | cons buf src ih =>
    unfold csGetline at h
    dsimp only at h
    split at h
    · obtain ⟨-, rfl⟩ := Prod.mk.inj (Option.some.inj h)
      exact Nat.lt_succ_self _
    · split at h
      · obtain ⟨-, rfl⟩ := Prod.mk.inj (Option.some.inj h)
        exact Nat.lt_succ_self _
      · exact Nat.lt_succ_of_lt (ih h)

theorem Reads.lt (h : Reads src l src') : src'.length < src.length := by
  obtain ⟨line, hline, -⟩ := h
  exact csGetline_lt hline

/-- Where no section leaves more than it has been given, there is less behind a line than before
it. -/
theorem Next.lt {R : Frame → Loaded → Prop} (hR : ∀ g r, R g r → r.2.2.length ≤ g.src.length)
    (h : Next drv overwrite R f g) : g.src.length < f.src.length := by
  cases h with
  | empty hread => exact hread.lt
  | leave hread _ _ hin => exact Nat.lt_of_le_of_lt (hR _ _ hin) hread.lt
  | name hread => exact hread.lt
  | value hread => exact hread.lt

/-- **No call leaves more of a source than it has been given.** -/
theorem rest_le {r : Loaded} (h : Returns (round drv overwrite) f r) :
    r.2.2.length ≤ f.src.length := by
  refine Returns.rule (P := fun f r => r.2.2.length ≤ f.src.length) ?_ h
  intro f r hr
  cases round_yields hr with
  | eof => exact Nat.zero_le _
  | bad hline => exact Nat.le_of_lt (csGetline_lt hline)
  | close hread => exact Nat.le_of_lt hread.lt
  | directive hread => exact Nat.le_of_lt hread.lt
  | set hread => exact Nat.le_of_lt hread.lt
  | inside hread _ _ hin => exact Nat.le_trans hin.2.2 (Nat.le_of_lt hread.lt)
  | next hnext hin => exact Nat.le_trans hin.2.2 (Nat.le_of_lt (hnext.lt fun _ _ h => h.2.2))

/-- A round calls on less of its source, or on a file that it opens. -/
theorem Goes.measure (h : Goes drv overwrite f g) :
    g.files = f.files ∧ g.src.length < f.src.length ∨
      ∃ opens uri src, drv.opens = some opens ∧ opens uri = some src ∧ g.files =
      uri :: f.files := by
  cases h with
  | next hnext =>
    refine .inl ⟨?_, hnext.lt fun _ _ => rest_le⟩
    cases hnext <;> rfl
  | enter hread => exact .inl ⟨rfl, hread.lt⟩
  | file _ hopens =>
    obtain ⟨-, -, _, -, htarget⟩ := hopens
    obtain ⟨opens, hdrv, hsrc⟩ := target_ok htarget
    exact .inr ⟨opens, _, _, hdrv, hsrc, rfl⟩

/-- **Without an `open` callback, loading comes to an end** with as much fuel as there are
chunks. -/
theorem load_total {drv : Driver} (hdrv : drv.opens = none) (overwrite : Bool)
    {fuel : Nat} {src : Source}
    (hfuel : src.length < fuel) (c : Config) (p : Path) (lastkey : List Char) :
    ∃ r, load drv overwrite fuel c p lastkey src = some r := by
  have hm : ∀ f g, True → Calls (round drv overwrite) f g → True ∧ g.src.length < f.src.length := by
    intro f g _ hcall
    rcases (goes_of_calls hcall).measure with ⟨-, hlt⟩ | ⟨opens, uri, src, hopens, -⟩
    · exact ⟨trivial, hlt⟩
    · rw [hdrv] at hopens
      cases hopens
  obtain ⟨r, hr⟩ := fix_of_measure (i := (⟨[], c, p, lastkey, src⟩ : Frame)) (fun _ => True)
    (fun f => f.src.length) hm trivial hfuel
  exact ⟨r, (load_eq drv overwrite fuel ⟨[], c, p, lastkey, src⟩).trans hr⟩

end Termination

/-! ## 4. Texts -/

section Text

variable {text : List Char} {c : Config}

theorem length_bufSource_le (n : Nat) (text : List Char) : (bufSource n text).length ≤ n := by
  induction n generalizing text with
  | zero => exact Nat.le_refl _
  | succ n ih =>
    rw [bufSource]
    split
    · exact Nat.zero_le _
    · exact Nat.succ_le_succ (ih _)

/-- Loading a text comes to what the rounds on it return. -/
theorem loadFromBuf_eq {ret : Ret} {src : Source}
    (h : Returns (round bufDriver false) (start create (bufSource text.length text))
      (ret, c, src)) :
    loadFromBuf text = if ret = .ok then some c else none := by
  obtain ⟨r, hr⟩ := @load_total bufDriver rfl false (text.length + 1) (bufSource text.length text)
    (Nat.lt_succ_of_le (length_bufSource_le text.length text)) create [] []
  have hfix : Returns (round bufDriver false) (start create (bufSource text.length text)) r :=
    ⟨_, (load_eq bufDriver false _ (start create _)).symm.trans hr⟩
  obtain rfl := hfix.unique h
  rw [loadFromBuf, doLoadDrv, if_pos (by rfl), hr]
  cases ret <;> rfl

/-- What is loaded is what some rounds return. -/
theorem returns_of_loadFromBuf (h : loadFromBuf text = some c) :
    ∃ src, Returns (round bufDriver false) (start create (bufSource text.length text))
    (.ok, c, src) := by
  unfold loadFromBuf at h
  split at h
  · next c' src hdrv =>
    obtain rfl := Option.some.inj h
    rw [doLoadDrv, if_pos (by rfl)] at hdrv
    exact ⟨src, _, (load_eq bufDriver false _ (start create _)).symm.trans hdrv⟩
  · cases h

end Text

end Libu.Config
