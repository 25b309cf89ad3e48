/-
# What the loader opens (`toolbox/config.c`)

A driver's `open` is called for the file that is loaded, and for each file that it includes.  Every
way out of the loader has to close what is open.

* §1 is the code once more, with the calls of `open`, `gets` and `close` in a log.  The label `err`
  has a `close` of its own, which is logged apart; it is called for a handle that is not NULL, and
  is all that closes a handle that a failing `open` has left.
* §2: it is the loader of `Libu/Config/Basic.lean` (`loadLogged_eq`).
* §3 is the purpose: files are read and closed like a stack (`filesNext`).  Where there is no `open`
  no file is open, but `close` is called for NULL.
* §4: the loader keeps to it (`loadFromDrv_typed`) if `open` leaves a handle just when it succeeds,
  so that a source is closed as often as it is opened, and once more each time that closing it fails
  (`loadFromDrv_closes`).
-/
import Libu.Config.Basic
import Libu.Verif.Protocol

namespace Libu.Config

open Verif

/-! ## 1. The code -/

/-- A driver, and what its callbacks do with handles: whether the one that `open` leaves for a file
is not NULL, and whether `close` succeeds for the one that is NULL because there is no `open`. -/
structure HandleDriver extends Driver where
  leaves : List Char → Bool
  closesNull : Bool

/-- A call of the driver.  `gets` and `close` are told by the file that is read; `closeErr` is
`close` at the label `err`. -/
inductive Call
  | opened (uri : List Char) (ok : Bool)
  | gets (uri : Option (List Char))
  | close (uri : Option (List Char)) (ok : Bool)
  | closeErr (uri : List Char) (ok : Bool)
  deriving DecidableEq

/-- The fuel has run out. -/
inductive NoFuel
  | fuel

abbrev Logs (α : Type) := Logged NoFuel Unit Call α

/-- The loader, on the source `uri`. -/
abbrev Loader := Option (List Char) → Config → Path → List Char → Source → Logs Loaded

/-- The label `err`, behind a call of `open` for `uri`. -/
def closeErr (drv : HandleDriver) (uri : List Char) : Logs Unit :=
  match drv.closes with
  | none => pure ()
  | some closes => if drv.leaves uri then Logged.log [.closeErr uri (closes uri)] else pure ()

/-- What `u_config_include` and `u_config_load_from_drv` do behind the loader. -/
def closeLogged (drv : HandleDriver) (uri : List Char) (ret : Ret) : Logs Ret :=
  match ret with
  | .ok =>
    match drv.closes with
    | none => pure .ok
    | some closes => do
      Logged.log [.close (some uri) (closes uri)]
      if closes uri then pure .ok
      else do
        closeErr drv uri
        pure .err
  | .err => do
    closeErr drv uri
    pure .err
  | .crash => pure .crash

/-- What `u_config_load_from_drv` does behind the loader when there is no `open`: the handle is
NULL, and the label `err` closes nothing. -/
def closeNull (drv : HandleDriver) : Ret → Logs Ret
  | .ok =>
    match drv.closes with
    | none => pure .ok
    | some _ => do
      Logged.log [.close none drv.closesNull]
      pure (if drv.closesNull then .ok else .err)
  | ret => pure ret

/-- `u_config_include`, where `load` is `u_config_do_load_drv`. -/
def includeLogged (load : Loader) (drv : HandleDriver) (c : Config) (p : Path) (inckey : Nat) :
    Logs (Ret × Config) :=
  let items := ((c.children.inside p).getD .nil).heads.map Prod.fst
  match items[inckey]?.bind Item.value with
  | none => pure (.err, c)
  | some path =>
    match circular path inckey items.zipIdx with
    | .ok =>
      match drv.opens with
      | none => pure (.err, c)
      | some opens =>
        match (drv.resolv.getD some) (path.dropWhile isblank) with
        | none => pure (.err, c)
        | some uri =>
          match opens uri with
          | none => do
            Logged.log [.opened uri false]
            closeErr drv uri
            pure (.err, c)
          | some src => do
            Logged.log [.opened uri true]
            let (ret, c, _) ← load (some uri) c p [] src
            let ret ← closeLogged drv uri ret
            pure (ret, c)
    | ret => pure (ret, c)

/-- An `include` or `-include` line, up to where the loader goes on with it. -/
def directiveLogged (load : Loader) (drv : HandleDriver) (c : Config) (p : Path)
    (key value : List Char) : Logs (Ret × Config) :=
  if key = includeKey ∨ key = optIncludeKey then
    if value = [] then pure (.err, c)
    else
      match doSetKey (some value) false (splitDots key) c p with
      | (.ok, c, subkey) => do
        let (ret, c) ← includeLogged load drv c p (subkey.getLast?.getD 0)
        pure (if key = optIncludeKey ∧ ret = .err then .ok else ret, c)
      | (ret, c, _) => pure (ret, c)
  else pure (.ok, c)

/-- A line `key value`; the loader goes on with `load`. -/
def assignLogged (load : Loader) (drv : HandleDriver) (overwrite : Bool)
    (arg : Option (List Char)) (c : Config) (p : Path) (lastkey : List Char) (src : Source)
    (key value : List Char) :
    Logs Loaded := do
  match ← directiveLogged load drv c p key value with
  | (.ok, c) =>
    if value = [] then load arg c p key src
    else
      match doSetKey (some value) overwrite (splitDots key) c p with
      | (.ok, c, _) => load arg c p lastkey src
      | (ret, c, _) => pure (ret, c, src)
  | (ret, c) => pure (ret, c, src)

/-- A line `{`; the section is read by `load`, and the loader goes on with it. -/
def sectionLogged (load : Loader) (overwrite : Bool) (arg : Option (List Char)) (c : Config)
    (p : Path) (lastkey : List Char) (src : Source) : Logs Loaded := do
  let (c, i) := c.childFor p lastkey overwrite
  match ← load arg c (p ++ [i]) [] src with
  | (.ok, c, src) => load arg c p [] src
  | r => pure r

/-- A round of the loop of `u_config_do_load_drv`. -/
def lineLogged (load : Loader) (drv : HandleDriver) (overwrite : Bool) : Loader :=
  fun arg c p lastkey src => do
    Logged.log [.gets arg]
    match csGetline [] src with
    | none => pure (.ok, c, [])
    | some (line, src) =>
      match parseLine line with
      | none => pure (.err, c, src)
      | some .empty => load arg c p lastkey src
      | some (.opening alone) =>
        if lastkey = [] ∨ alone = false then pure (.err, c, src)
        else sectionLogged load overwrite arg c p lastkey src
      | some (.closing alone) =>
        if p = [] ∨ alone = false then pure (.err, c, src) else pure (.ok, c, src)
      | some (.assign key value) => assignLogged load drv overwrite arg c p lastkey src key value

/-- The loop of `u_config_do_load_drv`. -/
def loadLogged (drv : HandleDriver) (overwrite : Bool) : Nat → Loader
  | 0 => fun _ _ _ _ _ => Logged.fail .fuel
  | fuel + 1 => lineLogged (loadLogged drv overwrite fuel) drv overwrite

/-- `u_config_do_load_drv` -/
def doLoadDrvLogged (fuel : Nat) (arg : Option (List Char)) (c : Config)
    (drv : HandleDriver) (src : Source) (overwrite : Bool) : Logs Loaded :=
  if drv.gets then loadLogged drv overwrite fuel arg c [] [] src else pure (.err, c, src)

/-- `u_config_load_from_drv`: what it returns, and the tree that it stores.  Without an `open`
callback it reads `src`. -/
def loadFromDrv (fuel : Nat) (uri : List Char) (drv : HandleDriver) (src : Source)
    (overwrite : Bool) : Logs (Ret × Option Config) := do
  if !drv.gets then pure (.err, none)
  else
    match drv.opens with
    | none => do
      let (ret, c, _) ← doLoadDrvLogged fuel none create drv src overwrite
      let ret ← closeNull drv ret
      pure (ret, if ret = .ok then some c else none)
    | some opens =>
      match opens uri with
      | none => do
        Logged.log [.opened uri false]
        closeErr drv uri
        pure (.err, none)
      | some src => do
        Logged.log [.opened uri true]
        let (ret, c, _) ← doLoadDrvLogged fuel (some uri) create drv src overwrite
        let ret ← closeLogged drv uri ret
        pure (ret, if ret = .ok then some c else none)

/-! ## 2. The same loader -/

/-- What a computation without a log comes to. -/
def outcome {α : Type} : Option α → Except NoFuel (Unit × α)
  | some a => .ok ((), a)
  | none => .error .fuel

section

variable {α β : Type} {drv : HandleDriver} {overwrite : Bool} {loadL : Loader}
  {load : Config → Path → List Char → Source → Option Loaded} {uri key value lastkey : List Char}
  {arg : Option (List Char)} {c : Config} {p : Path} {src : Source}

theorem outcome_bind {w : Logs α} {o : Option α} {f : α → Logs β} {g : α → Option β}
    (hw : (w ()).2 = outcome o) (hf : ∀ a, (f a ()).2 = outcome (g a)) :
    ((w >>= f) ()).2 = outcome (o.bind g) := by
  rw [Logged.bind_snd, hw]
  cases o with
  | none => rfl
  | some a => exact hf a

/-- Behind a call that goes to the log. -/
theorem outcome_log {es : List Call} {f : Unit → Logs β} {o : Option β}
    (hf : (f () ()).2 = outcome o) : ((Logged.log es >>= f) ()).2 = outcome o :=
  outcome_bind (w := Logged.log es) (o := some ()) (g := fun _ => o) rfl fun _ => hf

theorem closeErr_outcome (drv : HandleDriver) (uri : List Char) :
    (closeErr drv uri ()).2 = outcome (some ()) := by
  unfold closeErr
  cases drv.closes with
  | none => rfl
  | some closes =>
    dsimp only
    cases drv.leaves uri <;> rfl

theorem closeLogged_outcome (ret : Ret) :
    (closeLogged drv uri ret ()).2 = outcome (some
      (if ret = .ok ∧ !(drv.closes.getD fun _ => true) uri then .err else ret)) := by
  unfold closeLogged
  cases ret with
  | ok =>
    cases hcloses : drv.closes with
    | none => simp [outcome]
    | some closes =>
      refine outcome_log ?_
      cases hok : closes uri with
      | true => simp [hok, outcome]
      | false =>
        have herr := outcome_bind (g := fun _ => some Ret.err) (f := fun _ => pure .err)
          (closeErr_outcome drv uri) fun _ => rfl
        simpa [hok] using herr
  | err =>
    have herr := outcome_bind (g := fun _ => some Ret.err) (f := fun _ => pure .err)
      (closeErr_outcome drv uri) fun _ => rfl
    simpa using herr
  | crash => simp [outcome]

variable (hload : ∀ arg c p lastkey src,
  (loadL arg c p lastkey src ()).2 = outcome (load c p lastkey src))

include hload

theorem includeLogged_eq (inckey : Nat) :
    (includeLogged loadL drv c p inckey ()).2 =
      outcome (doInclude load drv.toDriver c p inckey) := by
  unfold includeLogged doInclude
  dsimp only
  generalize ((c.children.inside p).getD .nil).heads.map Prod.fst = items
  cases items[inckey]?.bind Item.value with
  | none => rfl
  | some path =>
    dsimp only
    cases circular path inckey items.zipIdx with
    | err => rfl
    | crash => rfl
    | ok =>
      cases drv.opens with
      | none => rfl
      | some opens =>
        dsimp only
        cases (drv.resolv.getD some) (path.dropWhile isblank) with
        | none => rfl
        | some uri =>
          dsimp only
          cases opens uri with
          | none =>
            exact outcome_log (outcome_bind (g := fun _ => some (Ret.err, c))
              (closeErr_outcome drv uri) fun _ => rfl)
          | some src =>
            refine outcome_log (outcome_bind (hload _ _ _ _ _) fun r => ?_)
            exact outcome_bind (g := fun ret => some (ret, r.2.1)) (closeLogged_outcome r.1)
              fun _ => rfl

theorem directiveLogged_eq : (directiveLogged loadL drv c p key value ()).2 =
    outcome (directive load drv.toDriver c p key value) := by
  unfold directiveLogged directive
  split
  · split
    · rfl
    · generalize doSetKey (some value) false (splitDots key) c p = r
      obtain ⟨ret, c, subkey⟩ := r
      cases ret with
      | ok => exact outcome_bind (includeLogged_eq hload _) fun _ => rfl
      | err => rfl
      | crash => rfl
  · rfl

theorem assignLogged_eq : (assignLogged loadL drv overwrite arg c p lastkey src key value ()).2 =
    outcome (assign load drv.toDriver overwrite c p lastkey src key value) := by
  unfold assignLogged assign
  rw [Logged.bind_snd, directiveLogged_eq hload]
  cases directive load drv.toDriver c p key value with
  | none => rfl
  | some r =>
    obtain ⟨ret, c⟩ := r
    cases ret with
    | err => rfl
    | crash => rfl
    | ok =>
      simp only [outcome]
      change ((if value = [] then loadL arg c p key src else _) ()).2 = _
      split
      · exact hload _ _ _ _ _
      · generalize doSetKey (some value) overwrite (splitDots key) c p = r
        obtain ⟨ret, c, subkey⟩ := r
        cases ret with
        | ok => exact hload _ _ _ _ _
        | err => rfl
        | crash => rfl

theorem sectionLogged_eq : (sectionLogged loadL overwrite arg c p lastkey src ()).2 =
    outcome (openSection load overwrite c p lastkey src) := by
  unfold sectionLogged openSection
  dsimp only
  rw [Logged.bind_snd, hload]
  cases load (c.childFor p lastkey overwrite).1 (p ++ [(c.childFor p lastkey overwrite).2]) []
    src with
  | none => rfl
  | some r =>
    obtain ⟨ret, c, src⟩ := r
    cases ret with
    | ok => exact hload _ _ _ _ _
    | err => rfl
    | crash => rfl

theorem lineLogged_eq : (lineLogged loadL drv overwrite arg c p lastkey src ()).2 =
    outcome (loadLine load drv.toDriver overwrite c p lastkey src) := by
  unfold lineLogged loadLine
  refine outcome_log ?_
  cases csGetline [] src with
  | none => rfl
  | some r =>
    obtain ⟨line, src⟩ := r
    dsimp only
    cases parseLine line with
    | none => rfl
    | some l =>
      cases l with
      | empty => exact hload _ _ _ _ _
      | opening alone =>
        dsimp only
        split
        · rfl
        · exact sectionLogged_eq hload
      | closing alone =>
        dsimp only
        split <;> rfl
      | assign key value => exact assignLogged_eq hload

end

/-- **Without its log, the loader is the one of the model.** -/
theorem loadLogged_eq (drv : HandleDriver) (overwrite : Bool) (fuel : Nat)
    (arg : Option (List Char)) (c : Config) (p : Path) (lastkey : List Char) (src : Source) :
    (loadLogged drv overwrite fuel arg c p lastkey src ()).2 =
      outcome (load drv.toDriver overwrite fuel c p lastkey src) := by
  induction fuel generalizing arg c p lastkey src with
  | zero => rfl
  | succ fuel ih => exact lineLogged_eq fun arg c p lastkey src => ih arg c p lastkey src

/-! ## 3. The files as a stack -/

/-- The files that are open, the last one first; whether closing that one has just failed. -/
structure Files where
  stack : List (List Char)
  failed : Bool
  deriving DecidableEq

/-- The protocol: the file that was opened last is read, and is closed first.  It is closed at the
label `err` when it has not been, or when that has failed.  The handle NULL is closed when nothing
is open, for a driver without `open` (`null`). -/
def filesNext (null : Bool) (fs : Files) : Call → Option Files
  | .opened uri ok =>
    if fs.failed = false then some ⟨if ok then uri :: fs.stack else fs.stack, false⟩ else none
  | .gets uri => if fs.failed = false ∧ fs.stack.head? = uri then some fs else none
  | .close none _ => if null ∧ fs = ⟨[], false⟩ then some fs else none
  | .close (some uri) ok =>
    match fs.stack with
    | [] => none
    | top :: rest =>
      if fs.failed = false ∧ top = uri then some (if ok then ⟨rest, false⟩ else ⟨top :: rest, true⟩)
      else none
  | .closeErr uri _ =>
    match fs.stack with
    | [] => none
    | top :: rest => if top = uri then some ⟨rest, false⟩ else none

/-- The calls that close `uri`. -/
def Call.closes (uri : List Char) : Call → Bool
  | .close v _ => v = some uri
  | .closeErr v _ => v = uri
  | _ => false

/-- The calls that open `uri`. -/
def Call.opens (uri : List Char) : Call → Bool
  | .opened v ok => ok && v = uri
  | _ => false

/-- The calls that fail to close `uri`. -/
def Call.failsToClose (uri : List Char) : Call → Bool
  | .close v ok => !ok && v = some uri
  | _ => false

/-- `open` leaves a handle for the files that it opens, and for no other. -/
def HandleDriver.Proper (drv : HandleDriver) : Prop :=
  ∀ opens, drv.opens = some opens → ∀ uri, drv.leaves uri = (opens uri).isSome

/-! ## 4. The loader keeps to it -/

section

variable {drv : HandleDriver} {overwrite null : Bool} {loadL : Loader} {closes : List Char → Bool}
  {uri key value lastkey : List Char} {arg : Option (List Char)} {c : Config} {p : Path}
  {src : Source} {stack : List (List Char)}

/-- The files are as they were, unless the program has crashed. -/
def Back (stack : List (List Char)) (ret : Ret) (fs : Files) : Prop :=
  ret ≠ .crash → fs = ⟨stack, false⟩

/-- `Typed`, from a stack of open files; the loader may be cut off anywhere. -/
abbrev Stacked {α : Type} (null : Bool) (stack : List (List Char)) (w : Logs α) (ret : α → Ret) :
    Prop :=
  Typed (filesNext null) ⟨stack, false⟩ () w (fun a _ fs => Back stack (ret a) fs) fun _ _ => True

theorem stacked_pure {α : Type} {ret : α → Ret} (a : α) : Stacked null stack (pure a) ret :=
  typed_pure fun _ => rfl

theorem typed_log {q r : Files} {x : Call} {Q : Unit → Unit → Files → Prop}
    {E : NoFuel → Files → Prop} (h : filesNext null q x = some r) (hQ : Q () () r) :
    Typed (filesNext null) q () (Logged.log [x]) Q E :=
  ⟨fun _ _ _ => ⟨r, follows_singleton.mpr h, hQ⟩, fun _ he => by cases he⟩

/-- Behind a computation that has left the files as they were, or has crashed. -/
theorem Stacked.bind {α β : Type} {w : Logs α} {f : α → Logs β} {ret : α → Ret} {ret' : β → Ret}
    (hw : Stacked null stack w ret)
    (hcrash : ∀ a, ret a = .crash → ∃ b, f a = pure b ∧ ret' b = .crash)
    (hf : ∀ a, ret a ≠ .crash → Stacked null stack (f a) ret') :
    Stacked null stack (w >>= f) ret' := by
  refine Typed.bind hw fun a _ fs hback => ?_
  by_cases ha : ret a = .crash
  · obtain ⟨b, hb, hret⟩ := hcrash a ha
    rw [hb]
    exact typed_pure fun hne => absurd hret hne
  · rw [hback ha]
    exact hf a ha

variable (hcloses : drv.closes = some closes)

include hcloses

/-- At the label `err`. -/
theorem closeErr_typed {failed : Bool} (hleaves : drv.leaves uri = true) :
    Typed (filesNext null) ⟨uri :: stack, failed⟩ () (closeErr drv uri)
      (fun _ _ fs => fs = ⟨stack, false⟩) fun _ _ => True := by
  unfold closeErr
  rw [hcloses]
  dsimp only
  rw [if_pos hleaves]
  exact typed_log (by simp [filesNext]) rfl

omit hcloses in
/-- A file that could not be opened is not closed at the label `err`. -/
theorem failedOpen_typed {α : Type} {ret : α → Ret} (a : α) (hleaves : drv.leaves uri = false) :
    Stacked null stack (do
      Logged.log [.opened uri false]
      closeErr drv uri
      pure a) ret := by
  have hclose : closeErr drv uri = pure () := by
    unfold closeErr
    cases drv.closes with
    | none => rfl
    | some closes => simp [hleaves]
  refine Typed.bind (Q := fun _ _ fs => fs = ⟨stack, false⟩)
    (typed_log (by simp [filesNext]) rfl) ?_
  rintro _ _ _ rfl
  rw [hclose]
  exact stacked_pure a

/-- However the file was read, it is not open afterwards. -/
theorem closeLogged_typed (hleaves : drv.leaves uri = true) (ret : Ret) (fs : Files)
    (hfs : Back (uri :: stack) ret fs) :
    Typed (filesNext null) fs () (closeLogged drv uri ret) (fun ret _ fs => Back stack ret fs)
      fun _ _ => True := by
  have herr : ∀ failed, Typed (filesNext null) ⟨uri :: stack, failed⟩ () (do
      closeErr drv uri
      pure Ret.err) (fun ret _ fs => Back stack ret fs) fun _ _ => True := fun failed =>
    Typed.bind (closeErr_typed hcloses hleaves) fun _ _ _ h => typed_pure fun _ => h
  cases ret with
  | crash => exact typed_pure fun hne => absurd rfl hne
  | err =>
    rw [hfs (by simp)]
    exact herr false
  | ok =>
    rw [hfs (by simp)]
    simp only [closeLogged, hcloses]
    refine Typed.bind (Q := fun _ _ fs => fs = if closes uri then ⟨stack, false⟩
      else ⟨uri :: stack, true⟩) (typed_log (by simp [filesNext]) rfl) ?_
    rintro _ _ _ rfl
    cases closes uri with
    | true => exact typed_pure fun _ => rfl
    | false => exact herr true

variable (hproper : drv.Proper) (hload : ∀ stack arg c p lastkey src, stack.head? = arg →
  Stacked null stack (loadL arg c p lastkey src) Prod.fst)

include hproper hload

theorem includeLogged_typed (inckey : Nat) :
    Stacked null stack (includeLogged loadL drv c p inckey) Prod.fst := by
  unfold includeLogged
  dsimp only
  generalize ((c.children.inside p).getD .nil).heads.map Prod.fst = items
  cases items[inckey]?.bind Item.value with
  | none => exact stacked_pure _
  | some path =>
    dsimp only
    cases circular path inckey items.zipIdx with
    | err => exact stacked_pure _
    | crash => exact stacked_pure _
    | ok =>
      cases hopens : drv.opens with
      | none => exact stacked_pure _
      | some opens =>
        dsimp only
        cases (drv.resolv.getD some) (path.dropWhile isblank) with
        | none => exact stacked_pure _
        | some uri =>
          have hleaves := hproper opens hopens uri
          dsimp only
          cases hopen : opens uri with
          | none =>
            rw [hopen] at hleaves
            exact failedOpen_typed _ hleaves
          | some src =>
            rw [hopen] at hleaves
            refine Typed.bind (Q := fun _ _ fs => fs = ⟨uri :: stack, false⟩)
              (typed_log (by simp [filesNext]) rfl) ?_
            rintro _ _ _ rfl
            refine Typed.bind (hload _ _ c p [] src rfl) ?_
            rintro ⟨ret, c, src⟩ _ fs hback
            refine Typed.bind (closeLogged_typed hcloses hleaves ret fs hback) ?_
            intro ret _ fs hback
            exact typed_pure hback

theorem directiveLogged_typed :
    Stacked null stack (directiveLogged loadL drv c p key value) Prod.fst := by
  unfold directiveLogged
  split
  · split
    · exact stacked_pure _
    · generalize doSetKey (some value) false (splitDots key) c p = r
      obtain ⟨ret, c, subkey⟩ := r
      cases ret with
      | err => exact stacked_pure _
      | crash => exact stacked_pure _
      | ok =>
        refine (includeLogged_typed hcloses hproper hload _).bind ?_ fun r hr => stacked_pure _
        rintro ⟨ret, c⟩ hret
        obtain rfl : ret = .crash := hret
        exact ⟨_, rfl, by simp⟩
  · exact stacked_pure _

theorem assignLogged_typed (harg : stack.head? = arg) :
    Stacked null stack (assignLogged loadL drv overwrite arg c p lastkey src key value)
      Prod.fst := by
  unfold assignLogged
  refine (directiveLogged_typed hcloses hproper hload).bind ?_ ?_
  · rintro ⟨ret, c⟩ hret
    obtain rfl : ret = .crash := hret
    exact ⟨_, rfl, rfl⟩
  · rintro ⟨ret, c⟩ -
    cases ret with
    | err => exact stacked_pure _
    | crash => exact stacked_pure _
    | ok =>
      dsimp only
      split
      · exact hload _ _ _ _ _ _ harg
      · generalize doSetKey (some value) overwrite (splitDots key) c p = r
        obtain ⟨ret, c, subkey⟩ := r
        cases ret with
        | ok => exact hload _ _ _ _ _ _ harg
        | err => exact stacked_pure _
        | crash => exact stacked_pure _

omit hcloses hproper in
theorem sectionLogged_typed (harg : stack.head? = arg) :
    Stacked null stack (sectionLogged loadL overwrite arg c p lastkey src) Prod.fst := by
  unfold sectionLogged
  dsimp only
  refine (hload _ _ _ _ _ _ harg).bind ?_ ?_
  · rintro ⟨ret, c, src⟩ hret
    obtain rfl : ret = .crash := hret
    exact ⟨_, rfl, rfl⟩
  · rintro ⟨ret, c, src⟩ -
    cases ret with
    | ok => exact hload _ _ _ _ _ _ harg
    | err => exact stacked_pure _
    | crash => exact stacked_pure _

theorem lineLogged_typed (harg : stack.head? = arg) :
    Stacked null stack (lineLogged loadL drv overwrite arg c p lastkey src) Prod.fst := by
  unfold lineLogged
  refine Typed.bind (Q := fun _ _ fs => fs = ⟨stack, false⟩)
    (typed_log (by simp [filesNext, harg]) rfl) ?_
  rintro _ _ _ rfl
  cases csGetline [] src with
  | none => exact stacked_pure _
  | some r =>
    obtain ⟨line, src⟩ := r
    dsimp only
    cases parseLine line with
    | none => exact stacked_pure _
    | some l =>
      cases l with
      | empty => exact hload _ _ _ _ _ _ harg
      | opening alone =>
        dsimp only
        split
        · exact stacked_pure _
        · exact sectionLogged_typed hload harg
      | closing alone =>
        dsimp only
        split <;> exact stacked_pure _
      | assign key value => exact assignLogged_typed hcloses hproper hload harg

end

section

variable {drv : HandleDriver} {null : Bool} {closes : List Char → Bool}
  {stack : List (List Char)} {uri : List Char}

/-- The loader leaves the files as it has found them, however deep they are included. -/
theorem loadLogged_typed (hcloses : drv.closes = some closes) (hproper : drv.Proper)
    (overwrite : Bool) : ∀ (fuel : Nat) (stack : List (List Char)) (arg : Option (List Char))
      (c : Config) (p : Path)
    (lastkey : List Char) (src : Source), stack.head? = arg →
      Stacked null stack (loadLogged drv overwrite fuel arg c p lastkey src) Prod.fst
  | 0, _, _, _, _, _, _, _ => typed_fail trivial
  | fuel + 1, _, _, _, _, _, _, harg =>
    lineLogged_typed hcloses hproper (loadLogged_typed hcloses hproper overwrite fuel) harg

theorem doLoadDrvLogged_typed (hcloses : drv.closes = some closes) (hproper : drv.Proper)
    (fuel : Nat)
    {arg : Option (List Char)} (harg : stack.head? = arg) (c : Config) (src : Source)
    (overwrite : Bool) :
    Stacked null stack (doLoadDrvLogged fuel arg c drv src overwrite) Prod.fst := by
  unfold doLoadDrvLogged
  split
  · exact loadLogged_typed hcloses hproper overwrite fuel _ _ _ _ _ _ harg
  · exact stacked_pure _

/-- Where there is no `open`, NULL is closed while nothing is open. -/
theorem closeNull_typed (ret : Ret) (fs : Files) (hfs : Back [] ret fs) :
    Typed (filesNext true) fs () (closeNull drv ret) (fun ret _ fs => Back [] ret fs)
      fun _ _ => True := by
  cases ret with
  | crash => exact typed_pure fun hne => absurd rfl hne
  | err => exact typed_pure hfs
  | ok =>
    rw [hfs (by simp)]
    unfold closeNull
    cases drv.closes with
    | none => exact typed_pure fun _ => rfl
    | some closes =>
      refine Typed.bind (Q := fun _ _ fs => fs = ⟨[], false⟩)
        (typed_log (by simp [filesNext]) rfl) ?_
      rintro _ _ _ rfl
      exact typed_pure fun _ => rfl

/-- The files are read and closed like a stack, and at the end none is open. -/
theorem loadFromDrv_typed (hcloses : drv.closes = some closes) (hproper : drv.Proper) (fuel : Nat)
    (uri : List Char) (src : Source) (overwrite : Bool) :
    Stacked drv.opens.isNone [] (loadFromDrv fuel uri drv src overwrite) Prod.fst := by
  unfold loadFromDrv
  split
  · exact stacked_pure _
  · cases hopens : drv.opens with
    | none =>
      refine Typed.bind (doLoadDrvLogged_typed hcloses hproper fuel rfl create src overwrite) ?_
      rintro ⟨ret, c, src⟩ _ fs hback
      refine Typed.bind (closeNull_typed ret fs hback) ?_
      intro ret _ fs hback
      exact typed_pure hback
    | some opens =>
      have hleaves := hproper opens hopens uri
      dsimp only
      cases hopen : opens uri with
      | none =>
        rw [hopen] at hleaves
        exact failedOpen_typed _ hleaves
      | some src =>
        rw [hopen] at hleaves
        refine Typed.bind (Q := fun _ _ fs => fs = ⟨[uri], false⟩)
          (typed_log (by simp [filesNext]) rfl) ?_
        rintro _ _ _ rfl
        refine Typed.bind (doLoadDrvLogged_typed hcloses hproper fuel rfl create src overwrite) ?_
        rintro ⟨ret, c, src⟩ _ fs hback
        refine Typed.bind (closeLogged_typed hcloses hleaves ret fs hback) ?_
        intro ret _ fs hback
        exact typed_pure hback

/-- What is closed has been opened, or has failed to close. -/
theorem filesNext_counts (uri : List Char) {fs fs' : Files} {x : Call}
    (h : filesNext null fs x = some fs') :
    fs.stack.count uri + ([x].countP (Call.opens uri) + [x].countP (Call.failsToClose uri)) =
      fs'.stack.count uri + [x].countP (Call.closes uri) := by
  obtain ⟨stack, failed⟩ := fs
  cases x with
  | opened v ok =>
    simp only [filesNext, Option.ite_none_right_eq_some, Option.some.injEq] at h
    obtain ⟨-, rfl⟩ := h
    cases ok <;> simp [Call.opens, Call.closes, Call.failsToClose, List.count_cons,
      List.countP_cons]
  | gets v =>
    simp only [filesNext, Option.ite_none_right_eq_some, Option.some.injEq] at h
    obtain ⟨-, rfl⟩ := h
    simp [Call.opens, Call.closes, Call.failsToClose]
  | close v ok =>
    cases v with
    | none =>
      simp only [filesNext, Option.ite_none_right_eq_some, Option.some.injEq] at h
      obtain ⟨-, rfl⟩ := h
      simp [Call.opens, Call.closes, Call.failsToClose]
    | some v =>
      cases stack with
      | nil => cases h
      | cons top rest =>
        simp only [filesNext, Option.ite_none_right_eq_some, Option.some.injEq] at h
        obtain ⟨⟨-, rfl⟩, rfl⟩ := h
        cases ok <;> simp [Call.opens, Call.closes, Call.failsToClose, List.count_cons,
          List.countP_cons]
  | closeErr v ok =>
    cases stack with
    | nil => cases h
    | cons top rest =>
      simp only [filesNext, Option.ite_none_right_eq_some, Option.some.injEq] at h
      obtain ⟨rfl, rfl⟩ := h
      simp [Call.opens, Call.closes, Call.failsToClose, List.count_cons, List.countP_cons]

theorem follows_counts (uri : List Char) {fs fs' : Files} {es : List Call}
    (h : Follows (filesNext null) fs es fs') :
    fs.stack.count uri + (es.countP (Call.opens uri) + es.countP (Call.failsToClose uri)) =
      fs'.stack.count uri + es.countP (Call.closes uri) := by
  induction es generalizing fs with
  | nil =>
    rw [follows_nil_iff.mp h]
    rfl
  | cons x es ih =>
    obtain ⟨fs₁, hx, hes⟩ := follows_cons.mp h
    have hstep := filesNext_counts uri hx
    have hrest := ih hes
    have hcons : ∀ P : Call → Bool, (x :: es).countP P = [x].countP P + es.countP P := by
      intro P
      rw [← List.singleton_append, List.countP_append]
    rw [hcons, hcons, hcons]
    omega

/-- **Whatever a load comes to, its files are closed**: the file that was opened last is read and is
closed first, and at the end a file has been closed as often as it was opened, and once more for
each time that closing it has failed.  This needs an `open` that leaves a handle just when it
succeeds: without one, the label `err` closes nothing.  NULL is closed only by a driver that has no
`open`. -/
theorem loadFromDrv_closes (hcloses : drv.closes = some closes) (hproper : drv.Proper) (fuel : Nat)
    (uri : List Char) (src : Source) (overwrite : Bool) {ret : Ret} {c : Option Config}
    (h : (loadFromDrv fuel uri drv src overwrite ()).2 = .ok ((), ret, c)) (hret : ret ≠ .crash) :
    Follows (filesNext drv.opens.isNone) ⟨[], false⟩ (loadFromDrv fuel uri drv src overwrite ()).1
      ⟨[], false⟩ ∧
      ∀ v, (loadFromDrv fuel uri drv src overwrite ()).1.countP (Call.closes v) =
        (loadFromDrv fuel uri drv src overwrite ()).1.countP (Call.opens v) +
          (loadFromDrv fuel uri drv src overwrite ()).1.countP (Call.failsToClose v) := by
  obtain ⟨fs, hfollows, hback⟩ :=
    (loadFromDrv_typed hcloses hproper fuel uri src overwrite).ok _ _ h
  rw [hback hret] at hfollows
  refine ⟨hfollows, fun v => ?_⟩
  have hcounts := follows_counts v hfollows
  simp only [List.count_nil] at hcounts
  omega

end

/-- A file `a` that includes a file `b`, which cannot be closed. -/
def stuckDriver : HandleDriver where
  opens := some fun uri =>
    if uri = ['a'] then some [includeKey ++ [' ', 'b', '\n']]
    else if uri = ['b'] then some [['k', ' ', 'v', '\n']]
    else none
  leaves uri := uri = ['a'] ∨ uri = ['b']
  closesNull := false
  closes := some fun uri => uri ≠ ['b']
  gets := true
  resolv := none

theorem stuckDriver_proper : stuckDriver.Proper := by
  intro opens hopens uri
  obtain rfl := Option.some.inj hopens
  simp only [stuckDriver]
  split <;> [skip; split] <;> simp [*]

/-- It is closed twice, and the load fails. -/
theorem loadFromDrv_closes_stuck :
    Follows (filesNext false) ⟨[], false⟩ (loadFromDrv 9 ['a'] stuckDriver [] false ()).1
      ⟨[], false⟩ ∧
      ∀ v, (loadFromDrv 9 ['a'] stuckDriver [] false ()).1.countP (Call.closes v) =
        (loadFromDrv 9 ['a'] stuckDriver [] false ()).1.countP (Call.opens v) +
          (loadFromDrv 9 ['a'] stuckDriver [] false ()).1.countP (Call.failsToClose v) :=
  have hload : (loadFromDrv 9 ['a'] stuckDriver [] false ()).2 = .ok ((), .err, none) := rfl
  loadFromDrv_closes rfl stuckDriver_proper 9 ['a'] [] false hload (by decide)

example : (loadFromDrv 9 ['a'] stuckDriver [] false ()).1.countP (Call.closes ['b']) = 2 := by
  decide

end Libu.Config
