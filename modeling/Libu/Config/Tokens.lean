/-
# What a load depends on (`toolbox/config.c`)

The loader reads lines; comments, empty lines, and the blanks around a line say nothing.  So two
sources that say the same are loaded alike, as far as the loader gets with them.

The loader is a recursion over its source with a section of the tree at hand.  Of two sources that
say the same, one may have more empty lines, other blanks and other comments, so that the two
recursions do not go line by line; each is first brought to the next line that says something.  From
there on they are bodies that make related calls, in the sense of `Libu.Verif.Recur`.

* §1: what a source says (`speaks`).
* §2: the rounds on two sources that say the same are related (`round_related`), once the empty
  lines are passed (`exists_speaking`).
* §3: the loader returns the same, and makes the same tree (`load_alike`, `loadFromBuf_congr`).
-/
import Libu.Config.Grammar

namespace Libu.Config

open Verif

/-! ## 1. What a source says -/

/-- What the lines of a source say, but for those that say nothing; `none` is a line that cannot be
read. -/
def speaks (src : Source) : List (Option Line) :=
  ((readLines [] src).map parseLine).filter (· ≠ some .empty)

/-- Rounds that differ in their sources only, which say the same. -/
def AlikeFrame (f g : Frame) : Prop := g = { f with src := g.src } ∧ speaks f.src = speaks g.src

/-- Results that differ in what is left of the source only, which says the same. -/
def AlikeLoaded (r r' : Loaded) : Prop :=
  r'.1 = r.1 ∧ r'.2.1 = r.2.1 ∧ speaks r.2.2 = speaks r'.2.2

section

variable {drv : Driver} {overwrite : Bool} {f g : Frame} {src src' : Source}
  {line line' key value : List Char} {r : Loaded} {c : Config} {p : Path}

theorem AlikeLoaded.refl (r : Loaded) : AlikeLoaded r r := ⟨rfl, rfl, rfl⟩

@[simp] theorem speaks_nil : speaks [] = [] := rfl

theorem speaks_of_none (h : csGetline [] src = none) : speaks src = [] := by
  simp [speaks, readLines_of_none h]

theorem speaks_of_empty (h : csGetline [] src = some (line, src'))
    (hparse : parseLine line = some .empty) : speaks src = speaks src' := by
  simp [speaks, readLines_of_some h, hparse]

theorem speaks_of_some (h : csGetline [] src = some (line, src'))
    (hparse : parseLine line ≠ some .empty) : speaks src = parseLine line :: speaks src' := by
  simp [speaks, readLines_of_some h, hparse]

/-! ## 2. Rounds -/

/-- The empty lines in front of a source can be passed. -/
theorem exists_speaking (drv : Driver) (overwrite : Bool) (src : Source) :
    ∃ src₁, speaks src₁ = speaks src ∧
      (∀ (f : Frame) r, Returns (round drv overwrite) { f with src := src₁ } r →
        Returns (round drv overwrite) { f with src := src } r) ∧
      ∀ line src', csGetline [] src₁ = some (line, src') → parseLine line ≠ some .empty := by
  induction hn : src.length using Nat.strong_induction_on generalizing src with
  | _ n ih =>
    cases hline : csGetline [] src with
    | none => exact ⟨src, rfl, fun f r h => h, fun line src' h => by rw [hline] at h; cases h⟩
    | some m =>
      obtain ⟨line, src'⟩ := m
      by_cases hparse : parseLine line = some .empty
      · have hlt := csGetline_lt hline
        obtain ⟨src₁, hsame, hreturns, hfirst⟩ := ih src'.length (hn ▸ hlt) src' rfl
        refine ⟨src₁, hsame.trans (speaks_of_empty hline hparse).symm, fun f r h => ?_, hfirst⟩
        refine returns_of_yields ?_
        rw [round]
        simp only [hline, hparse]
        exact ⟨r, hreturns f r h, rfl⟩
      · refine ⟨src, rfl, fun f r h => h, fun line₁ src₁ h => ?_⟩
        rw [hline] at h
        obtain ⟨rfl, rfl⟩ := Prod.mk.inj (Option.some.inj h)
        exact hparse

/-- A directive does not read the source that it is in. -/
theorem directive_related (hfg : AlikeFrame f g) (key value : List Char) :
    (directiveBody drv f key value).Related AlikeFrame AlikeLoaded Eq
      (directiveBody drv g key value) := by
  obtain ⟨rfl', -⟩ := hfg
  rw [rfl']
  unfold directiveBody
  split
  · split
    · exact rfl
    · dsimp only
      generalize doSetKey (some value) false (splitDots key) f.c f.p = m
      obtain ⟨ret, c, subkey⟩ := m
      cases ret with
      | err => exact rfl
      | crash => exact rfl
      | ok =>
        dsimp only
        cases target drv c f.p (subkey.getLast?.getD 0) with
        | error ret => exact rfl
        | ok m =>
          refine ⟨⟨rfl, rfl⟩, fun r r' hr => ?_⟩
          change (critical key (closed drv m.1 r.1), r.2.1) =
            (critical key (closed drv m.1 r'.1), r'.2.1)
          rw [hr.1, hr.2.1]
  · exact rfl

/-- Going on with sources that say the same. -/
theorem goOn_related (h : speaks src = speaks src') (files : List (List Char)) (c : Config)
    (p : Path) (lastkey : List Char) :
    (goOn ⟨files, c, p, lastkey, src⟩).Related AlikeFrame AlikeLoaded AlikeLoaded
      (goOn ⟨files, c, p, lastkey, src'⟩) :=
  ⟨⟨rfl, h⟩, fun _ _ hr => hr⟩

/-- **Rounds whose next lines say the same.** -/
theorem round_related (hfg : AlikeFrame f g) (hf : csGetline [] f.src = some (line, src))
    (hg : csGetline [] g.src = some (line', src')) (hparse : parseLine line = parseLine line')
    (hrest : speaks src = speaks src') :
    (round drv overwrite f).Related AlikeFrame AlikeLoaded AlikeLoaded (round drv overwrite g) := by
  have hsame := hfg.1
  have hfiles : g.files = f.files := by rw [hsame]
  have hc : g.c = f.c := by rw [hsame]
  have hp : g.p = f.p := by rw [hsame]
  have hlastkey : g.lastkey = f.lastkey := by rw [hsame]
  unfold round
  rw [hf, hg, hc, hp, hlastkey]
  dsimp only
  rw [hparse]
  cases parseLine line' with
  | none => exact ⟨rfl, rfl, hrest⟩
  | some l =>
    cases l with
    | empty =>
      rw [hfiles]
      exact goOn_related hrest _ _ _ _
    | closing alone =>
      exact ⟨rfl, rfl, hrest⟩
    | opening alone =>
      dsimp only
      split
      · exact ⟨rfl, rfl, hrest⟩
      · unfold sectionBody
        rw [hfiles, hc, hp, hlastkey]
        refine ⟨⟨rfl, hrest⟩, fun r r' hr => ?_⟩
        obtain ⟨ret, c, s⟩ := r
        obtain ⟨ret', c', s'⟩ := r'
        obtain ⟨rfl, rfl, hs⟩ := hr
        cases ret' with
        | ok => exact goOn_related hs _ _ _ _
        | err => exact ⟨rfl, rfl, hs⟩
        | crash => exact ⟨rfl, rfl, hs⟩
    | assign key value =>
      unfold assignBody
      refine (directive_related hfg key value).bind ?_
      rintro ⟨ret, c⟩ _ rfl
      cases ret with
      | err => exact ⟨rfl, rfl, hrest⟩
      | crash => exact ⟨rfl, rfl, hrest⟩
      | ok =>
        dsimp only
        rw [hfiles, hp, hlastkey]
        split
        · exact goOn_related hrest _ _ _ _
        · generalize doSetKey (some value) overwrite (splitDots key) c f.p = m
          obtain ⟨ret, c, subkey⟩ := m
          cases ret with
          | ok => exact goOn_related hrest _ _ _ _
          | err => exact ⟨rfl, rfl, hrest⟩
          | crash => exact ⟨rfl, rfl, hrest⟩

/-! ## 3. Loading -/

/-- **A load depends on what the source says, and on nothing else.** -/
theorem load_alike (h : Returns (round drv overwrite) f r) (hfg : AlikeFrame f g) :
    ∃ r', Returns (round drv overwrite) g r' ∧ AlikeLoaded r r' := by
  suffices hall : ∀ g, AlikeFrame f g →
      ∃ r', Returns (round drv overwrite) g r' ∧ AlikeLoaded r r' from hall g hfg
  refine Returns.rule (P := fun f r => ∀ g, AlikeFrame f g →
    ∃ r', Returns (round drv overwrite) g r' ∧ AlikeLoaded r r') (fun f r hbody g hfg => ?_) h
  obtain ⟨src₁, hspeaks, hreturns, hfirst⟩ :=
    exists_speaking drv overwrite g.src
  have hc : g.c = f.c := by rw [hfg.1]
  cases hline : csGetline [] f.src with
  | none =>
    simp only [round, hline, Body.yields_ret] at hbody
    -- the other source is at its end behind its empty lines
    have hnone : csGetline [] src₁ = none := by
      rw [Option.eq_none_iff_forall_ne_some]
      rintro ⟨line', src'⟩ hline'
      have hcons := speaks_of_some hline' (hfirst line' src' hline')
      rw [hspeaks, ← hfg.2, speaks_of_none hline] at hcons
      cases hcons
    refine ⟨(.ok, g.c, []), hreturns g _ (returns_of_yields ?_), ?_⟩
    · simp only [round, hnone, Body.yields_ret]
    · rw [hbody, hc]
      exact .refl _
  | some m =>
    obtain ⟨line, src⟩ := m
    by_cases hparse : parseLine line = some .empty
    · simp only [round, hline, hparse, goOn, Body.yields_call, Body.yields_ret] at hbody
      obtain ⟨r', ⟨-, -, hrest⟩, rfl⟩ := hbody
      refine hrest g ⟨?_, ?_⟩
      · rw [hfg.1]
      · rw [← speaks_of_empty hline hparse]
        exact hfg.2
    · have hcons := speaks_of_some hline hparse
      rw [hfg.2, ← hspeaks] at hcons
      obtain ⟨⟨line', src'⟩, hline'⟩ : ∃ m, csGetline [] src₁ = some m := by
        refine Option.ne_none_iff_exists'.mp fun hnone => ?_
        rw [speaks_of_none hnone] at hcons
        cases hcons
      rw [speaks_of_some hline' (hfirst line' src' hline')] at hcons
      obtain ⟨hsay, hrest⟩ := List.cons.inj hcons
      have hrelated : (round drv overwrite f).Related AlikeFrame AlikeLoaded AlikeLoaded
          (round drv overwrite { g with src := src₁ }) :=
        round_related ⟨by rw [hfg.1], by rw [hfg.2, hspeaks]⟩ hline hline' hsay.symm hrest.symm
      obtain ⟨r', hr', halike⟩ : ∃ r', (round drv overwrite { g with src := src₁ }).Yields
          (Returns (round drv overwrite)) r' ∧ AlikeLoaded r r' :=
        hrelated.yields (fun i j r hij hr => hr.2.2 j hij) hbody
      exact ⟨r', hreturns g r' (returns_of_yields hr'), halike⟩

/-- What a text says: its complete lines. -/
def meaning (text : List Char) : List (Option Line) :=
  ((textLines text).dropLast.map parseLine).filter (· ≠ some .empty)

theorem speaks_bufSource {text : List Char} (h : Fits text) :
    speaks (bufSource text.length text) = meaning text := by
  rw [speaks, readLines_bufSource h (Nat.le_refl _), meaning]

/-- **Texts that say the same are loaded alike**: to the same tree, or to none. -/
theorem loadFromBuf_congr {text text' : List Char} (h : Fits text) (h' : Fits text')
    (hsame : meaning text = meaning text') : loadFromBuf text = loadFromBuf text' := by
  have hopens : bufDriver.opens = none := rfl
  obtain ⟨r, hr⟩ := load_total hopens false
    (Nat.lt_succ_of_le (length_bufSource_le text.length text)) create [] []
  have hreturns : Returns (round bufDriver false) (start create (bufSource text.length text)) r :=
    ⟨_, (load_eq bufDriver false _ (start create _)).symm.trans hr⟩
  have hstart : AlikeFrame (start create (bufSource text.length text))
      (start create (bufSource text'.length text')) :=
    ⟨rfl, (speaks_bufSource h).trans (hsame.trans (speaks_bufSource h').symm)⟩
  obtain ⟨⟨ret', c', src'⟩, hreturns', hret, hc, -⟩ := load_alike hreturns hstart
  rw [loadFromBuf_eq hreturns, loadFromBuf_eq hreturns', show ret' = r.1 from hret,
    show c' = r.2.1 from hc]

end

theorem loadFromBuf_congr_comment :
    loadFromBuf ['#', ' ', 'c', '\n', '\t', 'a', ' ', ' ', '1', '\n'] =
      loadFromBuf ['a', ' ', '1', '\n'] :=
  loadFromBuf_congr ⟨by decide, by decide⟩ ⟨by decide, by decide⟩ (by decide)

end Libu.Config
