/-
# Printing (`toolbox/config.c`)

`u_config_print_to_fp` prints a tree for a reader, with tabs that show its depth, and leaves the
`include` directives out.  The documentation has it that what is printed may be read back.

The text that is printed differs from the one that is saved in three things: the tabs, the blank
between key and value, and the `include` lines.  None of them tells the loader anything that the
tree does not have already, which is a statement about what lines say and needs no second look at
the loader (`Libu.Config.Tokens`).

* §1 is the code.
* §2: what a line says does not depend on the tabs in front of it, nor on the blank behind its key
  (`say_scan_indent`, `say_scan_sep`).  So what is printed says what is saved (`meaning_print`), and
  is loaded like it (`print_save_alike`).
-/
import Libu.Config.Tokens
import Libu.Config.Say

namespace Libu.Config

open Verif

/-! ## 1. The code -/

/-- `U_CONFIG_INDENT` -/
def indent (l : Nat) : List Char := List.replicate (l - 1) '\t'

/-- The line of a node in `u_config_print_to_fp`. -/
def Item.print (item : Item) : List Char :=
  if item.key = includeKey then []
  else
    item.key ++ (match item.value with
      | none => []
      | some v => '\t' :: v) ++ ['\n']

/-- `u_config_print_to_fp` on the children of a node, one after the other. -/
def printChildren : Nat → Forest Item → List Char
  | _, .nil => []
  | lev, .node item children items =>
    let block :=
      if children = .nil then []
      else
        indent lev ++ ['{', '\n'] ++ printChildren (lev + 1) children ++
          indent lev ++ ['}', '\n']
    indent lev ++ item.print ++ block ++ printChildren lev items

/-- `u_config_print_to_fp` on the root. -/
def printToFp (c : Config) (lev : Nat) : List Char :=
  indent lev ++ printChildren (lev + 1) c.children

/-! ## 2. Texts -/

/-- A node whose line can be read back: no blank in its key, and no line end. -/
structure OneLine (item : Item) : Prop where
  word : ∀ x ∈ item.key, isblank x = false
  key : '\n' ∉ item.key
  value : ∀ v ∈ item.value, '\n' ∉ v

/-- The lines are not too long for `u_config_remove_comment`. -/
def Short (text : List Char) : Prop := ∀ line ∈ textLines text, line.length < 2048

/-- The first text says what the second one does, also behind tabs. -/
def Echoes (t t' : List Char) : Prop :=
  ∀ n, Short (List.replicate n '\t' ++ t) → Short t' →
    meaning (List.replicate n '\t' ++ t) = meaning t'

section

variable {l l' t t' : List Char} {item : Item} {f : Forest Item} {lev : Nat}

theorem Fits.short (h : Fits t) : Short t := fun line hline => by
  have hlen := h.2 line hline
  simp only [bufsz] at hlen
  omega

theorem short_line (hl : '\n' ∉ l) : Short (l ++ '\n' :: t) ↔ l.length < 2048 ∧ Short t := by
  simp [Short, textLines_line hl]

theorem meaning_line (hl : '\n' ∉ l) :
    meaning (l ++ '\n' :: t) = [parseLine l].filter (· ≠ some .empty) ++ meaning t := by
  simp only [meaning, textLines_line hl, List.dropLast_cons_of_ne_nil (textLines_ne_nil t),
    List.map_cons, ← List.filter_append, List.singleton_append]

theorem notMem_tabs (n : Nat) (hl : '\n' ∉ l) : '\n' ∉ List.replicate n '\t' ++ l := by
  simp [hl]

/-- A line. -/
theorem Echoes.line (hl : '\n' ∉ l) (hl' : '\n' ∉ l')
    (hsay : say (scanComment [] '\x00' l) = say (scanComment [] '\x00' l')) (h : Echoes t t') :
    Echoes (l ++ '\n' :: t) (l' ++ '\n' :: t') := by
  intro n hshort hshort'
  rw [← List.append_assoc] at hshort ⊢
  obtain ⟨hlen, hrest⟩ := (short_line (notMem_tabs n hl)).mp hshort
  obtain ⟨hlen', hrest'⟩ := (short_line hl').mp hshort'
  rw [meaning_line (notMem_tabs n hl), meaning_line hl', parseLine_eq hlen, parseLine_eq hlen',
    say_scan_indent, hsay]
  exact congrArg _ (h 0 hrest hrest')

/-- Tabs. -/
theorem Echoes.indent (h : Echoes t t') (lev : Nat) : Echoes (indent lev ++ t) t' := by
  intro n hshort hshort'
  rw [Config.indent, ← List.append_assoc, List.replicate_append_replicate] at hshort ⊢
  exact h _ hshort hshort'

theorem Echoes.node (hitem : OneLine item) (h : Echoes t t') :
    Echoes (item.print ++ t) (item.toStr ++ t') := by
  unfold Item.print Item.toStr
  split
  · exact h
  · have hvalue : '\n' ∉ item.value.getD [] := by
      cases hv : item.value with
      | none => simp
      | some v => exact hitem.value v hv
    have hl' : '\n' ∉ item.key ++ ' ' :: item.value.getD [] := by
      simp [hitem.key, hvalue]
    have hl : '\n' ∉ item.key ++ (match item.value with
        | none => []
        | some v => '\t' :: v) := by
      cases hv : item.value with
      | none => simp [hitem.key]
      | some v => simp [hitem.key, hitem.value v hv]
    have hline := Echoes.line hl hl' (say_scan_sep hitem.word item.value) h
    simpa using hline

/-- **What is printed says what is saved**, node by node. -/
theorem Echoes.children (hf : ∀ item ∈ f.toList, OneLine item) (h : Echoes t t') :
    Echoes (printChildren lev f ++ t) (childrenToStr f ++ t') := by
  induction f generalizing lev t t' with
  | nil => exact h
  | node item children items ihc ihs =>
    have hitems : Echoes (printChildren lev items ++ t) (childrenToStr items ++ t') :=
      ihs (fun x hx => hf x (by simp [hx])) h
    have hitem : OneLine item := hf item (by simp)
    by_cases hleaf : children = .nil
    · have hnode := (hitems.node hitem).indent lev
      simpa [printChildren, childrenToStr, hleaf] using hnode
    · have hnoend : ∀ c : Char, c ≠ '\n' → '\n' ∉ [c] := fun c hc => by simp [hc.symm]
      have hclose := (hitems.line (hnoend '}' (by decide)) (hnoend '}' (by decide)) rfl).indent lev
      have hinside : Echoes (printChildren (lev + 1) children ++ _) (childrenToStr children ++ _) :=
        ihc (fun x hx => hf x (by simp [hx])) hclose
      have hopen := (hinside.line (hnoend '{' (by decide)) (hnoend '{' (by decide)) rfl).indent lev
      have hnode := (hopen.node hitem).indent lev
      simpa [printChildren, childrenToStr, hleaf] using hnode

theorem meaning_nil : meaning [] = [] := rfl

theorem meaning_tabs (n : Nat) : meaning (List.replicate n '\t') = [] := by
  have hlast : (List.replicate n '\t').getLast? ≠ some '\r' := by
    intro h
    have hmem := List.eq_of_mem_replicate (List.mem_of_getLast? h)
    exact absurd hmem (by decide)
  simp [meaning, textLines_end (l := List.replicate n '\t') (by simp), hlast]

theorem meaning_print {c : Config} (hc : ∀ item ∈ c.children.toList, OneLine item)
    (hprint : Short (printToFp c lev)) (hsave : Short (toStr c)) :
    meaning (printToFp c lev) = meaning (toStr c) := by
  have hnil : Echoes [] [] := fun n _ _ => by rw [List.append_nil, meaning_tabs, meaning_nil]
  have hchildren : Echoes (printChildren (lev + 1) c.children ++ [])
      (childrenToStr c.children ++ []) := Echoes.children hc hnil
  have hall := hchildren.indent lev
  simp only [List.append_nil] at hall
  have hzero := hall 0
  simp only [List.replicate_zero, List.nil_append] at hzero
  exact hzero hprint hsave

/-- **What is printed is loaded like what is saved**: to the same tree, or to none.  So what is
printed may be read back whenever what is saved may be. -/
theorem print_save_alike {c : Config} (hc : ∀ item ∈ c.children.toList, OneLine item)
    (hprint : Fits (printToFp c lev)) (hsave : Fits (toStr c)) :
    loadFromBuf (printToFp c lev) = loadFromBuf (toStr c) :=
  loadFromBuf_congr hprint hsave (meaning_print hc hprint.short hsave.short)

end

/-- A section, with an `include` in it. -/
def sectioned : Config :=
  ⟨none, .node ⟨['a'], none⟩ (.node ⟨includeKey, some ['f']⟩ .nil (.node ⟨['b'], some ['1']⟩ .nil
    .nil)) .nil⟩

theorem print_save_sectioned :
    loadFromBuf (printToFp sectioned 0) = loadFromBuf (toStr sectioned) := by
  refine print_save_alike (fun item hitem => ?_) ⟨by decide, by decide⟩ ⟨by decide, by decide⟩
  obtain rfl | rfl | rfl : item = ⟨['a'], none⟩ ∨ item = ⟨includeKey, some ['f']⟩ ∨
      item = ⟨['b'], some ['1']⟩ := by simpa [sectioned] using hitem
  all_goals exact ⟨by simp [includeKey, isblank], by simp [includeKey], by simp⟩

example : printToFp sectioned 0 =
    ['a', '\n', '{', '\n', '\t', '\t', 'b', '\t', '1', '\n', '}', '\n'] := rfl

end Libu.Config
