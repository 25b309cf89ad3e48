/-
# Putting a URI together again

* §1: what `knead` writes, from the strings in the buffers.
* §2: for a URI that was taken apart, this is at most as long as the URI, and as long only if the
  buffers have all the components.  From it: the text is the URI again, exactly when the URI has an
  authority with a host that was read right, and the components leave room in the buffers
  (`knead_crumble_iff`).

`u_uri_knead` appends piece by piece to a buffer and fails where one does not fit, so a text that is
written at all is the concatenation of its pieces.  That makes the comparison one of lengths: each
piece is at most as long as the component that it came from, and equal to it if it is as long; and
the lengths of all pieces can only add up to that of the URI if none of them is shorter.
-/
import Libu.Uri.Complete

namespace Libu.Uri

open Verif Lexer

variable {u : Uri} {c : Components} {s t v w x : List Char} {p : Char → Bool} {opt : Bool}

/-! ## 1. The text of an object -/

/-- A string between its delimiters; nothing when it is empty. -/
def wrap (before atom after : List Char) : List Char :=
  if atom = [] then [] else before ++ (atom ++ after)

/-- An empty string has no delimiters. -/
theorem wrap_nil (before after : List Char) : wrap before [] after = [] := if_pos rfl

/-- What `u_strlcat` writes without cutting it. -/
theorem strlcat_some {src : List Char} (h : strlcat s src = some t) : t = s ++ src := by
  rw [strlcat] at h
  split at h
  · exact (Option.some.inj h).symm
  · cases h

/-- It is not cut where there is room for the NUL. -/
theorem strlcat_eq {src : List Char} (h : (s ++ src).length < uriStrMax) :
    strlcat s src = some (s ++ src) := by
  rw [strlcat, if_pos (by rwa [← List.length_append])]

/-- A component with its delimiters, or nothing. -/
theorem catAtom_some {before atom after : List Char} (h : catAtom s before atom after = some t) :
    t = s ++ wrap before atom after := by
  rw [catAtom] at h
  split at h
  · next hnil =>
    obtain rfl := Option.some.inj h
    rw [hnil, wrap_nil, List.append_nil]
  · next hne =>
    obtain ⟨s₁, h₁, h⟩ := Option.bind_eq_some_iff.mp h
    obtain ⟨s₂, h₂, h₃⟩ := Option.bind_eq_some_iff.mp h
    rw [strlcat_some h₃, strlcat_some h₂, strlcat_some h₁, wrap, if_neg hne]
    simp

/-- It is written where the whole of it has room. -/
theorem catAtom_eq {before atom after : List Char}
    (h : (s ++ wrap before atom after).length < uriStrMax) :
    catAtom s before atom after = some (s ++ wrap before atom after) := by
  by_cases hnil : atom = []
  · rw [catAtom, if_pos hnil, hnil, wrap_nil, List.append_nil]
  · rw [wrap, if_neg hnil] at h ⊢
    simp only [List.length_append] at h
    rw [catAtom, if_neg hnil, strlcat_eq (by rw [List.length_append]; omega), Option.bind_eq_bind,
      Option.bind_some, strlcat_eq (by simp only [List.length_append]; omega),
      Option.bind_some, strlcat_eq (by simp only [List.length_append]; omega)]
    simp

/-- The strings in the buffers, and whether the host is taken for an IP-literal. -/
structure Atoms where
  scheme : List Char
  userinfo : List Char
  literal : Bool
  host : List Char
  port : List Char
  path : List Char
  query : List Char
  fragment : List Char

/-- A host, in the brackets of a literal where the flag says so. -/
def Atoms.hostText (a : Atoms) : List Char := if a.literal then '[' :: (a.host ++ [']']) else a.host

/-- This is what the source writes, piece by piece. -/
theorem wrap_host {a : Atoms} (h : a.host ≠ []) :
    wrap (if a.literal then ['['] else []) a.host (if a.literal then [']']
      else []) = a.hostText := by
  rw [wrap, if_neg h, Atoms.hostText]
  split
  · rfl
  · exact List.append_nil _

/-- The text of an object, from its scheme to its fragment. -/
def Atoms.text (a : Atoms) : List Char :=
  wrap [] a.scheme [':'] ++ ('/' :: '/' :: (wrap [] a.userinfo ['@'] ++ (a.hostText ++
    (wrap [':'] a.port [] ++ (a.path ++ (wrap ['?'] a.query [] ++ wrap ['#'] a.fragment []))))))

/-- The object has these strings, and neither an authority nor a user on its own. -/
structure HasAtoms (u : Uri) (a : Atoms) : Prop where
  scheme : u.scheme = some a.scheme
  authority : u.authority = some []
  userinfo : u.userinfo = some a.userinfo
  user : a.userinfo = [] → u.user = some []
  literal : a.literal = (u.flags.hostIsIpliteral || ':' ∈ a.host)
  host : u.host = some a.host
  port : u.port = some a.port
  path : u.path = some a.path
  query : u.query = some a.query
  fragment : u.fragment = some a.fragment

/-- The userinfo, whichever of the two ways the object has it. -/
theorem kneadUserinfo_eq {a : Atoms} (ha : HasAtoms u a) :
    kneadUserinfo u s = catAtom s [] a.userinfo ['@'] := by
  rw [kneadUserinfo, ha.userinfo]
  change (if a.userinfo = [] then kneadUser u s else _) = _
  split
  · next hnil =>
    rw [kneadUser, ha.user hnil, catAtom, if_pos hnil]
    rfl
  · rfl

/-- Where there is a host, `u_uri_knead` is its appends in a row. -/
theorem knead_eq_bind {a : Atoms} (ha : HasAtoms u a) (hhost : a.host ≠ []) : knead u = (do
    let s ← catAtom [] [] a.scheme [':']
    let s ← strlcat s ['/', '/']
    let s ← catAtom s [] a.userinfo ['@']
    let s ← catAtom s (if a.literal then ['['] else []) a.host (if a.literal then [']'] else [])
    let s ← catAtom s [':'] a.port []
    let s ← strlcat s a.path
    let s ← catAtom s ['?'] a.query []
    catAtom s ['#'] a.fragment []) := by
  have hauth : ∀ s, catAuthority u s = (do
      let s ← strlcat s ['/', '/']
      let s ← catAtom s [] a.userinfo ['@']
      let s ← catAtom s (if a.literal then ['['] else []) a.host (if a.literal then [']'] else [])
      catAtom s [':'] a.port []) := by
    intro s
    rw [catAuthority, ha.authority]
    change kneadAuthority u s = _
    rw [kneadAuthority, ha.host]
    change (if a.host = [] then none else _) = _
    rw [if_neg hhost, ← ha.literal, ha.port]
    simp only [kneadUserinfo_eq ha]
    rfl
  simp only [knead, ha.scheme, hauth, ha.path, ha.query, ha.fragment]
  simp only [Option.bind_eq_bind, Option.bind_some, Option.bind_assoc]

/-- What is written, is the text of the object. -/
theorem knead_text {a : Atoms} (ha : HasAtoms u a) (hhost : a.host ≠ []) (h : knead u = some t) :
    t = a.text := by
  rw [knead_eq_bind ha hhost] at h
  obtain ⟨s₁, h₁, h⟩ := Option.bind_eq_some_iff.mp h
  obtain ⟨s₂, h₂, h⟩ := Option.bind_eq_some_iff.mp h
  obtain ⟨s₃, h₃, h⟩ := Option.bind_eq_some_iff.mp h
  obtain ⟨s₄, h₄, h⟩ := Option.bind_eq_some_iff.mp h
  obtain ⟨s₅, h₅, h⟩ := Option.bind_eq_some_iff.mp h
  obtain ⟨s₆, h₆, h⟩ := Option.bind_eq_some_iff.mp h
  obtain ⟨s₇, h₇, h₈⟩ := Option.bind_eq_some_iff.mp h
  rw [catAtom_some h₈, catAtom_some h₇, strlcat_some h₆, catAtom_some h₅, catAtom_some h₄,
    catAtom_some h₃, strlcat_some h₂, catAtom_some h₁, wrap_host hhost]
  simp [Atoms.text]

/-- The text of the object is written, if it fits. -/
theorem knead_eq {a : Atoms} (ha : HasAtoms u a) (hhost : a.host ≠ [])
    (hlen : a.text.length < uriStrMax) : knead u = some a.text := by
  simp only [Atoms.text, List.length_append, List.length_cons, ← wrap_host hhost] at hlen
  rw [knead_eq_bind ha hhost, catAtom_eq, Option.bind_eq_bind, Option.bind_some, strlcat_eq,
    Option.bind_some, catAtom_eq, Option.bind_some, catAtom_eq, Option.bind_some, catAtom_eq,
    Option.bind_some, strlcat_eq, Option.bind_some, catAtom_eq, Option.bind_some, catAtom_eq]
  · simp [Atoms.text, wrap_host hhost]
  all_goals
    simp only [List.length_append, List.length_cons, List.length_nil]
    omega

/-- From an object that is put together, the strings in its buffers. -/
theorem atoms_of_knead (hauth : u.authority = some [])
    (huser : u.userinfo = some [] → u.user = some []) (h : knead u = some t) :
    ∃ a, HasAtoms u a ∧ a.host ≠ [] := by
  obtain ⟨scheme, hscheme, h⟩ := Option.bind_eq_some_iff.mp h
  obtain ⟨s₁, -, h⟩ := Option.bind_eq_some_iff.mp h
  obtain ⟨s₂, hcat, h⟩ := Option.bind_eq_some_iff.mp h
  obtain ⟨path, hpath, h⟩ := Option.bind_eq_some_iff.mp h
  obtain ⟨s₃, -, h⟩ := Option.bind_eq_some_iff.mp h
  obtain ⟨query, hquery, h⟩ := Option.bind_eq_some_iff.mp h
  obtain ⟨s₄, -, h⟩ := Option.bind_eq_some_iff.mp h
  obtain ⟨fragment, hfragment, -⟩ := Option.bind_eq_some_iff.mp h
  rw [catAuthority, hauth] at hcat
  replace hcat : kneadAuthority u s₁ = some s₂ := hcat
  obtain ⟨host, hhost, hcat⟩ := Option.bind_eq_some_iff.mp hcat
  split at hcat
  · cases hcat
  · next hne =>
    obtain ⟨s₅, -, hcat⟩ := Option.bind_eq_some_iff.mp hcat
    obtain ⟨s₆, hinfo, hcat⟩ := Option.bind_eq_some_iff.mp hcat
    obtain ⟨userinfo, huserinfo, -⟩ := Option.bind_eq_some_iff.mp hinfo
    obtain ⟨s₇, -, hcat⟩ := Option.bind_eq_some_iff.mp hcat
    obtain ⟨port, hport, -⟩ := Option.bind_eq_some_iff.mp hcat
    refine ⟨⟨scheme, userinfo, u.flags.hostIsIpliteral || ':' ∈ host, host, port, path, query,
      fragment⟩, ⟨hscheme, hauth, huserinfo, ?_, rfl, hhost, hport, hpath, hquery, hfragment⟩, hne⟩
    rintro rfl
    exact huser huserinfo

/-! ## 2. Taken apart and put together -/

/-- No optional component is empty. -/
structure Full (c : Components) : Prop where
  authority : ∀ a ∈ c.authority, a.text ≠ []
  userinfo : c.userinfo ≠ some []
  port : c.port ≠ some []
  query : c.query ≠ some []
  fragment : c.fragment ≠ some []

/-- A component of the grammar with its delimiter, where it is not there or not empty. -/
theorem behind_eq_wrap {m : Option (List Char)} (h : m ≠ some []) (d : Char) :
    behind d m = wrap [d] (m.getD []) [] := by
  cases m with
  | none => rfl
  | some v =>
    have hv : v ≠ [] := by
      rintro rfl
      exact h rfl
    rw [wrap, Option.getD_some, if_neg hv, List.append_nil]
    rfl

theorem wrap_bare (v : List Char) : wrap [] v [] = v := by
  rw [wrap]
  split
  · next h => exact h.symm
  · exact List.append_nil v

theorem Scheme.ne_nil (hv : Scheme v) : v ≠ [] := by
  obtain ⟨a, w, rfl, -⟩ := hv
  exact List.cons_ne_nil a w

/-- A URI with an authority, as it is put together. -/
theorem text_eq_wraps {a : Authority} (hscheme : c.scheme ≠ []) (hfull : Full c)
    (ha : c.authority = some a) :
    c.text = wrap [] c.scheme [':'] ++ ('/' :: '/' :: (wrap [] (c.userinfo.getD []) ['@'] ++
      (c.host ++ (wrap [':'] (c.port.getD []) [] ++ (wrap [] c.path [] ++
        (wrap ['?'] (c.query.getD []) [] ++ wrap ['#'] (c.fragment.getD []) [])))))) := by
  have huser : wrap [] (c.userinfo.getD []) ['@'] = a.userText := by
    have hne := hfull.userinfo
    rw [Components.userinfo, ha, Option.bind_some] at hne ⊢
    rw [Authority.userText]
    cases hinfo : a.userinfo with
    | none => rfl
    | some w =>
      have hw : w ≠ [] := by
        rintro rfl
        exact hne hinfo
      rw [wrap, Option.getD_some, if_neg hw]
      rfl
  have hhost : c.host = a.host := by rw [Components.host, ha]; rfl
  have hport : c.port = a.port := by rw [Components.port, ha]; rfl
  rw [huser, hhost, ← behind_eq_wrap hfull.port, hport, ← behind_eq_wrap hfull.query,
    ← behind_eq_wrap hfull.fragment, wrap_bare, wrap, if_neg hscheme, Components.text,
    Components.hierText, ha, Option.elim_some, Authority.text, Components.rest,
    Components.suffixText]
  simp

/-- A string in a buffer is written in at most the room of the component, and in as much only if
the buffer has the component. -/
theorem Holds.piece (h : Holds (some w) v) (before after : List Char)
    (hlen : before.length + after.length ≤ 2) :
    (wrap before w after).length ≤ (wrap before v after).length ∧
      ((wrap before w after).length = (wrap before v after).length → v.length + 1 < tokenSz) := by
  rw [Holds] at h
  split at h
  · next hlt =>
    obtain rfl := Option.some.inj h
    exact ⟨Nat.le_refl _, fun _ => hlt⟩
  · next hlt =>
    have hw : w.length ≤ 1 := h w rfl
    have hv : 127 ≤ v.length := Nat.le_of_succ_le_succ (Nat.not_lt.mp hlt)
    have hvne : v ≠ [] := by
      rintro rfl
      exact absurd hv (by decide)
    have hshort : (wrap before w after).length ≤ 3 := by
      rw [wrap]
      split
      · exact Nat.zero_le 3
      · simp only [List.length_append]
        omega
    have hlong : 127 ≤ (wrap before v after).length := by
      rw [wrap, if_neg hvne]
      simp only [List.length_append]
      omega
    omega

/-- The same for the host. -/
theorem Crumbled.hostPiece {a : Atoms} (h : Crumbled c u) (hv : Host c.host)
    (hfits : c.host.length < tokenSz) (ha : HasAtoms u a) :
    a.hostText.length ≤ c.host.length ∧
      (a.hostText.length = c.host.length → c.host.head? ≠ some '[' →
        c.host.length + 1 < tokenSz) := by
  rcases hv.cases with ⟨b, -, hb⟩ | hname
  · obtain ⟨hhost, hflag⟩ := h.literal b hb hfits
    obtain rfl := Option.some.inj (ha.host.symm.trans hhost)
    rw [Atoms.hostText, ha.literal, hflag, Bool.true_or, if_pos rfl, hb]
    exact ⟨Nat.le_refl _, fun _ hhead => absurd rfl hhead⟩
  · obtain ⟨hholds, hflag⟩ := h.name hname
    rw [ha.host, Holds] at hholds
    split at hholds
    · next hlt =>
      have hcolon : ':' ∉ a.host := by
        rw [Option.some.inj hholds]
        exact hname.not_mem hexy_name (by decide) (by decide)
      rw [Atoms.hostText, ha.literal, hflag, decide_eq_false hcolon, Bool.false_or,
        if_neg (by decide), Option.some.inj hholds]
      exact ⟨Nat.le_refl _, fun _ _ => hlt⟩
    · next hlt =>
      have hw : a.host.length ≤ 1 := hholds a.host rfl
      have hlong : 127 ≤ c.host.length := Nat.le_of_succ_le_succ (Nat.not_lt.mp hlt)
      have hshort : a.hostText.length ≤ 3 := by
        rw [Atoms.hostText]
        split
        · simp only [List.length_cons, List.length_append, List.length_nil]
          omega
        · omega
      omega

/-- A URI that was taken apart and is put together again has a host. -/
theorem Crumbled.atoms (h : Crumbled c u) (hfull : Full c) (hk : knead u = some t) :
    ∃ a, HasAtoms u a ∧ a.host ≠ [] := by
  refine atoms_of_knead h.authority (fun hnil => h.user ?_) hk
  rw [h.userinfo, held] at hnil
  split at hnil
  · have hget := Option.some.inj hnil
    cases hinfo : c.userinfo with
    | none => rfl
    | some v =>
      rw [hinfo] at hget
      exact absurd (hinfo.trans (congrArg some hget)) hfull.userinfo
  · cases hnil

/-- What is put together is not longer than the URI, and as long only if the components leave
room. -/
theorem Crumbled.knead_le {b : Authority} (h : Crumbled c u) (hscheme : c.scheme ≠ [])
    (hv : Host c.host) (hfull : Full c) (hfits : c.host.length < tokenSz)
    (hb : c.authority = some b) (hk : knead u = some t) :
    t.length ≤ c.text.length ∧ (t.length = c.text.length → Room c) := by
  obtain ⟨a, ha, hhost⟩ := h.atoms hfull hk
  obtain rfl := knead_text ha hhost hk
  obtain ⟨hhostle, hhosteq⟩ := h.hostPiece hv hfits ha
  obtain ⟨h₁, h₁'⟩ := (ha.scheme ▸ h.scheme).piece [] [':'] (by decide)
  obtain ⟨h₂, h₂'⟩ := (ha.userinfo ▸ h.holdsUserinfo).piece [] ['@'] (by decide)
  obtain ⟨h₃, h₃'⟩ := (ha.port ▸ h.port).piece [':'] [] (by decide)
  obtain ⟨h₄, h₄'⟩ := (ha.path ▸ h.path).piece [] [] (by decide)
  obtain ⟨h₅, h₅'⟩ := (ha.query ▸ h.query).piece ['?'] [] (by decide)
  obtain ⟨h₆, h₆'⟩ := (ha.fragment ▸ h.fragment).piece ['#'] [] (by decide)
  rw [text_eq_wraps hscheme hfull hb, Atoms.text, ← wrap_bare a.path]
  simp only [List.length_append, List.length_cons]
  refine ⟨by omega, fun heq => ⟨h₁' (by omega), h₂' (by omega), hhosteq (by omega), h₃' (by omega),
    h₄' (by omega), h₅' (by omega), h₆' (by omega)⟩⟩

theorem Groups.ne_nil {n : Nat} (h : Groups (n + 1) v) : v ≠ [] := by
  cases h with
  | succ _ _ => simp

/-- An address is not empty. -/
theorem Address.ne_nil (h : Address v) : v ≠ [] := by
  rcases h with (⟨g, l, hg, -, rfl⟩ | ⟨g, l, -, -, rfl⟩ | ⟨n, a, g, l, -, -, -, -, rfl⟩ |
    ⟨a, b, -, -, rfl⟩ | ⟨a, -, rfl⟩) | ⟨d, x, y, -, -, -, -, -, rfl⟩
  · exact List.append_ne_nil_of_left_ne_nil hg.ne_nil l
  all_goals simp

/-- With room in the buffers, the URI is put together again. -/
theorem Crumbled.knead_eq {b : Authority} (h : Crumbled c u) (hv : c.Valid p) (hfull : Full c)
    (hfits : Fits c) (hroom : Room c) (hb : c.authority = some b) (hhost : b.host ≠ []) :
    knead u = some c.text := by
  have hscheme := hv.scheme.ne_nil
  have hbare : c.host = b.host := by rw [Components.host, hb]; rfl
  obtain ⟨host, literal, hbuf, hlit, hne, htext⟩ : ∃ host literal, u.host = some host ∧
      literal = (u.flags.hostIsIpliteral || ':' ∈ host) ∧ host ≠ [] ∧
      (if literal then '[' :: (host ++ [']']) else host) = c.host := by
    rcases hv.host.cases with ⟨w, hw, heq⟩ | hname
    · obtain ⟨hbuf, hflag⟩ := h.literal w heq hfits.host
      exact ⟨w, true, hbuf, by rw [hflag, Bool.true_or], hw.ne_nil, heq.symm⟩
    · obtain ⟨hholds, hflag⟩ := h.name hname
      have hcolon : ':' ∉ c.host := hname.not_mem hexy_name (by decide) (by decide)
      refine ⟨c.host, false, hholds.eq (hroom.host (head_of_name hname)), ?_, hbare ▸ hhost, rfl⟩
      rw [hflag, decide_eq_false hcolon]
      rfl
  have ha : HasAtoms u ⟨c.scheme, c.userinfo.getD [], literal, host, c.port.getD [], c.path,
      c.query.getD [], c.fragment.getD []⟩ := by
    refine ⟨h.scheme.eq hroom.scheme, h.authority, h.holdsUserinfo.eq hroom.userinfo, ?_, hlit,
      hbuf, h.port.eq hroom.port, h.path.eq hroom.path, h.query.eq hroom.query,
      h.fragment.eq hroom.fragment⟩
    intro hnil
    refine h.user ?_
    cases hinfo : c.userinfo with
    | none => rfl
    | some v =>
      rw [hinfo] at hnil
      exact absurd (hinfo.trans (congrArg some hnil)) hfull.userinfo
  have heq : Atoms.text ⟨c.scheme, c.userinfo.getD [], literal, host, c.port.getD [], c.path,
      c.query.getD [], c.fragment.getD []⟩ = c.text := by
    rw [text_eq_wraps hscheme hfull hb, Atoms.text, Atoms.hostText, htext, wrap_bare]
  rw [← heq]
  refine Uri.knead_eq ha hne ?_
  rw [heq, text_eq_wraps hscheme hfull hb]
  have hwrap : ∀ before v after : List Char,
      (wrap before v after).length ≤ before.length + (v.length + after.length) := by
    intro before v after
    rw [wrap]
    split
    · exact Nat.zero_le _
    · rw [List.length_append, List.length_append]
  have h₁ := hwrap [] c.scheme [':']
  have h₂ := hwrap [] (c.userinfo.getD []) ['@']
  have h₃ := hwrap [':'] (c.port.getD []) []
  have h₄ := hwrap ['?'] (c.query.getD []) []
  have h₅ := hwrap ['#'] (c.fragment.getD []) []
  obtain ⟨f₁, f₂, f₃, f₄, f₅, f₆, f₇⟩ := hfits
  rw [tokenSz] at f₁ f₂ f₃ f₄ f₅ f₆ f₇
  simp only [List.length_append, List.length_cons, List.length_nil, wrap_bare,
    uriStrMax] at h₁ h₂ h₃ h₄ h₅ ⊢
  omega

/-- Without an authority, there is no host in the buffer. -/
theorem host_of_no_authority (hv : c.Valid p) (hp : ∀ c, p c = true → portChar c = true)
    (ha : c.authority = none) (h : crumble c.text opt = .ok u) :
    u.authority = some [] ∧ u.host = some [] := by
  obtain ⟨l, m, l', u', query, fragment, -, hl, hhier, rfl, -⟩ := crumble_hier hv hp h
  rw [Components.hierText, ha] at hl
  have hl' : l.lookahead = c.rest := hl
  have htake := take_two_ne hv ha
  rw [parseHierPart, if_neg (hl' ▸ htake)] at hhier
  split at hhier
  · obtain ⟨l₁, -, hhier⟩ := bind_eq_ok.mp hhier
    obtain ⟨l₂, -, hhier⟩ := bind_eq_ok.mp hhier
    obtain ⟨l₃, -, hhier⟩ := bind_eq_ok.mp hhier
    obtain ⟨-, rfl⟩ := Prod.mk.inj (Except.ok.inj hhier)
    exact ⟨rfl, rfl⟩
  · obtain ⟨-, rfl⟩ := Prod.mk.inj (Except.ok.inj hhier)
    exact ⟨rfl, rfl⟩

/-- Without a host nothing is put together: `knead_authority` fails. -/
theorem knead_of_no_host (hauth : u.authority = some []) (hhost : u.host = some []) :
    knead u = none := by
  have hcat : ∀ s, catAuthority u s = none := by
    intro s
    rw [catAuthority, hauth]
    change kneadAuthority u s = none
    rw [kneadAuthority, hhost]
    rfl
  simp only [knead, hcat, Option.bind_eq_bind, Option.bind_none, Option.bind_fun_none]

/-- A URI that is cut in its host is shorter. -/
theorem cutAt_length {a : Authority} (hlen : v.length < a.host.length) (ha : c.authority = some a) :
    (cutAt c a v).text.length < c.text.length := by
  have huser : (Authority.mk a.userinfo v none).userText = a.userText := rfl
  simp only [Components.text, Components.hierText, ha, cutAt, Option.elim_some, Authority.text,
    huser, List.length_append, List.length_cons, Components.rest, Components.suffixText, behind,
    Option.elim_none, List.length_nil]
  omega

/-- **Putting together undoes taking apart.**  A URI of RFC 3986 without empty optional components,
with components shorter than the token buffer, that is accepted, is put together again, exactly when
it has a host, which is digits and dots if it starts with a digit, and its components leave room in
the buffers. -/
theorem knead_crumble_iff (c : Components) (opt : Bool) (u : Uri) (hv : c.Valid Char.isDigit)
    (hfull : Full c) (hfits : Fits c) (h : crumble c.text opt = .ok u) :
    knead u = some c.text ↔ (∃ a, c.authority = some a ∧ a.host ≠ [] ∧
      ∀ d ∈ a.host.head?, d.isDigit = true → AllIn ipv4Char a.host) ∧ Room c := by
  have hp : ∀ c, Char.isDigit c = true → portChar c = true := fun _ => port_of_isDigit
  cases ha : c.authority with
  | none =>
    obtain ⟨hauth, hhost⟩ := host_of_no_authority hv hp ha h
    rw [knead_of_no_host hauth hhost]
    constructor
    · exact fun h => by cases h
    · rintro ⟨⟨b, hb, -⟩, -⟩
      cases hb
  | some a =>
    have hbare : c.host = a.host := by rw [Components.host, ha]; rfl
    have hinfo : a.userinfo ≠ some [] := by
      have hne := hfull.userinfo
      rwa [Components.userinfo, ha] at hne
    have hat : a.userinfo = none → '@' ∉ c.rest := fun hnone hmem =>
      hfull.authority a ha (userinfo_of_at hv hp ha hnone hmem h).1
    by_cases hdigits : ∀ d ∈ a.host.head?, d.isDigit = true → AllIn ipv4Char a.host
    · have hg : Good c := by
        refine ⟨fun hnone => ?_, hfull.userinfo, fun b hb => ?_, hbare ▸ hdigits⟩
        · rw [ha] at hnone
          cases hnone
        · obtain rfl := Option.some.inj (ha.symm.trans hb)
          exact hat
      obtain ⟨u', h', hcrumbled⟩ := crumble_good hv hp hg opt
      obtain rfl := Except.ok.inj (h.symm.trans h')
      constructor
      · intro hk
        obtain ⟨-, hroom⟩ := hcrumbled.knead_le hv.scheme.ne_nil hv.host hfull hfits.host ha hk
        refine ⟨⟨a, rfl, fun hnil => ?_, hdigits⟩, hroom rfl⟩
        have hhost := (hcrumbled.name (hbare ▸ hnil ▸ .nil)).1
        rw [hbare, hnil, Holds, if_pos (by decide)] at hhost
        rw [knead_of_no_host hcrumbled.authority hhost] at hk
        cases hk
      · rintro ⟨⟨b, hb, hhost, -⟩, hroom⟩
        exact hcrumbled.knead_eq hv hfull hfits hroom (ha.trans hb) hhost
    · simp only [not_forall, exists_prop] at hdigits
      obtain ⟨d, hhead, hd, hmixed⟩ := hdigits
      obtain ⟨v, hvne, hlen, hname, hcrumbled⟩ := host_of_digits hv hp ha hinfo
        hat hhead hd hmixed h
      constructor
      · intro hk
        have hcut : Full (cutAt c a v) := by
          refine ⟨fun b hb => ?_, hinfo, fun h => (by cases h), fun h => (by cases h),
            fun h => (by cases h)⟩
          obtain rfl := Option.some.inj hb
          rw [Authority.text]
          simp [hvne]
        have hle := (hcrumbled.knead_le hv.scheme.ne_nil (.inr (.inr hname)) hcut
          (Nat.lt_trans hlen (hbare ▸ hfits.host)) rfl hk).1
        exact absurd (cutAt_length hlen ha) (Nat.not_lt.mpr hle)
      · rintro ⟨⟨b, hb, -, hdigits⟩, -⟩
        obtain rfl := Option.some.inj hb
        exact absurd (hdigits d hhead hd) hmixed

theorem knead_crumble_iff_sample : knead sampleUri = some sample.text := by
  have hfull : Full sample := by
    refine ⟨fun a ha => ?_, by decide, by decide, by decide, by decide⟩
    obtain rfl := Option.some.inj ha
    decide
  refine (knead_crumble_iff sample false sampleUri sample_valid hfull sample_fits rfl).mpr
    ⟨⟨_, rfl, by decide, fun d hd hdigit => ?_⟩, sample_room⟩
  obtain rfl := Option.some.inj hd
  exact absurd hdigit (by decide)

/-- A URI without an authority. -/
def mail : Components := ⟨['m'], none, ['a'], none, none⟩

theorem knead_crumble_mail : mail.Valid Char.isDigit ∧ Full mail ∧ Fits mail ∧
    ∃ u, crumble mail.text false = .ok u ∧ knead u ≠ some mail.text := by
  have hvalid : mail.Valid Char.isDigit := by
    refine ⟨⟨'m', [], rfl, rfl, allIn_nil⟩, fun a ha => ?_, fun _ => .inr (.inl ?_), fun q hq => ?_,
      fun f hf => ?_⟩
    · cases ha
    · exact ⟨['a'], [], .plain rfl .nil, List.cons_ne_nil _ _, .nil, rfl⟩
    · cases hq
    · cases hf
  have hfull : Full mail := by
    refine ⟨fun a ha => ?_, by decide, by decide, by decide, by decide⟩
    cases ha
  have hfits : Fits mail :=
    ⟨by decide, by decide, by decide, by decide, by decide, by decide, by decide⟩
  exact ⟨hvalid, hfull, hfits, { new false with scheme := some ['m'], path := some ['a'] }, rfl,
    by decide⟩

end Libu.Uri
