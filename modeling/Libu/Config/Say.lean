/-
# What a line says (`toolbox/config.c`)

`u_config_do_load_drv` takes the comment off a line, the blanks around it and the line end behind
it, and breaks what is left at the first blank.

The steps are taken in the order of the source, and each is a function on a list of characters: the
comment goes first, and with it the backslashes of what is no comment; then the blanks at both ends,
then the line ends.  A key has no blank, so the first blank ends it, and what is behind it, without
the blanks, is the value.

* §1: the steps one by one (`scanComment`, `say`).  Neither tabs in front of a line nor the kind of
  the blank behind its key make a difference.
* §2: the line `key value` is read as just this key and this value exactly when none of the steps
  takes anything off them (`reads_iff`).
-/
import Libu.Config.Basic

namespace Libu.Config

open Verif

/-! ## 1. What a line says -/

section

variable {c last last' : Char} {seen pre s t k v l : List Char}

/-- What has been gone over does not matter. -/
theorem scanComment_append (h : last = '\\' → seen ≠ []) :
    scanComment (seen ++ pre) last s = pre.reverse ++ scanComment seen last s := by
  induction s generalizing seen last with
  | nil => simp [scanComment]
  | cons c s ih =>
    by_cases hc : c = '#'
    · by_cases hlast : last = '\\'
      · obtain ⟨b, seen, rfl⟩ := List.exists_cons_of_ne_nil (h hlast)
        have hnext := ih (by simp : '#' = '\\' → '#' :: seen ≠ [])
        simpa [scanComment, hc, hlast] using hnext
      · simp [scanComment, hc, hlast]
    · have hnext := ih (by simp : c = '\\' → c :: seen ≠ [])
      simpa [scanComment, hc] using hnext

/-- Only a backslash counts as `last`. -/
theorem scanComment_last (h : last ≠ '\\') (h' : last' ≠ '\\') :
    scanComment seen last s = scanComment seen last' s := by
  cases s with
  | nil => rfl
  | cons c s => simp [scanComment, h, h']

theorem ne_of_isblank (h : isblank c = true) : c ≠ '#' ∧ c ≠ '\\' ∧ c ≠ '\x00' := by
  simp only [isblank, Bool.or_eq_true, decide_eq_true_eq] at h
  rcases h with rfl | rfl <;> decide

/-- A blank stays, and the line goes on behind it as from its start. -/
theorem scanComment_blank (hc : isblank c = true) :
    scanComment seen last (c :: s) = seen.reverse ++ c :: scanComment [] '\x00' s := by
  obtain ⟨hhash, hback, -⟩ := ne_of_isblank hc
  have hsplit : scanComment ([] ++ c :: seen) c s = (c :: seen).reverse ++ scanComment [] c s :=
    scanComment_append fun h => absurd h hback
  rw [scanComment, if_neg hhash, ← List.nil_append (c :: seen), hsplit,
    scanComment_last hback (by decide : '\x00' ≠ '\\')]
  simp

/-- A word is cut by a comment, or gone over as a whole, whatever comes behind it. -/
theorem scanComment_word (k seen : List Char) (last : Char) :
    (∃ out, ∀ s, scanComment seen last (k ++ s) = out) ∨
      ∃ seen' last', (∀ x ∈ seen', x ∈ k ∨ x ∈ seen) ∧
        ∀ s, scanComment seen last (k ++ s) = scanComment seen' last' s := by
  induction k generalizing seen last with
  | nil => exact .inr ⟨seen, last, fun x hx => .inr hx, fun _ => rfl⟩
  | cons c k ih =>
    by_cases hc : c = '#'
    · by_cases hlast : last = '\\'
      · rcases ih (c :: seen.tail) c with ⟨out, hout⟩ | ⟨seen', last', hmem, hgo⟩
        · exact .inl ⟨out, fun s => by simpa [scanComment, hc, hlast] using hout s⟩
        · refine .inr ⟨seen', last', fun x hx => ?_, fun s => ?_⟩
          · rcases hmem x hx with h | h
            · exact .inl (List.mem_cons_of_mem _ h)
            · rcases List.mem_cons.mp h with rfl | h
              · exact .inl List.mem_cons_self
              · exact .inr (List.mem_of_mem_tail h)
          · simpa [scanComment, hc, hlast] using hgo s
      · exact .inl ⟨seen.reverse, fun s => by simp [scanComment, hc, hlast]⟩
    · rcases ih (c :: seen) c with ⟨out, hout⟩ | ⟨seen', last', hmem, hgo⟩
      · exact .inl ⟨out, fun s => by simpa [scanComment, hc] using hout s⟩
      · refine .inr ⟨seen', last', fun x hx => ?_, fun s => ?_⟩
        · rcases hmem x hx with h | h
          · exact .inl (List.mem_cons_of_mem _ h)
          · rcases List.mem_cons.mp h with rfl | h
            · exact .inl List.mem_cons_self
            · exact .inr h
        · simpa [scanComment, hc] using hgo s

/-- What is left of a line says, behind its blanks. -/
def word : List Char → Line
  | '{' :: ln => .opening (isblankStr ln)
  | '}' :: ln => .closing (isblankStr ln)
  | ln => .assign (ln.takeWhile fun c => !isblank c) (trim (ln.dropWhile fun c => !isblank c))

/-- A line without its comment. -/
def say (line : List Char) : Line :=
  let line := (trim line).rdropWhile isnl
  if line = [] then .empty else word (line.dropWhile isblank)

theorem parseLine_eq (h : l.length < 2048) :
    parseLine l = some (say (scanComment [] '\x00' l)) := by
  have hlen : ¬ 2048 ≤ l.length := by omega
  simp only [parseLine, removeComment, hlen, if_false, Option.bind_eq_bind, Option.bind_some, say]
  split
  · rfl
  · generalize List.dropWhile isblank _ = x
    unfold word
    cases x with
    | nil => rfl
    | cons c ln =>
      by_cases hopen : c = '{'
      · subst hopen
        rfl
      · by_cases hclose : c = '}'
        · subst hclose
          rfl
        · simp [hopen, hclose]

theorem rdropWhile_append (P : Char → Bool) (s t : List Char) :
    (s ++ t).rdropWhile P =
      if t.rdropWhile P = [] then s.rdropWhile P else s ++ t.rdropWhile P := by
  simp only [List.rdropWhile, List.reverse_append, List.dropWhile_append, List.isEmpty_iff,
    List.reverse_eq_nil_iff]
  split <;> simp

theorem rdropWhile_cons_blank (hc : isblank c = true) (s : List Char) :
    (c :: s).rdropWhile isblank =
      if s.rdropWhile isblank = [] then [] else c :: s.rdropWhile isblank := by
  have hsplit := rdropWhile_append isblank [c] s
  have hone : [c].rdropWhile isblank = [] := by simp [List.rdropWhile, hc]
  rwa [List.singleton_append, hone, List.singleton_append] at hsplit

theorem trim_cons (hc : isblank c = true) (s : List Char) : trim (c :: s) = trim s := by
  rw [trim, trim, rdropWhile_cons_blank hc]
  split
  · next hs => rw [hs]
  · simp [hc]

theorem say_cons (hc : isblank c = true) (s : List Char) : say (c :: s) = say s := by
  rw [say, say, trim_cons hc]

/-- Tabs in front of a line say nothing. -/
theorem say_scan_indent (n : Nat) (l : List Char) :
    say (scanComment [] '\x00' (List.replicate n '\t' ++ l)) = say (scanComment [] '\x00' l) := by
  induction n with
  | zero => simp
  | succ n ih =>
    rw [List.replicate_succ, List.cons_append, scanComment_blank rfl, List.reverse_nil,
      List.nil_append, say_cons rfl, ih]

variable {sep sep' : Char}

/-- Behind a word, one blank is as good as another. -/
theorem word_sep (hk : ∀ x ∈ k, isblank x = false) (hne : k ≠ []) (hsep : isblank sep = true)
    (hsep' : isblank sep' = true) (v : List Char) :
    word (k ++ sep :: v) = word (k ++ sep' :: v) := by
  obtain ⟨x, k, rfl⟩ := List.exists_cons_of_ne_nil hne
  have hword : ∀ {b : Char}, isblank b = true →
      ((x :: k ++ b :: v).takeWhile fun c => !isblank c) = x :: k ∧
        ((x :: k ++ b :: v).dropWhile fun c => !isblank c) = b :: v := by
    intro b hb
    have hall : ∀ y ∈ x :: k, (!isblank y) = true := fun y hy => by simp [hk y hy]
    rw [List.takeWhile_append_of_pos hall, List.dropWhile_append_of_pos hall]
    simp [hb]
  have hblank : isblankStr (k ++ sep :: v) = isblankStr (k ++ sep' :: v) := by
    simp [isblankStr, hsep, hsep']
  rw [List.cons_append, List.cons_append]
  unfold word
  by_cases hopen : x = '{'
  · subst hopen
    simp only [hblank]
  · by_cases hclose : x = '}'
    · subst hclose
      simp only [hblank]
    · split
      · next heq => exact absurd (List.cons.inj heq).1 hopen
      · next heq => exact absurd (List.cons.inj heq).1 hclose
      · split
        · next heq => exact absurd (List.cons.inj heq).1 hopen
        · next heq => exact absurd (List.cons.inj heq).1 hclose
        · rw [← List.cons_append, ← List.cons_append, (hword hsep).1, (hword hsep).2,
            (hword hsep').1, (hword hsep').2, trim_cons hsep, trim_cons hsep']

/-- What is left of a word and what is behind it. -/
theorem trim_word (hk : ∀ x ∈ k, isblank x = false) (hne : k ≠ []) (hsep : isblank sep = true)
    (v : List Char) : trim (k ++ sep :: v) =
      if v.rdropWhile isblank = [] then k else k ++ sep :: v.rdropWhile isblank := by
  obtain ⟨x, k, rfl⟩ := List.exists_cons_of_ne_nil hne
  have hlast : (x :: k).rdropWhile isblank = x :: k :=
    List.rdropWhile_eq_self_iff.mpr fun h => by simp [hk _ (List.getLast_mem h)]
  have hx : isblank x = false := hk x List.mem_cons_self
  rw [trim, rdropWhile_append, rdropWhile_cons_blank hsep, hlast]
  by_cases hv : v.rdropWhile isblank = []
  · rw [if_pos hv, if_pos hv, if_pos rfl]
    simp [hx]
  · rw [if_neg hv, if_neg hv, if_neg (List.cons_ne_nil _ _), List.cons_append, List.dropWhile_cons,
      if_neg (by simp [hx])]

theorem say_sep (hk : ∀ x ∈ k, isblank x = false) (hsep : isblank sep = true)
    (hsep' : isblank sep' = true) (v : List Char) : say (k ++ sep :: v) = say (k ++ sep' :: v) := by
  by_cases hne : k = []
  · rw [hne, List.nil_append, List.nil_append, say_cons hsep, say_cons hsep']
  have hnl : ∀ {b : Char}, isblank b = true → isnl b = false := by
    intro b hb
    simp only [isblank, Bool.or_eq_true, decide_eq_true_eq] at hb
    rcases hb with rfl | rfl <;> rfl
  rw [say, say, trim_word hk hne hsep, trim_word hk hne hsep']
  by_cases hv : v.rdropWhile isblank = []
  · simp only [hv, if_true]
  · obtain ⟨x, k, rfl⟩ := List.exists_cons_of_ne_nil hne
    have hx : isblank x = false := hk x List.mem_cons_self
    have hcut : ∀ {b : Char}, isblank b = true →
        (x :: k ++ b :: v.rdropWhile isblank).rdropWhile isnl =
          x :: k ++ b :: (v.rdropWhile isblank).rdropWhile isnl := by
      intro b hb
      have hsplit := rdropWhile_append isnl (x :: k ++ [b]) (v.rdropWhile isblank)
      rw [List.append_assoc, List.singleton_append] at hsplit
      rw [hsplit, List.rdropWhile_concat_neg _ _ _ (by simp [hnl hb])]
      by_cases hv' : (v.rdropWhile isblank).rdropWhile isnl = []
      · simp [hv']
      · simp [hv']
    have hkeep : ∀ s : List Char, (x :: k ++ s).dropWhile isblank = x :: k ++ s := fun s => by
      simp [hx]
    simp only [if_neg hv, hcut hsep, hcut hsep', hkeep, List.append_eq_nil_iff, hne, false_and,
      if_false]
    exact word_sep hk hne hsep hsep' _

/-- A blank behind a word says nothing. -/
theorem say_word (hk : ∀ x ∈ k, isblank x = false) (hsep : isblank sep = true) :
    say (k ++ [sep]) = say k := by
  by_cases hne : k = []
  · rw [hne, List.nil_append, say_cons hsep]
  · have htrim : trim k = k := by
      obtain ⟨x, k, rfl⟩ := List.exists_cons_of_ne_nil hne
      have hlast : (x :: k).rdropWhile isblank = x :: k :=
        List.rdropWhile_eq_self_iff.mpr fun h => by simp [hk _ (List.getLast_mem h)]
      simp [trim, hlast, hk x List.mem_cons_self]
    rw [say, say, trim_word hk hne hsep, htrim]
    simp

/-- The blank behind a key may be missing, or be another one. -/
theorem say_scan_sep (hk : ∀ x ∈ k, isblank x = false) (v : Option (List Char)) :
    say (scanComment [] '\x00' (k ++ match v with
      | none => []
      | some v => '\t' :: v)) = say (scanComment [] '\x00' (k ++ ' ' :: v.getD [])) := by
  rcases scanComment_word k [] '\x00' with ⟨out, hout⟩ | ⟨seen, last, hmem, hgo⟩
  · rw [hout, hout]
  · have hword : ∀ x ∈ seen.reverse, isblank x = false := fun x hx =>
      hk x ((hmem x (List.mem_reverse.mp hx)).resolve_right List.not_mem_nil)
    rw [hgo, hgo, scanComment_blank rfl]
    cases v with
    | none => exact (say_word hword rfl).symm
    | some v =>
      rw [scanComment_blank rfl]
      exact say_sep hword rfl rfl _

/-! ## 2. Lines that are read as they are written -/

/-- The key is a word that does not start with a bracket, there is no `#`, no blank around the
value, and no line end behind them. -/
structure Written (key value : List Char) : Prop where
  word : key ≠ [] ∧ ∀ c ∈ key, isblank c = false
  bracket : key.head? ≠ some '{' ∧ key.head? ≠ some '}'
  comment : '#' ∉ key ∧ '#' ∉ value
  tight : trim value = value
  ends : ∀ c ∈ (key ++ value).getLast?, isnl c = false

/-- Each `#` costs a character at least. -/
theorem length_scanComment (h : last = '\\' → seen ≠ []) :
    (scanComment seen last s).length + s.count '#' ≤ seen.length + s.length := by
  induction s generalizing seen last with
  | nil => simp [scanComment]
  | cons c s ih =>
    rw [scanComment]
    by_cases hc : c = '#'
    · subst hc
      by_cases hlast : last = '\\'
      · obtain ⟨b, seen, rfl⟩ := List.exists_cons_of_ne_nil (h hlast)
        have hnext := @ih '#' ('#' :: seen) fun _ => List.cons_ne_nil _ _
        rw [if_pos rfl, if_neg (not_not.mpr hlast), List.tail_cons, List.count_cons_self]
        rw [List.length_cons] at hnext ⊢
        rw [List.length_cons]
        omega
      · have hcount := List.count_le_length (a := '#') (l := s)
        rw [if_pos rfl, if_pos hlast, List.count_cons_self, List.length_cons, List.length_reverse]
        omega
    · have hnext := @ih c (c :: seen) fun _ => List.cons_ne_nil _ _
      rw [if_neg hc, List.count_cons_of_ne hc]
      rw [List.length_cons] at hnext ⊢
      omega

theorem scanComment_of_notMem (h : '#' ∉ s) : scanComment seen last s = seen.reverse ++ s := by
  induction s generalizing seen last with
  | nil => simp [scanComment]
  | cons c s ih =>
    obtain ⟨hc, hs⟩ := not_or.mp (mt List.mem_cons.mpr h)
    rw [scanComment, if_neg (Ne.symm hc), ih hs, List.reverse_cons, List.append_assoc]
    rfl

/-- What is left of a line that sets a key. -/
theorem of_say (h : say l = .assign k v) : ∃ x, x = (trim l).rdropWhile isnl ∧ x ≠ [] ∧
    (∀ c ∈ x.head?, isblank c = false ∧ c ≠ '{' ∧ c ≠ '}') ∧
    k = (x.takeWhile fun c => !isblank c) ∧ v = trim (x.dropWhile fun c => !isblank c) := by
  rw [say] at h
  split at h
  · cases h
  · next hne =>
    obtain ⟨c, x, hx⟩ := List.exists_cons_of_ne_nil hne
    have hc : isblank c = false := by
      have hpre : (trim l).rdropWhile isnl <+: trim l := List.rdropWhile_prefix isnl _
      rw [hx] at hpre
      obtain ⟨t, ht⟩ := hpre
      have hnot := List.head?_dropWhile_not isblank (l.rdropWhile isblank)
      rw [← trim, ← ht] at hnot
      simpa using hnot
    rw [hx, List.dropWhile_cons, if_neg (by simp [hc])] at h
    unfold word at h
    split at h
    · cases h
    · cases h
    · next hopen hclose =>
      obtain ⟨rfl, rfl⟩ := Line.assign.inj h
      refine ⟨_, hx.symm, List.cons_ne_nil c x, ?_, rfl, rfl⟩
      intro c' hc'
      obtain rfl := Option.some.inj hc'
      exact ⟨hc, fun heq => hopen x (heq ▸ rfl), fun heq => hclose x (heq ▸ rfl)⟩

theorem trim_trim (s : List Char) : trim (trim s) = trim s := by
  have hlast : (trim s).rdropWhile isblank = trim s := by
    refine List.rdropWhile_eq_self_iff.mpr fun hne => ?_
    have hsuffix : trim s <:+ s.rdropWhile isblank := List.dropWhile_suffix isblank
    rw [hsuffix.getLast hne]
    exact List.rdropWhile_last_not isblank s (hsuffix.ne_nil hne)
  rw [trim, hlast, trim, List.dropWhile_idempotent]

theorem trim_isInfix (s : List Char) : trim s <:+: s :=
  (List.dropWhile_suffix isblank).isInfix.trans (List.rdropWhile_prefix isblank s).isInfix

/-- What has lost nothing is as it was. -/
theorem eq_of_length_le (hx : s = (trim l).rdropWhile isnl) (hlen : l.length ≤ s.length) :
    s = l ∧ trim l = l ∧ l.rdropWhile isnl = l := by
  have hpre : (trim l).rdropWhile isnl <+: trim l := List.rdropWhile_prefix isnl _
  have hle := hpre.length_le
  have htrim : trim l = l := (trim_isInfix l).eq_of_length (by
    have := (trim_isInfix l).length_le
    rw [← hx] at hle
    omega)
  rw [htrim] at hpre hx
  have hnl : l.rdropWhile isnl = l := hpre.eq_of_length (by
    have := hpre.length_le
    rw [← hx] at this ⊢
    omega)
  exact ⟨hx.trans hnl, htrim, hnl⟩

theorem word_key (hk : ∀ x ∈ k, isblank x = false) (hne : k ≠ [])
    (hopen : k.head? ≠ some '{') (hclose : k.head? ≠ some '}')
    (ht : ∀ c ∈ t.head?, isblank c = true) : word (k ++ t) = .assign k (trim t) := by
  obtain ⟨x, k, rfl⟩ := List.exists_cons_of_ne_nil hne
  have hall : ∀ y ∈ x :: k, (!isblank y) = true := fun y hy => by simp [hk y hy]
  have htake : (t.takeWhile fun c => !isblank c) = [] := by
    cases t with
    | nil => rfl
    | cons c t => simp [ht c rfl]
  have hdrop : (t.dropWhile fun c => !isblank c) = t := by
    cases t with
    | nil => rfl
    | cons c t => simp [ht c rfl]
  rw [List.cons_append]
  unfold word
  split
  · next heq => exact absurd (congrArg some (List.cons.inj heq).1) hopen
  · next heq => exact absurd (congrArg some (List.cons.inj heq).1) hclose
  · rw [← List.cons_append, List.takeWhile_append_of_pos hall, List.dropWhile_append_of_pos hall,
      htake, hdrop, List.append_nil]

theorem Written.parse (h : Written k v) (hlen : (k ++ ' ' :: v).length < 2048) :
    parseLine (k ++ ' ' :: v) = some (.assign k v) := by
  obtain ⟨⟨hne, hk⟩, ⟨hopen, hclose⟩, ⟨hhash, hhash'⟩, htight, hends⟩ := h
  have hscan : scanComment [] '\x00' (k ++ ' ' :: v) = k ++ ' ' :: v :=
    scanComment_of_notMem (by simp [hhash, hhash'])
  have hv : v.rdropWhile isblank = v := by
    have hpre := List.rdropWhile_prefix isblank v
    have hsuf : trim v <:+ v.rdropWhile isblank := List.dropWhile_suffix isblank
    rw [htight] at hsuf
    exact hpre.eq_of_length (Nat.le_antisymm hpre.length_le hsuf.length_le)
  have hhead : ∀ t, (k ++ t).dropWhile isblank = k ++ t := by
    obtain ⟨x, k, rfl⟩ := List.exists_cons_of_ne_nil hne
    intro t
    simp [hk x List.mem_cons_self]
  have hkeep : ∀ t : List Char, (∀ c ∈ t.getLast?, isnl c = false) → t.rdropWhile isnl = t := by
    intro t ht
    refine List.rdropWhile_eq_self_iff.mpr fun hne => ?_
    rw [ht _ (List.getLast?_eq_getLast_of_ne_nil hne)]
    exact Bool.false_ne_true
  rw [parseLine_eq hlen, hscan, say, trim_word hk hne rfl, hv]
  by_cases hnil : v = []
  · subst hnil
    rw [List.append_nil] at hends
    have hword := word_key (t := []) hk hne hopen hclose (by simp)
    have hk' := hhead []
    rw [List.append_nil] at hword hk'
    simp only [if_true, hkeep k hends, if_neg hne, hk', hword]
    rfl
  · have hlast : ∀ c ∈ (k ++ ' ' :: v).getLast?, isnl c = false := by
      intro c hc
      refine hends c ?_
      rw [List.getLast?_append_of_ne_nil _ hnil]
      rwa [List.getLast?_append_of_ne_nil _ (List.cons_ne_nil ' ' v),
        List.getLast?_cons_of_ne_nil hnil] at hc
    have hword := word_key (t := ' ' :: v) hk hne hopen hclose (by simp [isblank])
    rw [trim_cons rfl, htight] at hword
    simp only [if_neg hnil, hkeep _ hlast, hhead, hword]
    rw [if_neg (by simp)]

/-- A line that nothing is taken off. -/
theorem written_of_whole {x : List Char} (hhash : '#' ∉ k ∧ '#' ∉ v)
    (hhead : ∀ c ∈ x.head?, isblank c = false ∧ c ≠ '{' ∧ c ≠ '}') (hne : x ≠ [])
    (hk : k = x.takeWhile fun c => !isblank c) (htight : trim v = v)
    (hnl : x.rdropWhile isnl = x) (hlast : (k ++ v).getLast? = x.getLast?) : Written k v := by
  obtain ⟨c, x, rfl⟩ := List.exists_cons_of_ne_nil hne
  obtain ⟨hc, hopen, hclose⟩ := hhead c rfl
  have hcons : k = c :: x.takeWhile fun c => !isblank c := by
    rw [hk, List.takeWhile_cons, if_pos (by simp [hc])]
  refine ⟨⟨by rw [hcons]; exact List.cons_ne_nil _ _, fun y hy => ?_⟩, ?_, hhash, htight,
    fun y hy => ?_⟩
  · rw [hk] at hy
    simpa using List.mem_takeWhile_imp hy
  · rw [hcons]
    exact ⟨fun h => hopen (Option.some.inj h), fun h => hclose (Option.some.inj h)⟩
  · rw [hlast] at hy
    have hnot := List.rdropWhile_eq_self_iff.mp hnl hne
    obtain rfl : y = (c :: x).getLast hne := by
      rw [List.getLast?_eq_some_getLast hne] at hy
      exact (Option.some.inj hy).symm
    exact Bool.eq_false_iff.mpr hnot

theorem Written.of_parse (hlen : (k ++ ' ' :: v).length < 2048)
    (h : parseLine (k ++ ' ' :: v) = some (.assign k v)) : Written k v := by
  rw [parseLine_eq hlen] at h
  have hsay := Option.some.inj h
  obtain ⟨x, hx, hne, hhead, hk, hv⟩ := of_say hsay
  have hword : ∀ y ∈ k, isblank y = false := fun y hy => by
    rw [hk] at hy
    simpa using List.mem_takeWhile_imp hy
  have htight : trim v = v := by rw [hv, trim_trim]
  by_cases hnil : v = []
  · -- the blank says nothing, so that it is the key alone that loses nothing
    subst hnil
    have hsep := say_scan_sep hword none
    rw [List.append_nil, Option.getD_none] at hsep
    rw [← hsep] at hsay
    obtain ⟨x, hx, hne, hhead, hk, -⟩ := of_say hsay
    have hcost := @length_scanComment '\x00' [] k fun h => absurd h (by decide)
    have hle : k.length ≤ x.length := by
      rw [hk]
      exact (List.takeWhile_prefix _).length_le
    have hlost : x.length ≤ (scanComment [] '\x00' k).length := by
      rw [hx]
      exact Nat.le_trans (List.rdropWhile_prefix isnl _).length_le (trim_isInfix _).length_le
    rw [List.length_nil] at hcost
    have hhash : '#' ∉ k := List.count_eq_zero.mp (by omega)
    rw [scanComment_of_notMem hhash, List.reverse_nil, List.nil_append] at hx
    obtain ⟨heq, -, hnl⟩ := eq_of_length_le hx hle
    rw [← heq] at hnl
    exact written_of_whole ⟨hhash, List.not_mem_nil⟩ hhead hne hk htight hnl
      (by rw [List.append_nil, heq])
  · obtain ⟨c, r, hr⟩ : ∃ c r, (x.dropWhile fun c => !isblank c) = c :: r := by
      refine List.exists_cons_of_ne_nil fun hdrop => hnil ?_
      rw [hv, hdrop]
      rfl
    have hc : isblank c = true := by
      have hnot := List.head?_dropWhile_not (fun c => !isblank c) x
      rw [hr] at hnot
      simpa using hnot
    have hvr : v.length ≤ r.length := by
      rw [hv, hr, trim_cons hc]
      exact (trim_isInfix r).length_le
    have hxlen : x.length = k.length + (r.length + 1) := by
      rw [hk, ← List.length_cons, ← hr, ← List.length_append, List.takeWhile_append_dropWhile]
    have hcost := @length_scanComment '\x00' [] (k ++ ' ' :: v) fun h => absurd h (by decide)
    have hlost : x.length ≤ (scanComment [] '\x00' (k ++ ' ' :: v)).length := by
      rw [hx]
      exact Nat.le_trans (List.rdropWhile_prefix isnl _).length_le (trim_isInfix _).length_le
    have hline : (k ++ ' ' :: v).length = k.length + (v.length + 1) := by simp
    rw [List.length_nil] at hcost
    have hhash : '#' ∉ k ++ ' ' :: v := List.count_eq_zero.mp (by omega)
    rw [scanComment_of_notMem hhash, List.reverse_nil, List.nil_append] at hx
    obtain ⟨heq, -, hnl⟩ := eq_of_length_le hx (by omega)
    rw [← heq] at hnl
    refine written_of_whole ⟨fun h => hhash (by simp [h]), fun h => hhash (by simp [h])⟩ hhead hne
      hk htight hnl ?_
    rw [heq, List.getLast?_append_of_ne_nil _ hnil,
      List.getLast?_append_of_ne_nil _ (List.cons_ne_nil ' ' v), List.getLast?_cons_of_ne_nil hnil]

/-- **A line is read as it is written** exactly when nothing is taken off it. -/
theorem reads_iff (hlen : (k ++ ' ' :: v).length < 2048) :
    parseLine (k ++ ' ' :: v) = some (.assign k v) ↔ Written k v :=
  ⟨.of_parse hlen, fun h => h.parse hlen⟩

end

end Libu.Config
