/-
# What is stored of a URI is what was matched

The parser on any string: it comes to an end, its lexers stay within their texts, what it has stored
when it succeeds is what it has matched, and it writes to no byte outside of a buffer (`Safe`).
That is so for the strings whose matches fit their buffers with one character more, whose fragment
goes to the end, and whose userinfo is not cut at a bracket (`Tame`), and for no others.

`Libu.Uri.Follow` has reduced the parser to the reading of its text, and so all of this is about a
list of matches.  A component is matched once at most; what its match leaves is therefore what the
buffer has at the end, and one match at a time can be looked at: it is stored as it was matched if
it fits and is cut where it was copied too far.

* §1: components are matched once, so that what a match leaves is found in its buffer at the end.
* §2: one match, in the buffer of a new object.
* §3: the parser (`safe_iff`).
-/
import Libu.Uri.Follow

namespace Libu.Uri

open Verif Watch

section

variable {B : Part → Token} {m : Match} {ms : List Match} {s : List Char} {opt : Bool}

/-! ## 1. Matches of different components -/

/-- A match leaves the buffers of the other components alone. -/
theorem keepOne_of_ne {k : Part} (h : m.part ≠ k) : keepOne B m k = B k :=
  Function.update_of_ne (Ne.symm h) _ _

/-- The buffer of a component that is not matched is as it was. -/
theorem keepAll_of_absent {k : Part} (h : ∀ m ∈ ms, m.part ≠ k) : keepAll ms B k = B k := by
  induction ms generalizing B with
  | nil => rfl
  | cons m ms ih =>
    have hrest : keepAll ms (keepOne B m) k = keepOne B m k := ih fun m hm => h m
      (List.mem_cons_of_mem _ hm)
    exact hrest.trans (keepOne_of_ne (h m List.mem_cons_self))

/-- Every component is matched once at most. -/
def Apart (ms : List Match) : Prop := ms.Pairwise fun m m' => m.part ≠ m'.part

/-- The buffer of a component that is matched once has what its match leaves, by induction on the
matches: those before and behind it go to other buffers. -/
theorem keepAll_of_mem (h : Apart ms) (hm : m ∈ ms) : keepAll ms B m.part = m.kept (B m.part) := by
  induction ms generalizing B with
  | nil => exact absurd hm List.not_mem_nil
  | cons m' ms ih =>
    obtain ⟨hhead, htail⟩ := List.pairwise_cons.mp h
    rcases List.mem_cons.mp hm with rfl | hm
    · have hrest : keepAll ms (keepOne B m) m.part = keepOne B m m.part :=
        keepAll_of_absent fun m' hm' => (hhead m' hm').symm
      exact hrest.trans (Function.update_self _ _ _)
    · have hrest : keepAll ms (keepOne B m') m.part = m.kept (keepOne B m' m.part) := ih htail hm
      rw [keepOne_of_ne (hhead m hm)] at hrest
      exact hrest

/-- For the same reason a stray match is one over the buffer that its component had at the
beginning. -/
theorem strayAll_iff (h : Apart ms) : StrayAll ms B ↔ ∃ m ∈ ms, m.Stray (B m.part) := by
  induction ms generalizing B with
  | nil => exact iff_of_false id fun ⟨m, hm, _⟩ => List.not_mem_nil hm
  | cons m ms ih =>
    obtain ⟨hhead, htail⟩ := List.pairwise_cons.mp h
    have hframe : (∃ m' ∈ ms, m'.Stray (keepOne B m m'.part)) ↔ ∃ m' ∈ ms, m'.Stray (B m'.part) :=
      exists_congr fun m' => and_congr_right fun hm' => by rw [keepOne_of_ne (hhead m' hm')]
    rw [StrayAll, ih htail, hframe]
    simp only [List.mem_cons, exists_eq_or_imp]

/-- The matches of a string are of different components. -/
theorem apart_matched (s : List Char) (opt : Bool) : Apart (matched s opt) := by
  have hsorted := (Reading.spans_uri opt (cString s)).sorted
  rw [List.pairwise_map] at hsorted
  exact hsorted.imp fun hlt heq => Nat.ne_of_lt hlt (congrArg Part.rank heq)

/-! ## 2. One match -/

/-- A text is trimmed to itself if and only if it does not end in a bracket. -/
theorem trimBracket_eq_iff {v : List Char} : trimBracket v = v ↔ v.getLast? ≠ some ']' := by
  rw [trimBracket]
  split
  · next h =>
    refine iff_of_false (fun heq => ?_) (not_not.mpr h)
    have hlen := congrArg List.length heq
    cases v with
    | nil => cases h
    | cons c v =>
      rw [List.length_dropLast, List.length_cons] at hlen
      omega
  · next h => exact iff_of_true rfl h

/-- What is known of the matches of any string. -/
structure Match.Known (m : Match) : Prop where
  sound : m.Sound
  scheme : m.part = .scheme → m.text ≠ []
  literal : m.literal = true → m.part = .host

/-- What is known of the matches of a reading, put together. -/
theorem known_of_matched (hm : m ∈ matched s opt) : m.Known :=
  ⟨Reading.sound_uri hm, Reading.scheme_text hm, (Reading.spans_uri opt (cString s)).literal m hm⟩

/-- The match is cut where it was copied too far. -/
def Match.Cut (m : Match) : Prop := m.cut = true ↔ m.behind ≠ []

/-- What is copied of a match with the character behind it is cut to the match itself. -/
theorem chop_copied {old : Token} (hfits : m.Fits) (hcut : m.Cut) :
    (if m.cut then chop (m.copied old) else m.copied old) = some m.raw := by
  have hcopied : m.copied old = some (m.raw ++ m.behind.take 1) := if_pos hfits
  rw [hcopied]
  cases hbehind : m.behind with
  | nil => rw [if_neg fun h => hcut.mp h hbehind, List.take_nil, List.append_nil]
  | cons c x =>
    rw [if_pos (hcut.mpr (by rw [hbehind]; exact List.cons_ne_nil c x))]
    exact chop_append m.raw c

/-- Where the match is adjusted, its last character is cut exactly where one was copied too many. -/
theorem cut_of_adjusted (h : m.adjusted = true) : m.Cut := by
  have hparts : m.part ≠ .scheme ∧ m.part ≠ .fragment := by simpa [Match.adjusted] using h
  rw [Match.Cut]
  simp [Match.cut, hparts]

/-- The match of a component that is trimmed is stored but for a bracket at its end. -/
def Match.Whole (m : Match) : Prop :=
  m.adjusted = true → m.literal = false → m.text.getLast? ≠ some ']'

/-- An adjusted match that fits is stored as it was matched, if and only if it does not end in a
bracket that is its own. -/
theorem kept_adjusted {old : Token} (hfits : m.Fits) (h : m.adjusted = true) :
    m.kept old = some m.text ↔ m.Whole := by
  have hkept : m.kept old = some (trimBracket m.raw) := by
    rw [Match.kept, chop_copied hfits (cut_of_adjusted h), if_pos h]
    rfl
  rw [hkept, Option.some_inj, Match.raw, Match.Whole]
  cases hliteral : m.literal with
  | true =>
    rw [if_pos rfl, trimBracket_append]
    exact iff_of_true rfl fun _ h => absurd h.symm Bool.false_ne_true
  | false =>
    rw [if_neg Bool.false_ne_true, trimBracket_eq_iff]
    exact ⟨fun hlast _ _ => hlast, fun hwhole => hwhole h rfl⟩

theorem raw_of_part (hknown : m.Known) (h : m.part ≠ .host) : m.raw = m.text := by
  rw [Match.raw, if_neg fun hliteral => h (hknown.literal hliteral)]

/-- The scheme is always cut by one character, which is right since a colon follows. -/
theorem kept_scheme {old : Token} (hknown : m.Known) (hfits : m.Fits) (h : m.part = .scheme)
    (hbehind : m.behind ≠ []) : m.kept old = some m.text := by
  have hcut : m.Cut := iff_of_true (by simp [Match.cut, h]) hbehind
  rw [Match.kept, chop_copied hfits hcut, if_neg (by simp [Match.adjusted, h]),
    raw_of_part hknown (by rw [h]; decide)]

/-- A fragment is stored with the character behind it. -/
theorem kept_fragment {old : Token} (hknown : m.Known) (hfits : m.Fits) (h : m.part = .fragment) :
    m.kept old = some m.text ↔ m.behind = [] := by
  have hcopied : m.copied old = some (m.raw ++ m.behind.take 1) := if_pos hfits
  have hcut : m.cut = false := by simp [Match.cut, h]
  have hadjusted : m.adjusted = false := by simp [Match.adjusted, h]
  have hkept : m.kept old = some (m.text ++ m.behind.take 1) := by
    rw [Match.kept, hcut, hadjusted, hcopied, raw_of_part hknown (by rw [h]; decide)]
    rfl
  rw [hkept, Option.some_inj]
  cases m.behind with
  | nil => simp
  | cons c x => simp

/-- A match that fits is stored within its buffer. -/
theorem not_stray_of_fits {old : Token} (hknown : m.Known) (hfits : m.Fits) : ¬ m.Stray old := by
  rintro ⟨hcut, hcopied⟩
  have heq : m.copied old = some (m.raw ++ m.behind.take 1) := if_pos hfits
  obtain ⟨hraw, hbehind⟩ := List.append_eq_nil_iff.mp (Option.some.inj (heq.symm.trans hcopied))
  have hnil : m.behind = [] := by
    cases hb : m.behind with
    | nil => rfl
    | cons c x =>
      rw [hb] at hbehind
      cases hbehind
  by_cases hpart : m.part = .scheme
  · refine hknown.scheme hpart ?_
    rw [← raw_of_part hknown (by rw [hpart]; decide), hraw]
  · rw [Match.cut, hnil] at hcut
    simp [hpart] at hcut

/-! ## 3. The parser -/

/-- The matches fit, a fragment goes to the end, and nothing of an accepted string is cut at a
bracket. -/
structure Tame (s : List Char) (opt : Bool) : Prop where
  fits : ∀ m ∈ matched s opt, m.Fits
  fragment : ∀ m ∈ matched s opt, m.part = .fragment → m.behind = []
  whole : Accepted s opt → ∀ m ∈ matched s opt, m.Whole

/-- What is asked of the parser on a string. -/
structure Safe (before : Part → Char) (s : List Char) (opt : Bool) : Prop where
  terminates : (Watch.crumble before s opt).2 ≠ .error .fuel
  within : Within (Watch.crumble before s opt).1
  stored : ∀ l u, (Watch.crumble before s opt).2 = .ok (l, u) →
    ∀ part v, (part, v) ∈ founds (Watch.crumble before s opt).1 → u.buffer part = some v
  absent : ∀ l u, (Watch.crumble before s opt).2 = .ok (l, u) →
    ∀ part, (∀ v, (part, v) ∉ founds (Watch.crumble before s opt).1) →
      u.buffer part = (new opt).buffer part
  refuses : ∀ part v, (part, v) ∈ founds (Watch.crumble before s opt).1 → tokenSz ≤ v.length →
    ∃ e, (Watch.crumble before s opt).2 = .error e
  inBounds : ¬ Strays (Watch.crumble before s opt).1

variable {before : Part → Char}

/-- The matches of a string are apart, each in the buffer of a new object. -/
theorem strays_crumble : Strays (Watch.crumble before s opt).1 ↔
    ∃ m ∈ matched s opt, m.Stray ((new opt).buffer m.part) :=
  (follows_uri before s opt).logs.strays.trans (strayAll_iff (apart_matched s opt))

/-- The matches in the log are those of the reading. -/
theorem mem_founds {part : Part} {v : List Char} :
    (part, v) ∈ founds (Watch.crumble before s opt).1 ↔ ∃ m ∈ matched s opt, m.part =
    part ∧ m.text = v := by
  have hfounds : founds (Watch.crumble before s opt).1 = told (matched s opt) :=
    (follows_uri before s opt).logs.founds
  rw [hfounds, told, List.mem_map]
  simp only [Prod.mk.injEq]

/-- What is stored of an accepted string. -/
theorem buffers_crumble (haccepted : Accepted s opt)
    (hstrays : ¬ Strays (Watch.crumble before s opt).1) :
    ∃ l u, (Watch.crumble before s opt).2 = .ok (l, u) ∧
      u.buffer = keepAll (matched s opt) (new opt).buffer := by
  have hfollows := follows_uri before s opt
  obtain ⟨x, hx⟩ := haccepted
  obtain ⟨l, u, hok, -, -, -, -, hbuffer⟩ := hfollows.ok x hx
  exact ⟨l, u, hok, hbuffer.resolve_left fun h => hstrays (hfollows.logs.strays.mpr h)⟩

/-- A string on which the parser succeeds is one that is read to its end. -/
theorem accepted_of_ok {p : Lexer × Uri} (h : (Watch.crumble before s opt).2 = .ok p) :
    Accepted s opt := by
  cases hread : (Reading.uri opt (cString s)).2 with
  | ok q => exact ⟨q.1, hread⟩
  | error e =>
    obtain ⟨l, herr⟩ := (follows_uri before s opt).error hread
    exact absurd (h.symm.trans herr) fun h => by cases h

/-- In a tame string every match is stored as it was matched. -/
theorem kept_of_tame (h : Tame s opt) (haccepted : Accepted s opt)
    (hm : m ∈ matched s opt) (old : Token) : m.kept old = some m.text := by
  have hknown := known_of_matched hm
  by_cases hscheme : m.part = .scheme
  · exact kept_scheme hknown (h.fits m hm) hscheme (Reading.scheme_behind haccepted hm hscheme)
  by_cases hfragment : m.part = .fragment
  · exact (kept_fragment hknown (h.fits m hm) hfragment).mpr (h.fragment m hm hfragment)
  · exact (kept_adjusted (h.fits m hm) (by simp [Match.adjusted, hscheme, hfragment])).mpr
      (h.whole haccepted m hm)

/-- The text of a match is at most what is between its two ends. -/
theorem text_length_le (m : Match) : m.text.length ≤ m.raw.length := by
  rw [Match.raw]
  split
  · rw [List.length_append]
    exact Nat.le_add_right _ _
  · exact Nat.le_refl _

theorem safe_of_tame (h : Tame s opt) : Safe before s opt := by
  have hfollows := follows_uri before s opt
  have hstrays : ¬ Strays (Watch.crumble before s opt).1 := fun hstrays => by
    obtain ⟨m, hm, hstray⟩ := strays_crumble.mp hstrays
    exact not_stray_of_fits (known_of_matched hm) (h.fits m hm) hstray
  have hbuffer : ∀ l u, (Watch.crumble before s opt).2 = .ok (l, u) →
      u.buffer = keepAll (matched s opt) (new opt).buffer := by
    intro l u hok
    obtain ⟨l', u', hok', hbuffer⟩ := buffers_crumble (accepted_of_ok hok) hstrays
    obtain ⟨-, rfl⟩ := Prod.mk.inj (Except.ok.inj (hok.symm.trans hok'))
    exact hbuffer
  refine ⟨?_, hfollows.logs.within, fun l u hok part v hmem => ?_, fun l u hok part habsent => ?_,
    fun part v hmem hlong => ?_, hstrays⟩
  · have hstopped : (Watch.crumble before s opt).2 = Uri.parser (Lexer.new s) opt := parser_snd
    rw [hstopped]
    exact fun hfuel => stopped_crumble s opt (by rw [Uri.crumble, hfuel]; rfl)
  · obtain ⟨m, hm, rfl, rfl⟩ := mem_founds.mp hmem
    rw [hbuffer l u hok, keepAll_of_mem (apart_matched s opt) hm]
    exact kept_of_tame h (accepted_of_ok hok) hm _
  · rw [hbuffer l u hok, keepAll_of_absent fun m hm hpart => habsent m.text
      (mem_founds.mpr ⟨m, hm, hpart, rfl⟩)]
  · obtain ⟨m, hm, rfl, rfl⟩ := mem_founds.mp hmem
    have hfits : m.raw.length + 1 < tokenSz := h.fits m hm
    have hle := text_length_le m
    omega

/-- Of a match that does not fit, what was in the buffer before is left. -/
theorem length_kept_of_long {old : Token} (h : ¬ m.Fits) :
    ∀ v ∈ m.kept old, ∃ w ∈ old, v.length ≤ w.length := by
  have hcopied : m.copied old = old := if_neg h
  have hcut : ∀ v ∈ (if m.cut then chop (m.copied old) else m.copied old),
      ∃ w ∈ old, v.length ≤ w.length := by
    rw [hcopied]
    split
    · intro v hv
      cases old with
      | none => cases hv
      | some w =>
        exact ⟨w, rfl, chop_length (n := w.length)
          (fun w' hw' => by cases hw'; exact Nat.le_refl _) v hv⟩
    · exact fun v hv => ⟨v, hv, Nat.le_refl _⟩
  intro v hv
  rw [Match.kept] at hv
  split at hv
  · obtain ⟨w, hw, rfl⟩ := Option.map_eq_some_iff.mp hv
    obtain ⟨w', hw', hle⟩ := hcut w hw
    exact ⟨w', hw', (trimBracket_length_le w).trans hle⟩
  · exact hcut v hv

theorem length_new (opt : Bool) (part : Part) : ∀ w ∈ (new opt).buffer part, w.length ≤ 1 := by
  intro w hw
  cases part <;> cases hw <;> decide

theorem tame_of_safe (h : Safe before s opt) : Tame s opt := by
  have hexact : Accepted s opt → ∀ m ∈ matched s opt,
      m.kept ((new opt).buffer m.part) = some m.text := by
    intro haccepted m hm
    obtain ⟨l, u, hok, hbuffer⟩ := buffers_crumble haccepted h.inBounds
    rw [← keepAll_of_mem (apart_matched s opt) hm, ← hbuffer]
    exact h.stored l u hok m.part m.text (mem_founds.mpr ⟨m, hm, rfl, rfl⟩)
  have hlate : ∀ m ∈ matched s opt, 4 ≤ m.part.rank → Accepted s opt :=
    fun m hm hrank => Reading.late_uri opt (cString s) m hm hrank
  have hfits : ∀ m ∈ matched s opt, m.Fits := by
    intro m hm
    by_contra hlong
    have hknown := known_of_matched hm
    have hcopied : m.copied ((new opt).buffer m.part) = (new opt).buffer m.part := if_neg hlong
    have hstray : ∀ _ : m.cut = true, (new opt).buffer m.part ≠ some [] := fun hcut hnil =>
      h.inBounds (strays_crumble.mpr ⟨m, hm, hcut, hcopied.trans hnil⟩)
    by_cases hrank : 4 ≤ m.part.rank
    · obtain ⟨w, hw, hle⟩ := length_kept_of_long hlong m.text (hexact (hlate m hm hrank) m hm)
      have hnew := length_new opt m.part w hw
      have hraw : m.raw.length ≤ m.text.length + 1 := by
        rw [Match.raw]
        split
        · rw [List.length_append]
          exact Nat.le_refl _
        · exact Nat.le_succ _
      have hlong' : ¬ m.raw.length + 1 < 128 := hlong
      omega
    · cases hpart : m.part with
      | scheme =>
        refine hstray (by simp [Match.cut, hpart]) ?_
        rw [hpart]
        rfl
      | userinfo =>
        refine hstray (by simp [Match.cut, hpart, hknown.sound.userinfo hpart]) ?_
        rw [hpart]
        rfl
      | user => exact hlong (hknown.sound.halves (.inl hpart))
      | pwd => exact hlong (hknown.sound.halves (.inr hpart))
      | host | port | path | query | fragment =>
        rw [hpart] at hrank
        exact hrank (by decide)
  refine ⟨hfits, fun m hm hpart => ?_, fun haccepted m hm hadjusted => ?_⟩
  · have haccepted := hlate m hm (by rw [hpart]; decide)
    exact (kept_fragment (known_of_matched hm) (hfits m hm) hpart).mp (hexact haccepted m hm)
  · exact (kept_adjusted (hfits m hm) hadjusted).mp (hexact haccepted m hm) hadjusted

/-- **The parser is safe on the tame strings, and on no others**, whatever stands before a buffer.
That is: it ends, its cursors stay inside their texts, it writes to no byte outside of a buffer, and
the components of an accepted string are what was matched for them. -/
theorem safe_iff (before : Part → Char) (s : List Char) (opt : Bool) :
    Safe before s opt ↔ Tame s opt :=
  ⟨tame_of_safe, safe_of_tame⟩

/-- A scheme of as many letters as a buffer has room for is not copied with the colon, and a NUL is
written in front of the empty buffer. -/
theorem not_safe_longScheme :
    ¬ Safe (fun _ => 'a') (List.replicate 127 'a' ++ [':']) false := by
  intro h
  have hmem : Match.mk .scheme (List.replicate 127 'a') false [':'] ∈
      matched (List.replicate 127 'a' ++ [':']) false := Logged.mem_bind_left (by decide +kernel)
  refine h.inBounds (strays_crumble.mpr ⟨_, hmem, rfl, ?_⟩)
  refine if_neg ?_
  rw [Match.Fits, Match.raw, if_neg Bool.false_ne_true, List.length_replicate]
  decide

end

end Libu.Uri
