/-
# Variables out of a shell script (`toolbox/env.c`)

`u_env_init` has the shell read a file and print its environment, and takes over the variables
whose names start with a prefix.  The output is read line by line into a buffer of `BUFSZ` bytes.

Nothing is assumed of the output of the shell: it may be any bytes, with lines of any length, and
`fgets` hands a long line out in pieces, each of which is looked at as if it were a line.  So the
theorem for any output speaks of pieces, and only the one for an output whose lines fit speaks of
variables.

* §1 is the code.  The shell is a parameter, and so is whether there is memory for `setenv`.
* §2: what one line gives.
* §3: whatever the output is, nothing outside of the namespace changes, and what comes in is a name
  and a value that were read in one chunk (`uEnvInit_namespace`).
* §4: an environment whose lines fit is taken over as it is (`uEnvInit_imports`).
-/
import Mathlib.Logic.Function.Basic
import Libu.Lexer

namespace Libu.Env

open scoped List

/-! ## 1. The code -/

/-- The environment of the process. -/
abbrev Environ := List Char → Option (List Char)

def bufSz : Nat := 1024

/-- `fgets` into room for so many characters: what is read, and the rest. -/
def fgets : Nat → List Char → List Char × List Char
  | 0, s => ([], s)
  | _ + 1, [] => ([], [])
  | n + 1, c :: s => if c = '\n' then ([c], s) else (c :: (fgets n s).1, (fgets n s).2)

/-- The room for a line: `fgets` is told `BUFSZ-1`, and keeps a byte for the NUL. -/
def lineRoom : Nat := bufSz - 2

/-- The output of a command, call of `fgets` after call. -/
def readLines : Nat → List Char → List (List Char)
  | 0, _ => []
  | n + 1, text =>
    if text = [] then [] else (fgets lineRoom text).1 :: readLines n (fgets lineRoom text).2

/-- `setenv` -/
def setenv (noMem : Bool) (env : Environ) (name val : List Char) : Option Environ :=
  if noMem || name.isEmpty then none else some (Function.update env name (some val))

/-- The name and the value that a line is split into, if it is one of the namespace; an empty line
is cut in front of the buffer. -/
def splitLine (pfx line : List Char) : Option (Option (List Char × List Char)) :=
  let line := cString line
  if pfx.isPrefixOf line then
    if line = [] then none
    else
      let line := line.dropLast
      if '=' ∈ line then
        some (some (line.takeWhile (· ≠ '='), (line.dropWhile (· ≠ '=')).tail))
      else some none
  else some none

/-- The loop: the return value, and the environment after it. -/
def initLoop (pfx : List Char) : (noMem : List Bool) → Environ → List (List Char) →
    Option (Int × Environ)
  | _, env, [] => some (0, env)
  | noMem, env, line :: rest => do
    match ← splitLine pfx line with
    | none => initLoop pfx noMem env rest
    | some (name, val) =>
      match setenv (noMem.headD false) env name val with
      | none => some (-1, env)
      | some env => initLoop pfx noMem.tail env rest

/-- The shell and the files: whether a file exists, and what a command prints when it can be
started. -/
structure Shell where
  stat : List Char → Bool
  popen : List Char → Option (List Char)

/-- The command line. -/
def command (cfile : List Char) : List Char :=
  ". ".toList ++ (cfile ++ " 2>/dev/null && env".toList)

/-- `u_env_init`; `noMem` says of each call of `setenv` whether it runs out of memory. -/
def uEnvInit (sh : Shell) (noMem : List Bool) (env : Environ) (pfx cfile : List Char) :
    Option (Int × Environ) :=
  if !sh.stat cfile then some (-1, env)
  else if bufSz ≤ (command cfile).length then some (-1, env)
  else
    match sh.popen (command cfile) with
    | none => some (-1, env)
    | some text => initLoop pfx noMem env (readLines text.length text)

/-! ## 2. Lines -/

section

variable {pfx line name val text rest body : List Char} {n : Nat}

theorem length_fgets_le (n : Nat) (s : List Char) : (fgets n s).1.length ≤ n := by
  induction n generalizing s with
  | zero => simp [fgets]
  | succ n ih =>
    cases s with
    | nil => simp [fgets]
    | cons c s =>
      rw [fgets]
      split
      · simp
      · simpa using ih s

theorem length_readLines_le (n : Nat) (text : List Char) :
    ∀ line ∈ readLines n text, line.length ≤ lineRoom := by
  induction n generalizing text with
  | zero => simp [readLines]
  | succ n ih =>
    rw [readLines]
    split
    · simp
    · intro line hline
      rcases List.mem_cons.mp hline with rfl | hline
      · exact length_fgets_le _ _
      · exact ih _ line hline

theorem fgets_append (n : Nat) (s : List Char) : (fgets n s).1 ++ (fgets n s).2 = s := by
  induction n generalizing s with
  | zero => rfl
  | succ n ih =>
    cases s with
    | nil => rfl
    | cons c s =>
      rw [fgets]
      split
      · rfl
      · exact congrArg (c :: ·) (ih s)

/-- Every call of `fgets` takes something. -/
theorem length_fgets_lt {s : List Char} (hs : s ≠ []) : (fgets (n + 1) s).2.length < s.length := by
  cases s with
  | nil => exact absurd rfl hs
  | cons c s =>
    rw [fgets]
    split
    · exact Nat.lt_succ_self _
    · have hlen := congrArg List.length (fgets_append n s)
      rw [List.length_append] at hlen
      simp only [List.length_cons]
      omega

/-- The chunks are the whole output. -/
theorem flatten_readLines (hlen : text.length ≤ n) : (readLines n text).flatten = text := by
  induction n generalizing text with
  | zero => exact (List.length_eq_zero_iff.mp (Nat.le_zero.mp hlen)).symm
  | succ n ih =>
    rw [readLines]
    split
    · next hnil => exact hnil.symm
    · next hne =>
      have hlt : (fgets lineRoom text).2.length < text.length := length_fgets_lt hne
      rw [List.flatten_cons, ih (by omega), fgets_append]

/-- The line that a newline ends. -/
theorem fgets_line (hbody : '\n' ∉ body) (hlen : body.length < n) (rest : List Char) :
    fgets n (body ++ '\n' :: rest) = (body ++ ['\n'], rest) := by
  induction body generalizing n with
  | nil =>
    cases n with
    | zero => simp at hlen
    | succ n => simp [fgets]
  | cons c body ih =>
    cases n with
    | zero => simp at hlen
    | succ n =>
      obtain ⟨hc, hbody⟩ : '\n' ≠ c ∧ '\n' ∉ body := by simpa using hbody
      rw [List.cons_append, fgets, if_neg (Ne.symm hc), ih hbody (by simpa using hlen)]
      rfl

/-- A prefix without `c` of a text with `c` ends in front of it. -/
theorem isPrefix_of_not_mem {c : Char} (hc : c ∉ pfx) (h : pfx <+: name ++ c :: rest) :
    pfx <+: name := by
  induction name generalizing pfx with
  | nil =>
    cases pfx with
    | nil => exact List.nil_prefix
    | cons a pfx =>
      obtain ⟨rfl, -⟩ := List.cons_prefix_cons.mp h
      exact absurd List.mem_cons_self hc
  | cons b name ih =>
    cases pfx with
    | nil => exact List.nil_prefix
    | cons a pfx =>
      obtain ⟨rfl, hrest⟩ := List.cons_prefix_cons.mp h
      have hc' : c ∉ pfx := fun hmem => hc (List.mem_cons_of_mem a hmem)
      exact List.cons_prefix_cons.mpr ⟨rfl, ih hc' hrest⟩

/-- The text in front of the first `=`, and behind it. -/
theorem eq_append_of_mem (h : '=' ∈ body) :
    body = body.takeWhile (· ≠ '=') ++ '=' :: (body.dropWhile (· ≠ '=')).tail := by
  induction body with
  | nil => cases h
  | cons c body ih =>
    by_cases hc : c = '='
    · simp [hc]
    · have htail : '=' ∈ body := (List.mem_cons.mp h).resolve_left (Ne.symm hc)
      simpa [hc] using ih htail

/-- **What a line gives**: a name of the namespace, and a value, which are the front of the line.
One character more is cut off the end, whether it is a newline or not. -/
theorem splitLine_some (heq : '=' ∉ pfx) (h : splitLine pfx line = some (some (name, val))) :
    pfx <+: name ∧ name ++ '=' :: val <+: line ∧ name.length + val.length + 2 ≤ line.length := by
  simp only [splitLine] at h
  split at h
  · next hpfx =>
    split at h
    · cases h
    · next hne =>
      split at h
      · next hmem =>
        simp only [Option.some.injEq, Prod.mk.injEq] at h
        obtain ⟨hname, hval⟩ := h
        have hsplit := eq_append_of_mem hmem
        rw [hname, hval] at hsplit
        have hlast := (List.dropLast_concat_getLast hne).symm
        have hfront : name ++ '=' :: val <+: line := by
          rw [← hsplit]
          exact (List.dropLast_prefix _).trans (List.takeWhile_prefix _)
        rw [hsplit, List.append_assoc, List.cons_append] at hlast
        refine ⟨isPrefix_of_not_mem heq (hlast ▸ List.isPrefixOf_iff_prefix.mp hpfx), hfront, ?_⟩
        have hlen := congrArg List.length hlast
        have hle : (cString line).length ≤ line.length := (List.takeWhile_prefix _).length_le
        simp only [List.length_append, List.length_cons, List.length_nil] at hlen
        omega
      · cases h
  · cases h

theorem splitLine_isSome (hne : pfx ≠ []) (line : List Char) : (splitLine pfx line).isSome := by
  simp only [splitLine]
  split
  · next hpfx =>
    split
    · next hnil =>
      rw [hnil] at hpfx
      exact absurd (List.prefix_nil.mp (List.isPrefixOf_iff_prefix.mp hpfx)) hne
    · split <;> rfl
  · rfl

end

/-! ## 3. Any output -/

/-- The chunks in which the output of the command is read: each of them ends with a line, or fills
the buffer. -/
def chunks (sh : Shell) (cfile : List Char) : List (List Char) :=
  (sh.popen (command cfile)).elim [] fun text => readLines text.length text

/-- What a variable may be after the chunks `lines`: as before, or of the namespace, where it and
its value are the front of one of the chunks, and at least a character shorter. -/
def Kept (pfx : List Char) (lines : List (List Char)) (env env' : Environ) : Prop :=
  ∀ name, env' name = env name ∨ pfx <+: name ∧ ∃ val, env' name = some val ∧
    ∃ line ∈ lines, name ++ '=' :: val <+: line ∧ name.length + val.length + 2 ≤ line.length

section

variable {pfx cfile : List Char} {env env' env'' : Environ} {noMem : List Bool}
  {lines : List (List Char)} {vars : List (List Char × List Char)}

theorem Kept.refl (pfx : List Char) (lines : List (List Char)) (env : Environ) :
    Kept pfx lines env env := fun _ => .inl rfl

theorem Kept.trans (h : Kept pfx lines env env') (h' : Kept pfx lines env' env'') :
    Kept pfx lines env env'' := by
  intro name
  rcases h' name with heq | hnew
  · rcases h name with heq' | ⟨hpfx, val, hval, hline⟩
    · exact .inl (heq.trans heq')
    · exact .inr ⟨hpfx, val, heq.trans hval, hline⟩
  · exact .inr hnew

theorem Kept.mono {lines' : List (List Char)} (hsub : lines ⊆ lines')
    (h : Kept pfx lines env env') : Kept pfx lines' env env' := by
  intro name
  refine (h name).imp_right ?_
  rintro ⟨hpfx, val, hval, line, hline, hfront⟩
  exact ⟨hpfx, val, hval, line, hsub hline, hfront⟩

theorem kept_update {line name val : List Char} (hline : line ∈ lines) (hpfx : pfx <+: name)
    (hfront : name ++ '=' :: val <+: line) (hlen : name.length + val.length + 2 ≤ line.length) :
    Kept pfx lines env (Function.update env name (some val)) := by
  intro n
  by_cases hn : n = name
  · subst hn
    exact .inr ⟨hpfx, val, Function.update_self _ _ _, line, hline, hfront, hlen⟩
  · exact .inl (Function.update_of_ne hn _ _)

section

variable {line : List Char} {rest : List (List Char)} {p : List Char × List Char}

theorem initLoop_undefined (h : splitLine pfx line = none) :
    initLoop pfx noMem env (line :: rest) = none := by
  rw [initLoop, h]
  rfl

theorem initLoop_skip (h : splitLine pfx line = some none) :
    initLoop pfx noMem env (line :: rest) = initLoop pfx noMem env rest := by
  rw [initLoop, h]
  rfl

theorem initLoop_set (h : splitLine pfx line = some (some p)) :
    initLoop pfx noMem env (line :: rest) =
      (setenv (noMem.headD false) env p.1 p.2).elim (some (-1, env))
        fun env => initLoop pfx noMem.tail env rest := by
  rw [initLoop, h]
  cases hset : setenv (noMem.headD false) env p.1 p.2 <;>
    simp only [Option.bind_eq_bind, Option.bind_some, hset] <;> rfl

end

theorem setenv_eq {noMem : Bool} {name val : List Char}
    (h : setenv noMem env name val = some env') :
    env' = Function.update env name (some val) := by
  rw [setenv] at h
  split at h
  · cases h
  · exact (Option.some.inj h).symm

/-- The loop, by induction on the lines. -/
theorem initLoop_kept (heq : '=' ∉ pfx) {ret : Int}
    (h : initLoop pfx noMem env lines = some (ret, env')) :
    (ret = 0 ∨ ret = -1) ∧ Kept pfx lines env env' := by
  induction lines generalizing noMem env with
  | nil =>
    obtain ⟨rfl, rfl⟩ : 0 = ret ∧ env = env' := by simpa [initLoop] using h
    exact ⟨.inl rfl, Kept.refl pfx [] env⟩
  | cons line rest ih =>
    have hsub : rest ⊆ line :: rest := List.subset_cons_self line rest
    cases hsplit : splitLine pfx line with
    | none =>
      rw [initLoop_undefined hsplit] at h
      cases h
    | some split =>
      cases split with
      | none => exact (ih (by rwa [initLoop_skip hsplit] at h)).imp_right (Kept.mono hsub)
      | some p =>
        obtain ⟨hpfx, hfront, hlen⟩ := splitLine_some heq hsplit
        rw [initLoop_set hsplit] at h
        cases hset : setenv (noMem.headD false) env p.1 p.2 with
        | none =>
          rw [hset] at h
          obtain ⟨rfl, rfl⟩ : -1 = ret ∧ env = env' := by simpa using h
          exact ⟨.inr rfl, Kept.refl pfx (line :: rest) env⟩
        | some env₁ =>
          rw [hset] at h
          obtain ⟨hret, hkept⟩ := ih h
          have hupdate : Kept pfx (line :: rest) env env₁ :=
            setenv_eq hset ▸ kept_update List.mem_cons_self hpfx hfront hlen
          exact ⟨hret, hupdate.trans (hkept.mono hsub)⟩

theorem initLoop_isSome (hne : pfx ≠ []) (noMem : List Bool) (env : Environ)
    (lines : List (List Char)) : (initLoop pfx noMem env lines).isSome := by
  induction lines generalizing noMem env with
  | nil => rfl
  | cons line rest ih =>
    obtain ⟨split, hsplit⟩ := Option.isSome_iff_exists.mp (splitLine_isSome hne line)
    cases split with
    | none =>
      rw [initLoop_skip hsplit]
      exact ih noMem env
    | some p =>
      rw [initLoop_set hsplit]
      cases hset : setenv (noMem.headD false) env p.1 p.2 with
      | none => rfl
      | some env₁ => exact ih noMem.tail env₁

/-- **`u_env_init` keeps to its namespace.**  Whatever the shell prints (values over several lines,
lines that are longer than the buffer, no line end at the end), with a prefix without `=`: a
variable that changes has a name with the prefix, and `name=value` is the front of one of the chunks
that `fgets` has read, so that a longer value never comes in whole.  The chunks are the output, none
longer than the buffer.  With a prefix that is not empty the call returns. -/
theorem uEnvInit_namespace (sh : Shell) (noMem : List Bool) (env : Environ) (pfx cfile : List Char)
    (heq : '=' ∉ pfx) :
    (pfx ≠ [] → (uEnvInit sh noMem env pfx cfile).isSome) ∧
      (∀ ret env', uEnvInit sh noMem env pfx cfile = some (ret, env') →
        (ret = 0 ∨ ret = -1) ∧ Kept pfx (chunks sh cfile) env env') ∧
      (∀ line ∈ chunks sh cfile, line.length ≤ lineRoom) ∧
      ∀ text, sh.popen (command cfile) = some text → (chunks sh cfile).flatten = text := by
  have hfailed : ∀ (ret : Int) (env' : Environ), some (-1, env) = some (ret, env') →
      (ret = 0 ∨ ret = -1) ∧ Kept pfx (chunks sh cfile) env env' := by
    rintro ret env' h
    obtain ⟨rfl, rfl⟩ : -1 = ret ∧ env = env' := by simpa using h
    exact ⟨.inr rfl, Kept.refl pfx _ env⟩
  refine and_assoc.mp ⟨?_, ?_, fun text htext => ?_⟩
  · rw [uEnvInit]
    split
    · exact ⟨fun _ => rfl, hfailed⟩
    · split
      · exact ⟨fun _ => rfl, hfailed⟩
      · cases hout : sh.popen (command cfile) with
        | none => exact ⟨fun _ => rfl, hfailed⟩
        | some text =>
          have hchunks : chunks sh cfile = readLines text.length text := by rw [chunks, hout]; rfl
          rw [hchunks]
          exact ⟨fun hne => initLoop_isSome hne noMem env _, fun _ _ h => initLoop_kept heq h⟩
  · intro line hline
    rw [chunks] at hline
    cases hout : sh.popen (command cfile) with
    | none =>
      rw [hout] at hline
      cases hline
    | some text =>
      rw [hout] at hline
      exact length_readLines_le _ text line hline
  · rw [chunks, htext]
    exact flatten_readLines (Nat.le_refl _)

/-- A shell that prints one environment for every file. -/
def printing (vars : List (List Char × List Char)) : Shell :=
  ⟨fun _ => true, fun _ => some (vars.flatMap fun v => v.1 ++ '=' :: (v.2 ++ ['\n']))⟩

/-- A value over two lines, of which the second one looks like a variable. -/
theorem uEnvInit_namespace_lines :
    let sh := printing [(['P', 'A'], ['x', '\n', 'P', 'B', '=', 'y'])]
    let run := uEnvInit sh [] (fun _ => none) ['P'] ['c']
    (['P'] ≠ [] → run.isSome) ∧ (∀ ret env', run = some (ret, env') →
      (ret = 0 ∨ ret = -1) ∧ Kept ['P'] (chunks sh ['c']) (fun _ => none) env') ∧
      (∀ line ∈ chunks sh ['c'], line.length ≤ lineRoom) ∧
      ∀ text, sh.popen (command ['c']) = some text → (chunks sh ['c']).flatten = text :=
  uEnvInit_namespace _ [] _ ['P'] ['c'] (by decide)

/-! ## 4. An environment whose lines fit -/

/-- A line that `env` prints. -/
def entry (v : List Char × List Char) : List Char := v.1 ++ '=' :: (v.2 ++ ['\n'])

/-- A variable whose line is one, and fits. -/
structure Fits (v : List Char × List Char) : Prop where
  name : v.1 ≠ []
  eq : '=' ∉ v.1
  newline : '\n' ∉ v.1 ++ v.2
  nul : '\x00' ∉ v.1 ++ v.2
  room : v.1.length + v.2.length + 2 ≤ lineRoom

/-- The environment with some variables taken over: the last of a name counts. -/
def imported (pfx : List Char) (env : Environ) (vars : List (List Char × List Char)) : Environ :=
  fun name =>
    if pfx.isPrefixOf name then (vars.reverse.lookup name).or (env name) else env name

variable {v : List Char × List Char}

theorem entry_eq (v : List Char × List Char) : entry v = v.1 ++ '=' :: v.2 ++ ['\n'] := by
  simp [entry]

theorem splitLine_entry (hv : Fits v) (heq : '=' ∉ pfx) :
    splitLine pfx (entry v) = some (if pfx.isPrefixOf v.1 then some v else none) := by
  have hnul : cString (entry v) = entry v := by
    refine List.takeWhile_eq_self_iff.mpr fun c hc => decide_eq_true ?_
    rintro rfl
    have := hv.nul
    simp [entry] at hc this
    rcases hc with hc | hc
    · exact this.1 hc
    · exact this.2 hc
  have hpfx : pfx.isPrefixOf (entry v) = pfx.isPrefixOf v.1 := by
    refine Bool.eq_iff_iff.mpr ?_
    rw [List.isPrefixOf_iff_prefix, List.isPrefixOf_iff_prefix]
    exact ⟨isPrefix_of_not_mem heq, fun h => h.trans (List.prefix_append _ _)⟩
  have hne : entry v ≠ [] := by simp [entry]
  have hall : ∀ c ∈ v.1, decide (c ≠ '=') = true := fun c hc =>
    decide_eq_true fun h => hv.eq (h ▸ hc)
  have hdrop : (entry v).dropLast = v.1 ++ '=' :: v.2 := by
    rw [entry_eq, List.dropLast_concat]
  simp only [splitLine, hnul, hpfx, if_neg hne, hdrop]
  split
  · rw [if_pos (by simp), List.takeWhile_append_of_pos hall, List.dropWhile_append_of_pos hall]
    simp
  · rfl

/-- One variable more in front. -/
theorem imported_cons (pfx : List Char) (env : Environ) (v : List Char × List Char)
    (vars : List (List Char × List Char)) : imported pfx env (v :: vars) =
      imported pfx (if pfx.isPrefixOf v.1 then Function.update env v.1 (some v.2) else env)
        vars := by
  funext name
  simp only [imported, List.reverse_cons, List.lookup_append]
  by_cases hname : pfx.isPrefixOf name
  · rw [if_pos hname, if_pos hname, Option.or_assoc]
    congr 1
    by_cases hv : name = v.1
    · subst hv
      have hlookup : List.lookup v.1 [(v.1, v.2)] = some v.2 := List.lookup_cons_self
      rw [if_pos hname, Function.update_self, hlookup]
      rfl
    · have hlookup : List.lookup name [v] = none := by simp [hv]
      rw [hlookup, Option.none_or]
      split
      · rw [Function.update_of_ne hv]
      · rfl
  · rw [if_neg hname, if_neg hname]
    split
    · next hv =>
      rw [Function.update_of_ne]
      rintro rfl
      exact hname hv
    · rfl

theorem initLoop_entries (heq : '=' ∉ pfx) (hvars : ∀ v ∈ vars, Fits v)
    (hmem : ∀ b ∈ noMem, b = false) (env : Environ) :
    initLoop pfx noMem env (vars.map entry) = some (0, imported pfx env vars) := by
  induction vars generalizing noMem env with
  | nil =>
    have himported : imported pfx env [] = env := by
      funext name
      simp [imported]
    rw [himported]
    rfl
  | cons v vars ih =>
    have hrest : ∀ w ∈ vars, Fits w := fun w hw => hvars w (List.mem_cons_of_mem v hw)
    have hv := hvars v List.mem_cons_self
    have hline := splitLine_entry hv heq
    rw [List.map_cons, imported_cons]
    by_cases hpfx : pfx.isPrefixOf v.1
    · have hfirst : noMem.headD false = false := by
        cases noMem with
        | nil => rfl
        | cons b noMem => exact hmem b List.mem_cons_self
      have hset : setenv (noMem.headD false) env v.1 v.2 =
          some (Function.update env v.1 (some v.2)) := by
        rw [setenv, hfirst, Bool.false_or, List.isEmpty_eq_false_iff.mpr hv.name]
        rfl
      rw [if_pos hpfx] at hline ⊢
      rw [initLoop_set hline, hset]
      exact ih hrest (fun b hb => hmem b (List.mem_of_mem_tail hb)) _
    · rw [if_neg hpfx] at hline ⊢
      rw [initLoop_skip hline]
      exact ih hrest hmem env

/-- What `env` prints is read line by line. -/
theorem readLines_entries (hvars : ∀ v ∈ vars, Fits v) (n : Nat)
    (hn : (vars.flatMap entry).length ≤ n) : readLines n (vars.flatMap entry) = vars.map entry := by
  induction vars generalizing n with
  | nil => cases n <;> rfl
  | cons v vars ih =>
    have hv := hvars v List.mem_cons_self
    have hlen : (entry v).length = v.1.length + v.2.length + 2 := by
      simp [entry]
      omega
    rw [List.flatMap_cons, List.length_append] at hn
    cases n with
    | zero => omega
    | succ n =>
      have hbody : '\n' ∉ v.1 ++ '=' :: v.2 := by
        have := hv.newline
        simpa using this
      have hshort : (v.1 ++ '=' :: v.2).length < lineRoom := by
        have := hv.room
        simp only [List.length_append, List.length_cons]
        omega
      have hline : fgets lineRoom (entry v ++ vars.flatMap entry) =
          (entry v, vars.flatMap entry) := by
        rw [entry_eq, List.append_assoc]
        exact fgets_line hbody hshort _
      rw [List.flatMap_cons, readLines, if_neg (by simp [entry]), hline,
        ih (fun w hw => hvars w (List.mem_cons_of_mem v hw)) n (by omega)]
      rfl

/-- **What fits is taken over as it is.**  When the shell prints an environment of variables with
proper names and values of one line that fit into the buffer, and there is memory, `u_env_init`
returns 0, and the variables with the prefix are those that were printed. -/
theorem uEnvInit_imports (sh : Shell) (noMem : List Bool) (env : Environ) (pfx cfile : List Char)
    (heq : '=' ∉ pfx) (vars : List (List Char × List Char)) (hvars : ∀ v ∈ vars, Fits v)
    (hmem : ∀ b ∈ noMem, b = false) (hstat : sh.stat cfile = true)
    (hshort : (command cfile).length < bufSz)
    (hout : sh.popen (command cfile) = some (vars.flatMap entry)) :
    uEnvInit sh noMem env pfx cfile = some (0, imported pfx env vars) := by
  rw [uEnvInit, hstat, if_neg (by decide), if_neg (Nat.not_le.mpr hshort), hout]
  dsimp only
  rw [readLines_entries hvars _ (Nat.le_refl _), initLoop_entries heq hvars hmem]

/-- Two variables, one of them in the namespace. -/
theorem uEnvInit_imports_two :
    uEnvInit (printing [(['P', 'A'], ['x']), (['H'], ['/'])]) [] (fun _ => none) ['P'] ['c'] =
      some (0, imported ['P'] (fun _ => none) [(['P', 'A'], ['x']), (['H'], ['/'])]) := by
  refine uEnvInit_imports _ [] _ ['P'] ['c'] (by decide) _ (fun v hv => ?_)
    (fun b hb => nomatch hb) rfl (by decide) rfl
  simp only [List.mem_cons, List.not_mem_nil, or_false] at hv
  rcases hv with rfl | rfl <;> exact ⟨by decide, by decide, by decide, by decide, by decide⟩

end

end Libu.Env
