/-
# Converting a text

The lexer of `conv2/tokenizer.l` and `do_all` of `conv2/main.c`. The default rule
of the lexer echoes to the stream that `do_all` prints to. Repairing a word
writes into the lexer's buffer only inside the token, which the lexer has passed
by then.
-/

import SearchTools.Conv2.Buffer
import SearchTools.Library.MaximalMunch

namespace SearchTools.Conv2

open SearchTools.Library

/-! ## The lexer -/

inductive TokenType
  | alnum
  | alpha
  | digit
  | punct
  | blank
  | rus
  deriving DecidableEq, Repr

/-- The punctuation of the rules: that of ASCII without `?`. -/
def isPunct (b : UInt8) : Bool :=
  (bytes "!\"#$%&'()*+,-./:;<=>@[\\]^_`\x7b|\x7d~").contains b

/-- The class of the last rule. -/
def isRus (b : UInt8) : Bool :=
  !(isalpha b || isdigit b || isPunct b || isblank b || b == 13 || b == 10)

def rules : List (Rule TokenType) :=
  [⟨.many isalpha, .alpha⟩,
   ⟨.many isdigit, .digit⟩,
   ⟨.lit [0xC2, 0xBB], .punct⟩, -- `»`
   ⟨.lit [0xC2, 0xAB], .punct⟩, -- `«`
   ⟨.many isPunct, .punct⟩,
   ⟨.many isblank, .blank⟩,
   ⟨.lit [13, 10], .blank⟩,
   ⟨.lit [10], .blank⟩,
   ⟨.many isRus, .rus⟩]

/-- A CR without its LF is echoed, and no other byte is. -/
theorem select_eq_none_iff_cr {b : UInt8} {s : Bytes} :
    select rules (b :: s) = none ↔ b = 13 ∧ s.head? ≠ some 10 := by
  rw [select_eq_none_iff]
  constructor
  · intro hmunch
    have hmany : ∀ cls type, ⟨.many cls, type⟩ ∈ rules → cls b = false := by
      intro cls type hmem
      have hzero := hmunch _ hmem
      simpa [Pattern.munch] using hzero
    have halpha := hmany isalpha .alpha (by simp [rules])
    have hdigit := hmany isdigit .digit (by simp [rules])
    have hpunct := hmany isPunct .punct (by simp [rules])
    have hblank := hmany isblank .blank (by simp [rules])
    have hrus := hmany isRus .rus (by simp [rules])
    have hlf := hmunch ⟨.lit [10], .blank⟩ (by simp [rules])
    have hcrlf := hmunch ⟨.lit [13, 10], .blank⟩ (by simp [rules])
    have hb : b = 13 := by
      by_contra hcr
      have hb : b = 10 := by
        simpa [isRus, halpha, hdigit, hpunct, hblank, hcr] using hrus
      simp [Pattern.munch, hb] at hlf
    refine ⟨hb, fun hhead => ?_⟩
    obtain ⟨s', rfl⟩ := List.head?_eq_some_iff.mp hhead
    simp [Pattern.munch, hb] at hcrlf
  · rintro ⟨rfl, hhead⟩
    have hmany : ∀ cls : UInt8 → Bool, cls 13 = false → (Pattern.many cls).munch (13 :: s) = 0 :=
      fun cls hcls => Pattern.munch_many_cons hcls s
    have hcrlf : (Pattern.lit [13, 10]).munch (13 :: s) = 0 := by
      cases s with
      | nil => rfl
      | cons c s =>
          have hc : c ≠ 10 := fun heq => hhead (congrArg some heq)
          simp [Pattern.munch, Ne.symm hc]
    intro r hr
    simp only [rules, List.mem_cons, List.not_mem_nil, or_false] at hr
    rcases hr with rfl | rfl | rfl | rfl | rfl | rfl | rfl | rfl | rfl
    · exact hmany isalpha (by decide)
    · exact hmany isdigit (by decide)
    · simp [Pattern.munch]
    · simp [Pattern.munch]
    · exact hmany isPunct (by decide)
    · exact hmany isblank (by decide)
    · exact hcrlf
    · simp [Pattern.munch]
    · exact hmany isRus (by decide)

/-- A guillemet is shorter than the run that begins with it, or is the run. -/
theorem munch_guillemet (second : UInt8) (hsecond : isRus second = true) {run rest : Bytes}
    (hne : run ≠ []) (hrest : ∀ b ∈ rest.head?, isRus b = false) (hrun : run ≠ [0xC2, second]) :
    (Pattern.lit [0xC2, second]).munch (run ++ rest) < run.length := by
  rw [Pattern.munch]
  split
  next hprefix =>
    have hprefix' : [0xC2, second] <+: run ++ rest := List.isPrefixOf_iff_prefix.mp hprefix
    cases run with
    | nil => exact absurd rfl hne
    | cons a run =>
    cases run with
    | nil =>
        obtain ⟨b, hb⟩ : ∃ b, rest.head? = some b ∧ second = b := by
          rw [List.cons_append, List.cons_prefix_cons, List.nil_append] at hprefix'
          obtain ⟨more, hmore⟩ := hprefix'.2
          exact ⟨second, by rw [← hmore]; rfl, rfl⟩
        rw [hb.2, hrest b hb.1] at hsecond
        cases hsecond
    | cons b run =>
    cases run with
    | nil =>
        rw [List.cons_append, List.cons_append, List.cons_prefix_cons, List.cons_prefix_cons]
          at hprefix'
        exact absurd (by rw [hprefix'.1, hprefix'.2.1]) hrun
    | cons _ _ => exact Nat.succ_le_succ (Nat.succ_le_succ (Nat.succ_pos _))
  next => exact List.length_pos_iff.mpr hne

/-- A run of bytes of the last class is one token: a `RUS` token, unless it is a guillemet
and nothing else. -/
theorem select_run {run rest : Bytes} (hne : run ≠ []) (hrun : ∀ b ∈ run, isRus b = true)
    (hrest : ∀ b ∈ rest.head?, isRus b = false) :
    select rules (run ++ rest) =
      some (if run = [0xC2, 0xBB] ∨ run = [0xC2, 0xAB] then .punct else .rus, run.length) := by
  have hpos : 0 < run.length := List.length_pos_iff.mpr hne
  have hlast : (Pattern.many isRus).munch (run ++ rest) = run.length :=
    Pattern.munch_many_append hrun hrest
  obtain ⟨b, run', rfl⟩ := List.exists_cons_of_ne_nil hne
  have hb := hrun b List.mem_cons_self
  simp only [isRus, Bool.not_eq_true', Bool.or_eq_false_iff, beq_eq_false_iff_ne] at hb
  obtain ⟨⟨⟨⟨⟨halpha, hdigit⟩, hpunct⟩, hblank⟩, hcr⟩, hlf⟩ := hb
  have hzero : ∀ cls : UInt8 → Bool, cls b = false →
      (Pattern.many cls).munch (b :: run' ++ rest) = 0 :=
    fun cls hcls => Pattern.munch_many_cons hcls (run' ++ rest)
  have heol : (Pattern.lit [13, 10]).munch (b :: run' ++ rest) = 0 ∧
      (Pattern.lit [10]).munch (b :: run' ++ rest) = 0 := by
    simp [Pattern.munch, Ne.symm hcr, Ne.symm hlf]
  by_cases hright : b :: run' = [0xC2, 0xBB]
  · have hfirst : (Pattern.lit [0xC2, 0xBB]).munch (b :: run' ++ rest) = 2 := by
      simp [hright, Pattern.munch]
    have hsecond : (Pattern.lit [0xC2, 0xAB]).munch (b :: run' ++ rest) = 0 := by
      simp [hright, Pattern.munch]
    have hlength : (b :: run').length = 2 := by rw [hright]; rfl
    rw [hlength] at hlast
    rw [if_pos (Or.inl hright), hlength]
    simp only [rules, select, hzero, halpha, hdigit, hpunct, hblank, heol, hfirst, hsecond, hlast]
    rfl
  by_cases hleft : b :: run' = [0xC2, 0xAB]
  · have hfirst : (Pattern.lit [0xC2, 0xBB]).munch (b :: run' ++ rest) = 0 := by
      simp [hleft, Pattern.munch]
    have hsecond : (Pattern.lit [0xC2, 0xAB]).munch (b :: run' ++ rest) = 2 := by
      simp [hleft, Pattern.munch]
    have hlength : (b :: run').length = 2 := by rw [hleft]; rfl
    rw [hlength] at hlast
    rw [if_pos (Or.inr hleft), hlength]
    simp only [rules, select, hzero, halpha, hdigit, hpunct, hblank, heol, hfirst, hsecond, hlast]
    rfl
  · have hfirst := munch_guillemet 0xBB (by decide) hne hrest hright
    have hsecond := munch_guillemet 0xAB (by decide) hne hrest hleft
    rw [if_neg (not_or.mpr ⟨hright, hleft⟩)]
    simp only [rules, select, hzero, halpha, hdigit, hpunct, hblank, heol, hlast,
      if_neg (Nat.ne_of_gt hpos), if_pos hpos, if_pos hfirst, if_pos hsecond]

/-- A `RUS` token is the whole run of bytes of the last class at the place where it begins,
and not a guillemet. -/
theorem select_eq_rus_iff {s : Bytes} {n : ℕ} :
    select rules s = some (.rus, n) ↔ 0 < n ∧ s.take n = s.takeWhile isRus ∧
      n = (s.takeWhile isRus).length ∧ s.take n ≠ [0xC2, 0xBB] ∧ s.take n ≠ [0xC2, 0xAB] := by
  have htake : s.take (s.takeWhile isRus).length = s.takeWhile isRus :=
    (List.prefix_iff_eq_take.mp (List.takeWhile_prefix isRus)).symm
  have hrun : 0 < (s.takeWhile isRus).length →
      select rules s = some (if s.takeWhile isRus = [0xC2, 0xBB] ∨ s.takeWhile isRus = [0xC2, 0xAB]
        then .punct else .rus, (s.takeWhile isRus).length) := by
    intro hpos
    have hselect := @select_run (s.takeWhile isRus) (s.dropWhile isRus)
      (List.length_pos_iff.mp hpos)
      (fun b hb => List.mem_takeWhile_imp hb) fun b hb => by
        have hnot := List.head?_dropWhile_not isRus s
        rw [Option.mem_def.mp hb] at hnot
        simpa using hnot
    rwa [List.takeWhile_append_dropWhile] at hselect
  constructor
  · intro h
    obtain ⟨hpos, earlier, r, later, hrules, htoken, hn, -⟩ := select_eq_some h
    have hr : r ∈ rules := by rw [hrules]; simp
    obtain rfl : r = ⟨.many isRus, .rus⟩ := by
      simp only [rules, List.mem_cons, List.not_mem_nil, or_false] at hr
      rcases hr with rfl | rfl | rfl | rfl | rfl | rfl | rfl | rfl | rfl <;>
        first | rfl | cases htoken
    obtain rfl : (s.takeWhile isRus).length = n := hn
    rw [hrun hpos] at h
    have hlast := (Prod.mk.inj (Option.some.inj h)).1
    rw [htake, ← not_or]
    refine ⟨hpos, rfl, rfl, fun hguillemet => ?_⟩
    rw [if_pos hguillemet] at hlast
    cases hlast
  · rintro ⟨hpos, -, rfl, hright, hleft⟩
    rw [htake] at hright hleft
    rw [hrun hpos, if_neg (not_or.mpr ⟨hright, hleft⟩)]

/-! ## The program -/

/-- The `switch` of `do_all`: what is printed for a token. -/
def printToken (glib : Glib) (h : Hunhandle) (result : TokenType) (state : Bytes) :
    Except Fault Bytes :=
  match result with
  | .rus => cstr <$> tryConvert glib h state
  | _ => .ok (cstr state)

/-- The loop over the tokens, on the rest of the input and what has been written. -/
def doAllLoop (glib : Glib) (h : Hunhandle) : ℕ → Bytes → Bytes → Except Fault Bytes
  | 0, _, _ => .error .outOfFuel
  | fuel + 1, input, out =>
      match yylex rules input with
      | (echoed, none) => .ok (out ++ echoed)
      | (echoed, some (result, state, rest)) => do
          let printed ← printToken glib h result state
          doAllLoop glib h fuel rest (out ++ echoed ++ printed)

/-- The dictionary files as `do_all` finds them. -/
structure Dictionary where
  affOpens : Bool
  dicOpens : Bool
  /-- `Hunspell_create`. -/
  handle : Option Hunhandle

/-- `do_all`: what it writes to the standard output. -/
def doAll (glib : Glib) (dict : Dictionary) (input : Bytes) : Except Fault Bytes :=
  if !dict.affOpens then .ok []
  else if !dict.dicOpens then .ok []
  else
    match dict.handle with
    | none => .ok []
    | some h => doAllLoop glib h (input.length + 1) input []

/-! ## Failed conversions -/

/-- When a conversion fails, `try_convert` returns the word it was called with,
and `do_all` prints it, exactly when no `?` of the word has another byte before it. -/
theorem tryConvert_failed_iff {glib : Glib} (hsized : glib.Sized) {h : Hunhandle} {word : Bytes}
    (hne : word ≠ []) (hzero : 0 ∉ word) (hspell : h.spell word = false)
    (herror : ∃ w ∈ Strtok.tokens isQuestion word, convertSegment glib w = none) :
    (tryConvert glib h word = .ok word ∧ printToken glib h .rus word = .ok word) ↔
      63 ∉ word.dropWhile isQuestion := by
  obtain ⟨held, hheld, hiff⟩ := convertWord_failed hsized hzero
    (word.getLast hne == 63) herror
  have hconvert : tryConvert glib h word = .ok held := by
    rw [tryConvert, List.getLast?_eq_some_getLast hne]
    simp only [hspell, Bool.false_eq_true, if_false, hheld, bind, Except.bind]
  rw [← hiff, printToken, hconvert]
  constructor
  · rintro ⟨heq, -⟩
    exact Except.ok.inj heq
  · rintro rfl
    exact ⟨rfl, congrArg Except.ok (cstr_eq_self hzero)⟩

theorem tryConvert_failed_iff_sample :
    (tryConvert glib rejecting (utf8 ['Д', 'Д']) = .ok (utf8 ['Д', 'Д']) ∧
      printToken glib rejecting .rus (utf8 ['Д', 'Д']) = .ok (utf8 ['Д', 'Д'])) ↔
      63 ∉ (utf8 ['Д', 'Д']).dropWhile isQuestion :=
  tryConvert_failed_iff glib_sized (by decide) (by decide) rfl
    ⟨utf8 ['Д', 'Д'], by decide, by decide⟩

/-- Correctly encoded letters around a `?` are an error of the second conversion,
and only the first segment is returned. -/
theorem tryConvert_cuts :
    (∃ w ∈ Strtok.tokens isQuestion (utf8 ['Д', 'Д', '?', 'Д']), convertSegment glib w = none) ∧
      tryConvert glib rejecting (utf8 ['Д', 'Д', '?', 'Д']) = .ok (utf8 ['Д', 'Д']) ∧
      utf8 ['Д', 'Д'] ≠ utf8 ['Д', 'Д', '?', 'Д'] := by
  decide

/-! ## The output -/

section Output

variable (glib : Glib) (h : Hunhandle)

/-- A piece of the input as it is to appear in the output. -/
def repairPiece : Piece TokenType → Except Fault Bytes
  | .token .rus text => tryConvert glib h text
  | piece => .ok piece.text

variable {glib h}

theorem printToken_eq {text : Bytes} (hzero : 0 ∉ text) (result : TokenType) :
    printToken glib h result text = repairPiece glib h (.token result text) := by
  have hself : cstr text = text := cstr_eq_self hzero
  cases result with
  | rus =>
      rw [printToken, repairPiece]
      cases hret : tryConvert glib h text with
      | error fault => rfl
      | ok ret => exact congrArg Except.ok (cstr_eq_self (zero_notMem_tryConvert hzero hret))
  | _ => exact congrArg Except.ok hself

end Output

end SearchTools.Conv2
