/-
# The token classes

The rules of the lexer say which token is read at one position. Here is what they
make of a whole string in which every CR has its LF: maximal runs of digits, of
punctuation, of blanks and of other bytes, and single line ends. A run of other
bytes is of the type `ALPHA` if it is all ASCII letters: both rules for it match
to the same end then, and the first one is taken.
-/

import Mathlib.Data.List.Basic
import SearchTools.Stemmer2.Tok

namespace SearchTools.Stemmer2

open SearchTools.Library

/-! ## Kinds of bytes -/

inductive Kind
  | digit
  | punct
  | blank
  | eol
  | rest
  deriving DecidableEq, Repr

def kindOf (b : UInt8) : Kind :=
  if isdigit b then .digit
  else if ispunct b then .punct
  else if isblank b then .blank
  else if b = 13 ∨ b = 10 then .eol
  else .rest

/-- The type of a token of a kind. -/
def Kind.type : Kind → Bytes → TokenType
  | digit, _ => .digit
  | punct, _ => .punct
  | blank, _ => .blank
  | eol, _ => .blank
  | rest, word => if word.all isalpha then .alpha else .rus

/-- A token is some bytes of a kind; a line end is one LF, or CR LF. -/
structure Kind.Has (k : Kind) (tok : Token) : Prop where
  ne_nil : tok.word ≠ []
  bytes : ∀ b ∈ tok.word, kindOf b = k
  type : tok.type = k.type tok.word
  eol : k = .eol → tok.word = [10] ∨ tok.word = [13, 10]

/-- The tokens are the string, each is of one of the kinds, and those that are not
line ends are maximal: no byte of the kind stands before or after them. -/
structure IsSegmentation (s : Bytes) (toks : List Token) : Prop where
  whole : toks.flatMap Token.word = s
  kinds : ∀ tok ∈ toks, ∃ k : Kind, k.Has tok
  maximal : ∀ before tok after, toks = before ++ tok :: after → ∀ k : Kind, k.Has tok → k ≠ .eol →
    (∀ b ∈ (before.flatMap Token.word).getLast?, kindOf b ≠ k) ∧
      ∀ b ∈ (after.flatMap Token.word).head?, kindOf b ≠ k

/-- The classes of the rules, by kinds. -/
theorem classes_eq (b : UInt8) :
    isdigit b = decide (kindOf b = .digit) ∧ ispunct b = decide (kindOf b = .punct) ∧
      isblank b = decide (kindOf b = .blank) ∧ isRus b = decide (kindOf b = .rest) ∧
      (isalpha b = true → kindOf b = .rest) ∧ (kindOf b = .eol ↔ b = 13 ∨ b = 10) := by
  revert b
  apply forall_byte
  decide +kernel

theorem isdigit_eq (b : UInt8) : isdigit b = decide (kindOf b = .digit) := (classes_eq b).1

theorem ispunct_eq (b : UInt8) : ispunct b = decide (kindOf b = .punct) := (classes_eq b).2.1

theorem isblank_eq (b : UInt8) : isblank b = decide (kindOf b = .blank) := (classes_eq b).2.2.1

theorem isRus_eq (b : UInt8) : isRus b = decide (kindOf b = .rest) := (classes_eq b).2.2.2.1

theorem kindOf_of_isalpha {b : UInt8} (hb : isalpha b = true) : kindOf b = .rest :=
  (classes_eq b).2.2.2.2.1 hb

theorem kindOf_eq_eol_iff {b : UInt8} : kindOf b = .eol ↔ b = 13 ∨ b = 10 :=
  (classes_eq b).2.2.2.2.2

/-- A token is of one kind. -/
theorem Kind.Has.unique {k k' : Kind} {tok : Token} (h : k.Has tok) (h' : k'.Has tok) : k = k' := by
  rcases List.exists_mem_of_ne_nil _ h.ne_nil with ⟨b, hb⟩
  rw [← h.bytes b hb, h'.bytes b hb]

/-! ## From the left -/

/-- No byte of the kind follows, unless the token is a line end. -/
def Kind.Ends (k : Kind) (s : Bytes) : Prop := k ≠ .eol → ∀ b ∈ s.head?, kindOf b ≠ k

/-- A segmentation, token by token from the left. -/
inductive Segmented : Bytes → List Token → Prop
  | nil : Segmented [] []
  | cons {k : Kind} {tok s toks} : k.Has tok → k.Ends s → Segmented s toks →
      Segmented (tok.word ++ s) (tok :: toks)

theorem Segmented.whole {s : Bytes} {toks : List Token} (h : Segmented s toks) :
    toks.flatMap Token.word = s := by
  induction h with
  | nil => rfl
  | cons _ _ _ ih => rw [List.flatMap_cons, ih]

theorem Segmented.kinds {s : Bytes} {toks : List Token} (h : Segmented s toks) :
    ∀ tok ∈ toks, ∃ k : Kind, k.Has tok := by
  induction h with
  | nil =>
      intro tok htok
      cases htok
  | cons hhas _ _ ih => exact List.forall_mem_cons.mpr ⟨⟨_, hhas⟩, ih⟩

/-- A token that ends before another one is of another kind. -/
theorem Kind.Ends.ne {k₀ k : Kind} {tok : Token} {s : Bytes} (hends : k₀.Ends (tok.word ++ s))
    (hk : k.Has tok) (hrun : k ≠ .eol) : k₀ ≠ k := by
  intro heq
  rcases List.exists_cons_of_ne_nil hk.ne_nil with ⟨b, word, hword⟩
  have hsame : kindOf b = k := hk.bytes b (by rw [hword]; exact List.mem_cons_self)
  rw [hword] at hends
  exact hends (heq ▸ hrun) b rfl (hsame.trans heq.symm)

/-- The byte before a token ends the token before it, so it is of another kind. -/
theorem Segmented.maximal {s : Bytes} {toks : List Token} (h : Segmented s toks)
    {before after : List Token} {tok : Token} (htoks : toks = before ++ tok :: after) {k : Kind}
    (hk : k.Has tok) (hrun : k ≠ .eol) :
    (∀ b ∈ (before.flatMap Token.word).getLast?, kindOf b ≠ k) ∧
      ∀ b ∈ (after.flatMap Token.word).head?, kindOf b ≠ k := by
  induction h generalizing before with
  | nil => cases before <;> cases htoks
  | @cons k₀ tok₀ s toks hhas hends hrest ih =>
      cases before with
      | nil =>
          rcases List.cons.inj htoks with ⟨rfl, rfl⟩
          obtain rfl := hk.unique hhas
          rw [hrest.whole]
          refine ⟨?_, hends hrun⟩
          intro b hb
          cases hb
      | cons first before =>
          have hfirst : tok₀ = first := (List.cons.inj htoks).1
          have htoks' : toks = before ++ tok :: after := (List.cons.inj htoks).2
          rcases ih htoks' with ⟨hleft, hright⟩
          refine ⟨?_, hright⟩
          intro b hb hkind
          rw [List.flatMap_cons, ← hfirst] at hb
          cases hwords : before.flatMap Token.word with
          | nil =>
              rw [hwords, List.append_nil] at hb
              rw [← hrest.whole, htoks', List.flatMap_append, hwords, List.flatMap_cons,
                List.nil_append] at hends
              apply hends.ne hk hrun
              rw [← hhas.bytes b (List.mem_of_getLast? hb), hkind]
          | cons b' words =>
              rw [hwords, List.getLast?_append_cons, ← hwords] at hb
              exact hleft b hb hkind

theorem IsSegmentation.segmented {s : Bytes} {toks : List Token} (h : IsSegmentation s toks) :
    Segmented s toks := by
  induction toks generalizing s with
  | nil =>
      obtain rfl := h.whole
      exact .nil
  | cons tok toks ih =>
      have hwhole := h.whole
      rw [List.flatMap_cons] at hwhole
      rcases List.forall_mem_cons.mp h.kinds with ⟨⟨k, hk⟩, hkinds⟩
      have hrest : IsSegmentation (toks.flatMap Token.word) toks := {
        whole := rfl
        kinds := hkinds
        maximal := by
          intro before tok' after htoks k' hk' hrun
          rcases h.maximal (tok :: before) tok' after (congrArg _ htoks) k' hk' hrun with
            ⟨hleft, hright⟩
          refine ⟨?_, hright⟩
          intro b hb
          apply hleft b
          rw [List.flatMap_cons]
          exact List.mem_getLast?_append_of_mem_getLast? hb }
      rw [← hwhole]
      exact .cons hk (fun hrun => (h.maximal [] tok toks rfl k hk hrun).2) (ih hrest)

theorem isSegmentation_iff {s : Bytes} {toks : List Token} :
    IsSegmentation s toks ↔ Segmented s toks := by
  constructor
  · exact IsSegmentation.segmented
  · intro h
    exact ⟨h.whole, h.kinds, fun before tok after htoks k hk hrun => h.maximal htoks hk hrun⟩

/-! ## The lexer -/

/-- The rules for other kinds than that of the first byte match nothing. -/
theorem munch_eq_zero (b : UInt8) (s : Bytes) :
    (kindOf b ≠ .rest → (Pattern.many isalpha).munch (b :: s) = 0 ∧
      (Pattern.many isRus).munch (b :: s) = 0) ∧
    (kindOf b ≠ .digit → (Pattern.many isdigit).munch (b :: s) = 0) ∧
    (kindOf b ≠ .punct → (Pattern.many ispunct).munch (b :: s) = 0) ∧
    (kindOf b ≠ .blank → (Pattern.many isblank).munch (b :: s) = 0) ∧
    (kindOf b ≠ .eol → (Pattern.lit [13, 10]).munch (b :: s) = 0 ∧
      (Pattern.lit [10]).munch (b :: s) = 0) := by
  refine ⟨?_, ?_, ?_, ?_, ?_⟩
  · intro hb
    have halpha : isalpha b = false := by
      apply eq_false_of_ne_true
      intro h
      exact hb (kindOf_of_isalpha h)
    have hrus : isRus b = false := by
      rw [isRus_eq]
      exact decide_eq_false hb
    exact ⟨Pattern.munch_many_cons halpha s, Pattern.munch_many_cons hrus s⟩
  · intro hb
    apply Pattern.munch_many_cons
    rw [isdigit_eq]
    exact decide_eq_false hb
  · intro hb
    apply Pattern.munch_many_cons
    rw [ispunct_eq]
    exact decide_eq_false hb
  · intro hb
    apply Pattern.munch_many_cons
    rw [isblank_eq]
    exact decide_eq_false hb
  · intro hb
    rw [Ne, kindOf_eq_eol_iff, not_or] at hb
    have hcr : ¬ 13 = b := fun h => hb.1 h.symm
    have hlf : ¬ 10 = b := fun h => hb.2 h.symm
    simp [Pattern.munch, List.isPrefixOf, hcr, hlf]

/-- The rule for a kind takes a token of it whole. -/
theorem Kind.Has.munch_eq {k : Kind} {tok : Token} {s : Bytes} (hhas : k.Has tok)
    (hends : k.Ends s) (hrun : k ≠ .eol) {cls : UInt8 → Bool}
    (hcls : ∀ b, cls b = decide (kindOf b = k)) :
    (Pattern.many cls).munch (tok.word ++ s) = tok.word.length := by
  apply Pattern.munch_many_append
  · intro b hb
    rw [hcls]
    exact decide_eq_true (hhas.bytes b hb)
  · intro b hb
    rw [hcls]
    exact decide_eq_false (hends hrun b hb)

/-- The token that a segmentation begins with is the one that the rules select: the
rules for the other kinds match nothing there. -/
theorem Kind.Has.select_eq {k : Kind} {tok : Token} {s : Bytes} (hhas : k.Has tok)
    (hends : k.Ends s) :
    select rules (tok.word ++ s) = some (tok.type, tok.word.length) := by
  have hne := hhas.ne_nil
  have hpos : 0 < tok.word.length := List.length_pos_iff.mpr hne
  rcases List.exists_cons_of_ne_nil hne with ⟨b, word, hword⟩
  have hb : kindOf b = k := hhas.bytes b (by rw [hword]; exact List.mem_cons_self)
  have hzero := munch_eq_zero b (word ++ s)
  rw [← List.cons_append, ← hword, hb] at hzero
  rcases hzero with ⟨hrest, hdigit, hpunct, hblank, heol⟩
  rw [hhas.type]
  cases k with
  | digit =>
      have hmunch := hhas.munch_eq hends (by decide) isdigit_eq
      simp [rules, select, hrest, hpunct, hblank, heol, hmunch, hpos, hne, Kind.type]
  | punct =>
      have hmunch := hhas.munch_eq hends (by decide) ispunct_eq
      simp [rules, select, hrest, hdigit, hblank, heol, hmunch, hpos, hne, Kind.type]
  | blank =>
      have hmunch := hhas.munch_eq hends (by decide) isblank_eq
      simp [rules, select, hrest, hdigit, hpunct, heol, hmunch, hpos, hne, Kind.type]
  | eol =>
      rcases hhas.eol rfl with hlf | hcrlf
      · have hmunch : (Pattern.lit [10]).munch (tok.word ++ s) = tok.word.length := by
          rw [hlf]
          simp [Pattern.munch]
        have hother : (Pattern.lit [13, 10]).munch (tok.word ++ s) = 0 := by
          rw [hlf]
          simp [Pattern.munch]
        simp [rules, select, hrest, hdigit, hpunct, hblank, hmunch, hother, hpos, hne, Kind.type]
      · have hmunch : (Pattern.lit [13, 10]).munch (tok.word ++ s) = tok.word.length := by
          rw [hcrlf]
          simp [Pattern.munch]
        have hother : (Pattern.lit [10]).munch (tok.word ++ s) = 0 := by
          rw [hcrlf]
          simp [Pattern.munch]
        simp [rules, select, hrest, hdigit, hpunct, hblank, hmunch, hother, hpos, hne, Kind.type]
  | rest =>
      have hmunch := hhas.munch_eq hends (by decide) isRus_eq
      by_cases halpha : tok.word.all isalpha = true
      · -- Both rules for letters match the whole token: the first one is taken.
        have hletters : (Pattern.many isalpha).munch (tok.word ++ s) = tok.word.length := by
          apply Pattern.munch_many_append (List.all_eq_true.mp halpha)
          intro b hb
          apply eq_false_of_ne_true
          intro h
          exact hends (by decide) b hb (kindOf_of_isalpha h)
        have htype : Kind.rest.type tok.word = .alpha := if_pos halpha
        simp [rules, select, hdigit, hpunct, hblank, heol, hmunch, hletters, hpos, hne, htype]
      · -- The first rule stops before a byte that is no letter.
        have hletters := Pattern.munch_many_lt (mt List.all_eq_true.mpr halpha) s
        have htype : Kind.rest.type tok.word = .rus := if_neg halpha
        simp [rules, select, hdigit, hpunct, hblank, heol, hmunch, hletters, hpos, hne, htype]

/-- The pieces of a string are the tokens of its segmentation. -/
theorem Segmented.lexes {s : Bytes} {toks : List Token} (h : Segmented s toks) :
    Lexes rules s (toks.map fun tok => .token tok.type tok.word) := by
  induction h with
  | nil => exact .nil
  | @cons k tok s toks hhas hends _ ih =>
      have hselects := selects_of_select (hhas.select_eq hends)
      have hdrop : (tok.word ++ s).drop tok.word.length = s := List.drop_left
      have htake : (tok.word ++ s).take tok.word.length = tok.word := List.take_left
      have hlexes := Lexes.token hselects (hdrop.symm ▸ ih)
      rw [htake] at hlexes
      exact hlexes

theorem tokens_map_token (toks : List Token) :
    tokens (toks.map fun tok => .token tok.type tok.word) = toks := by
  induction toks with
  | nil => rfl
  | cons tok toks ih => exact congrArg (tok :: ·) ih

/-! ## Existence -/

/-- A line end is a token. -/
theorem exists_first_eol {b : UInt8} {s : Bytes} (heol : kindOf b = .eol)
    (hcrlf : IsCrLf (b :: s)) :
    ∃ (tok : Token) (rest : Bytes), b :: s = tok.word ++ rest ∧ Kind.eol.Has tok ∧
      IsCrLf rest := by
  rcases isCrLf_cons.mp hcrlf with ⟨hcr, hrest⟩
  rcases kindOf_eq_eol_iff.mp heol with hb | hb
  · rcases List.head?_eq_some_iff.mp (hcr hb) with ⟨rest, hs⟩
    rw [hs] at hrest ⊢
    refine ⟨⟨.blank, [13, 10]⟩, rest, ?_, ?_, (isCrLf_cons.mp hrest).2⟩
    · rw [hb]
      rfl
    · exact ⟨by simp, by simp [kindOf_eq_eol_iff], rfl, fun _ => Or.inr rfl⟩
  · refine ⟨⟨.blank, [10]⟩, s, ?_, ?_, hrest⟩
    · rw [hb]
      rfl
    · exact ⟨by simp, by simp [kindOf_eq_eol_iff], rfl, fun _ => Or.inl rfl⟩

/-- The first bytes of one kind are a token. -/
theorem exists_first_run {b : UInt8} {s : Bytes} (heol : kindOf b ≠ .eol)
    (hcrlf : IsCrLf (b :: s)) :
    ∃ (tok : Token) (rest : Bytes), b :: s = tok.word ++ rest ∧ (kindOf b).Has tok ∧
      (kindOf b).Ends rest ∧ IsCrLf rest := by
  let word := (b :: s).takeWhile (kindOf · = kindOf b)
  let rest := (b :: s).dropWhile (kindOf · = kindOf b)
  have hword : b :: s = word ++ rest := List.takeWhile_append_dropWhile.symm
  have hkind : ∀ b' ∈ word, kindOf b' = kindOf b := fun b' hb' => by
    simpa using List.mem_takeWhile_imp hb'
  have hcr : 13 ∉ word := fun hmem => heol ((hkind 13 hmem).symm.trans (by decide))
  refine ⟨⟨(kindOf b).type word, word⟩, rest, hword, ?_, ?_, ?_⟩
  · refine ⟨?_, hkind, rfl, fun hk => absurd hk heol⟩
    simp [word]
  · intro _ b' hb'
    have hnot := List.head?_dropWhile_not (kindOf · = kindOf b) (b :: s)
    rw [Option.mem_def.mp hb'] at hnot
    simpa using hnot
  · rw [hword, isCrLf_append hcr] at hcrlf
    exact hcrlf

/-- The token at the beginning of a string. -/
theorem exists_first {s : Bytes} (hne : s ≠ []) (hcrlf : IsCrLf s) :
    ∃ (k : Kind) (tok : Token) (rest : Bytes), s = tok.word ++ rest ∧ k.Has tok ∧ k.Ends rest ∧
      IsCrLf rest := by
  rcases List.exists_cons_of_ne_nil hne with ⟨b, s', hs⟩
  rw [hs] at hcrlf ⊢
  by_cases heol : kindOf b = .eol
  · rcases exists_first_eol heol hcrlf with ⟨tok, rest, hword, hhas, hrest⟩
    exact ⟨.eol, tok, rest, hword, hhas, fun hrun => absurd rfl hrun, hrest⟩
  · rcases exists_first_run heol hcrlf with ⟨tok, rest, hword, hhas, hends, hrest⟩
    exact ⟨_, tok, rest, hword, hhas, hends, hrest⟩

/-- A string in which every CR has its LF has a segmentation. -/
theorem exists_segmented {s : Bytes} (hcrlf : IsCrLf s) : ∃ toks, Segmented s toks := by
  induction hlength : s.length using Nat.strong_induction_on generalizing s with
  | _ length ih =>
      by_cases hnil : s = []
      · rw [hnil]
        exact ⟨[], .nil⟩
      · rcases exists_first hnil hcrlf with ⟨k, tok, rest, hs, hhas, hends, hrest⟩
        have hpos : 0 < tok.word.length := List.length_pos_iff.mpr hhas.ne_nil
        have hshorter : rest.length < length := by
          rw [← hlength, hs, List.length_append]
          omega
        rcases ih rest.length hshorter hrest rfl with ⟨toks, htoks⟩
        rw [hs]
        exact ⟨tok :: toks, .cons hhas hends htoks⟩

/-- Of a string in which every CR has its LF, `next` delivers the tokens of its one
segmentation. -/
theorem drains_segmentation {s : Bytes} (hzero : 0 ∉ s) (hcrlf : IsCrLf s) :
    ∃ toks, (Tokenizer.scan s).Drains toks ∧
      ∀ toks', IsSegmentation s toks' ↔ toks' = toks := by
  rcases exists_segmented hcrlf with ⟨toks, htoks⟩
  have hscan : Tokenizer.scan s = ⟨s⟩ := congrArg Tokenizer.mk (cstr_eq_self hzero)
  refine ⟨toks, ?_, ?_⟩
  · have hdrains := drains_tokens htoks.lexes
    rwa [tokens_map_token, ← hscan] at hdrains
  · intro toks'
    rw [isSegmentation_iff]
    constructor
    · intro h
      have hpieces := congrArg tokens (h.lexes.unique htoks.lexes)
      rwa [tokens_map_token, tokens_map_token] at hpieces
    · intro h
      rw [h]
      exact htoks

/-- Letters of both alphabets in a row, a digit, and a line end. -/
theorem drains_segmentation_sample :
    ∃ toks, (Tokenizer.scan [97, 0xD1, 0x8F, 49, 13, 10]).Drains toks ∧
      ∀ toks', IsSegmentation [97, 0xD1, 0x8F, 49, 13, 10] toks' ↔ toks' = toks := by
  apply drains_segmentation (by decide)
  have hnil : IsCrLf [] := by
    intro before after hs
    simp at hs
  simp [isCrLf_cons, hnil]

end SearchTools.Stemmer2
