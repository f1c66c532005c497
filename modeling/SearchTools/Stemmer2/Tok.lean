/-
# The tokenizer

The lexer of `stemmer2/tokenizer.l` and the class `Tokenizer` of `tok.cpp`. The
lexer's buffer is global, so there is one tokenizer at a time; its state is the
rest of the scanned string.
-/

import SearchTools.Library.CString
import SearchTools.Library.MaximalMunch

namespace SearchTools.Stemmer2

open SearchTools.Library

inductive TokenType
  | alnum
  | alpha
  | digit
  | punct
  | blank
  | rus
  deriving DecidableEq, Repr

structure Token where
  type : TokenType
  word : Bytes
  deriving DecidableEq, Repr

/-- The class of the last rule. -/
def isRus (b : UInt8) : Bool := !(isblank b || ispunct b || isdigit b || b == 13 || b == 10)

def rules : List (Rule TokenType) :=
  [⟨.many isalpha, .alpha⟩,
   ⟨.many isdigit, .digit⟩,
   ⟨.many ispunct, .punct⟩,
   ⟨.many isblank, .blank⟩,
   ⟨.lit [13, 10], .blank⟩,
   ⟨.lit [10], .blank⟩,
   ⟨.many isRus, .rus⟩]

structure Tokenizer where
  bufState : Bytes
  deriving DecidableEq, Repr

/-- `Tokenizer::Tokenizer(const string &)`. -/
def Tokenizer.scan (string2parse : Bytes) : Tokenizer := ⟨cstr string2parse⟩

/-- `Tokenizer::next`: what the default rule writes to the standard output, and
the token with the tokenizer after it. At the end of the string it returns false
and the buffer is deleted. -/
def Tokenizer.next (t : Tokenizer) : Bytes × Option (Token × Tokenizer) :=
  match yylex rules t.bufState with
  | (echoed, none) => (echoed, none)
  | (echoed, some (result, state, rest)) => (echoed, some (⟨result, state⟩, ⟨rest⟩))

/-- Calling `next` until it returns false gives these tokens. -/
inductive Tokenizer.Drains : Tokenizer → List Token → Prop
  | stop {t} : t.next.2 = none → Drains t []
  | more {t tok t' toks} : t.next.2 = some (tok, t') → Drains t' toks → Drains t (tok :: toks)

theorem Tokenizer.Drains.unique {t : Tokenizer} {toks toks' : List Token} (h : t.Drains toks)
    (h' : t.Drains toks') : toks = toks' := by
  induction h generalizing toks' with
  | stop hnone =>
      cases h' with
      | stop _ => rfl
      | more hnext _ => cases hnone.symm.trans hnext
  | more hnext _ ih =>
      cases h' with
      | stop hnone => cases hnone.symm.trans hnext
      | more hnext' hrest =>
          obtain ⟨rfl, rfl⟩ := Prod.mk.inj (Option.some.inj (hnext.symm.trans hnext'))
          rw [ih hrest]

/-! ## Tokens and pieces -/

/-- The tokens among the pieces. -/
def tokens (pieces : List (Piece TokenType)) : List Token :=
  pieces.filterMap fun
    | .token type text => some ⟨type, text⟩
    | .echo _ => none

theorem tokens_echo (echoed : Bytes) (pieces : List (Piece TokenType)) :
    tokens (echoed.map .echo ++ pieces) = tokens pieces := by
  induction echoed with
  | nil => rfl
  | cons b echoed ih => exact ih

/-- `next` delivers the tokens of the string one after the other. -/
theorem drains_tokens {s : Bytes} {pieces : List (Piece TokenType)}
    (hlexes : Lexes rules s pieces) : (Tokenizer.mk s).Drains (tokens pieces) := by
  induction hlength : s.length using Nat.strong_induction_on generalizing s pieces with
  | _ length ih =>
      have hspec := @yylex_spec _ rules s
      cases hread : yylex rules s with
      | mk echoed found =>
          rw [hread] at hspec
          cases found with
          | none =>
              have hpieces := hlexes.unique hspec
              have hnone : (Tokenizer.mk s).next.2 = none := by
                simp only [Tokenizer.next, hread]
              have htokens := tokens_echo echoed []
              rw [List.append_nil] at htokens
              rw [hpieces, htokens]
              exact .stop hnone
          | some found =>
              obtain ⟨result, state, rest⟩ := found
              obtain ⟨hs, hne, hpieces⟩ := hspec
              obtain ⟨pieces', hlexes'⟩ := exists_lexes rules rest
              have hnext : (Tokenizer.mk s).next.2 = some (⟨result, state⟩, ⟨rest⟩) := by
                simp only [Tokenizer.next, hread]
              have hshorter : rest.length < length := by
                have hpos : 0 < state.length := List.length_pos_iff.mpr hne
                rw [← hlength, hs, List.length_append, List.length_append]
                omega
              rw [hlexes.unique (hpieces pieces' hlexes'), tokens_echo]
              exact .more hnext (ih _ hshorter hlexes' rfl)

/-- The words of the tokens are the whole string exactly when nothing is echoed. -/
theorem flatMap_word_eq_iff (pieces : List (Piece TokenType)) :
    (tokens pieces).flatMap Token.word = pieces.flatMap Piece.text ↔
      ∀ b, .echo b ∉ pieces := by
  have hle : ∀ pieces : List (Piece TokenType),
      ((tokens pieces).flatMap Token.word).length ≤ (pieces.flatMap Piece.text).length := by
    intro pieces
    induction pieces with
    | nil => exact Nat.le_refl 0
    | cons piece pieces ih =>
        cases piece with
        | token type text =>
            simpa [tokens, Piece.text] using ih
        | echo b =>
            exact Nat.le_succ_of_le ih
  induction pieces with
  | nil => simp [tokens]
  | cons piece pieces ih =>
      cases piece with
      | token type text =>
          simpa [tokens, Piece.text] using ih
      | echo b =>
          constructor
          · intro heq
            have hlength := congrArg List.length heq
            have := hle pieces
            simp [tokens, Piece.text] at hlength this
            omega
          · exact fun h => absurd List.mem_cons_self (h b)

/-! ## Carriage returns -/

/-- Every CR is immediately followed by LF. -/
def IsCrLf (s : Bytes) : Prop := ∀ before after, s = before ++ 13 :: after → after.head? = some 10

theorem isCrLf_cons {b : UInt8} {s : Bytes} :
    IsCrLf (b :: s) ↔ (b = 13 → s.head? = some 10) ∧ IsCrLf s := by
  constructor
  · intro h
    exact ⟨fun hb => h [] s (by rw [hb]; rfl),
      fun before after hs => h (b :: before) after (by rw [hs]; rfl)⟩
  · rintro ⟨hb, hs⟩ before after heq
    cases before with
    | nil =>
        obtain ⟨rfl, rfl⟩ := List.cons.inj heq
        exact hb rfl
    | cons _ before => exact hs before after (List.cons.inj heq).2

/-- Text without CR says nothing about the line ends. -/
theorem isCrLf_append {t s : Bytes} (ht : 13 ∉ t) : IsCrLf (t ++ s) ↔ IsCrLf s := by
  induction t with
  | nil => rfl
  | cons b t ih =>
      rw [List.mem_cons, not_or] at ht
      rw [List.cons_append, isCrLf_cons, ih ht.2]
      exact and_iff_right fun hb => absurd hb.symm ht.1

/-- Only the rule for line ends matches a CR. -/
theorem eq_crLf_of_matches {r : Rule TokenType} (hr : r ∈ rules) {text : Bytes}
    (h : r.pattern.Matches text) : 13 ∉ text ∨ text = [13, 10] := by
  have hmany : ∀ cls : UInt8 → Bool, cls 13 = false → (Pattern.many cls).Matches text →
      13 ∉ text ∨ text = [13, 10] := by
    intro cls hcls hmatch
    refine Or.inl fun hmem => ?_
    rw [hmatch.2 13 hmem] at hcls
    cases hcls
  simp only [rules, List.mem_cons, List.not_mem_nil, or_false] at hr
  rcases hr with rfl | rfl | rfl | rfl | rfl | rfl | rfl
  · exact hmany isalpha (by decide) h
  · exact hmany isdigit (by decide) h
  · exact hmany ispunct (by decide) h
  · exact hmany isblank (by decide) h
  · exact Or.inr h
  · obtain rfl : text = [10] := h
    exact Or.inl (by decide)
  · exact hmany isRus (by decide) h

/-- The rules leave out one thing: a CR without its LF. -/
theorem eq_cr_of_select_eq_none {b : UInt8} {s : Bytes} (h : select rules (b :: s) = none) :
    b = 13 ∧ s.head? ≠ some 10 := by
  have hmunch := select_eq_none_iff.mp h
  have hmany : ∀ cls type, ⟨.many cls, type⟩ ∈ rules → cls b = false := by
    intro cls type hmem
    have hzero := hmunch _ hmem
    simpa [Pattern.munch] using hzero
  have hpunct := hmany ispunct .punct (by simp [rules])
  have hdigit := hmany isdigit .digit (by simp [rules])
  have hblank := hmany isblank .blank (by simp [rules])
  have hrus := hmany isRus .rus (by simp [rules])
  have hlf := hmunch ⟨.lit [10], .blank⟩ (by simp [rules])
  have hcrlf := hmunch ⟨.lit [13, 10], .blank⟩ (by simp [rules])
  have hb : b = 13 := by
    by_contra hcr
    have hb : b = 10 := by
      simpa [isRus, hpunct, hdigit, hblank, hcr] using hrus
    simp [Pattern.munch, hb] at hlf
  refine ⟨hb, fun hhead => ?_⟩
  cases s with
  | nil => cases hhead
  | cons c s =>
      obtain rfl := Option.some.inj hhead
      simp [Pattern.munch, hb] at hcrlf

/-- Nothing is echoed exactly when every CR has its LF. -/
theorem isCrLf_iff {s : Bytes} {pieces : List (Piece TokenType)} (h : Lexes rules s pieces) :
    IsCrLf s ↔ ∀ b, .echo b ∉ pieces := by
  induction h with
  | nil => exact ⟨fun _ b => List.not_mem_nil, fun _ before after h => by simp at h⟩
  | @token s t n pieces hsel _ ih =>
      obtain ⟨-, -, earlier, r, later, hrules, -, hmatch, -⟩ := hsel
      have hr : r ∈ rules := by rw [hrules]; simp
      have hrest : IsCrLf s ↔ IsCrLf (s.drop n) := by
        rcases eq_crLf_of_matches hr hmatch with hclean | hcrlf
        · have := isCrLf_append (s := s.drop n) hclean
          rwa [List.take_append_drop] at this
        · have hs := List.take_append_drop n s
          rw [hcrlf] at hs
          have hend : IsCrLf ([13, 10] ++ s.drop n) ↔ IsCrLf (s.drop n) := by
            simp [isCrLf_cons]
          rwa [hs] at hend
      rw [hrest, ih]
      simp
  | @echo b s pieces hnone _ ih =>
      have hselect : select rules (b :: s) = none := by
        cases hsel : select rules (b :: s) with
        | none => rfl
        | some found => exact absurd (selects_of_select hsel) (hnone _ _)
      obtain ⟨hb, hhead⟩ := eq_cr_of_select_eq_none hselect
      constructor
      · exact fun hcrlf => absurd ((isCrLf_cons.mp hcrlf).1 hb) hhead
      · exact fun hecho => absurd List.mem_cons_self (hecho b)

/-- `next` always delivers finitely many tokens, none of them empty. Together they
are the string exactly when every CR in it is immediately followed by LF. -/
theorem drains_iff {s : Bytes} (hzero : 0 ∉ s) :
    (∃ toks, (Tokenizer.scan s).Drains toks ∧ ∀ tok ∈ toks, tok.word ≠ []) ∧
      ((∃ toks, (Tokenizer.scan s).Drains toks ∧ (∀ tok ∈ toks, tok.word ≠ []) ∧
        toks.flatMap Token.word = s) ↔ IsCrLf s) := by
  obtain ⟨pieces, hlexes⟩ := exists_lexes rules s
  have hscan : Tokenizer.scan s = ⟨s⟩ := congrArg Tokenizer.mk (cstr_eq_self hzero)
  have hdrains : (Tokenizer.scan s).Drains (tokens pieces) := by
    rw [hscan]
    exact drains_tokens hlexes
  have hne : ∀ tok ∈ tokens pieces, tok.word ≠ [] := by
    intro tok htok
    obtain ⟨piece, hmem, hpiece⟩ := List.mem_filterMap.mp htok
    cases piece with
    | token type text =>
        obtain rfl := Option.some.inj hpiece
        exact hlexes.text_ne_nil hmem
    | echo b => cases hpiece
  have hwhole : (tokens pieces).flatMap Token.word = s ↔ IsCrLf s := by
    rw [isCrLf_iff hlexes, ← flatMap_word_eq_iff, hlexes.flatMap_text]
  refine ⟨⟨_, hdrains, hne⟩, ?_, fun hcrlf => ⟨_, hdrains, hne, hwhole.mpr hcrlf⟩⟩
  rintro ⟨toks, htoks, -, hs⟩
  rw [htoks.unique hdrains] at hs
  exact hwhole.mp hs

theorem drains_iff_sample :
    (∃ toks, (Tokenizer.scan (bytes "ab 1\r\n")).Drains toks ∧ ∀ tok ∈ toks, tok.word ≠ []) ∧
      ((∃ toks, (Tokenizer.scan (bytes "ab 1\r\n")).Drains toks ∧
        (∀ tok ∈ toks, tok.word ≠ []) ∧ toks.flatMap Token.word = bytes "ab 1\r\n") ↔
          IsCrLf (bytes "ab 1\r\n")) :=
  drains_iff (by decide)

/-- A CR alone becomes no token. -/
theorem drains_lone_cr :
    (Tokenizer.scan (bytes "a\rb")).Drains
        [⟨.alpha, bytes "a"⟩, ⟨.alpha, bytes "b"⟩] ∧
      ¬ ∃ toks, (Tokenizer.scan (bytes "a\rb")).Drains toks ∧
        (∀ tok ∈ toks, tok.word ≠ []) ∧ toks.flatMap Token.word = bytes "a\rb" := by
  have hdrains : (Tokenizer.scan (bytes "a\rb")).Drains
      [⟨.alpha, bytes "a"⟩, ⟨.alpha, bytes "b"⟩] := by
    have hfirst : (Tokenizer.scan (bytes "a\rb")).next.2 =
        some (⟨.alpha, bytes "a"⟩, ⟨bytes "\rb"⟩) := by decide
    have hsecond : (Tokenizer.mk (bytes "\rb")).next.2 =
        some (⟨.alpha, bytes "b"⟩, ⟨[]⟩) := by decide
    exact .more hfirst (.more hsecond (.stop rfl))
  refine ⟨hdrains, ?_⟩
  rintro ⟨toks, htoks, -, hs⟩
  rw [htoks.unique hdrains] at hs
  exact absurd hs (by decide)

end SearchTools.Stemmer2
