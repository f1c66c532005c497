/-
# Stemming a text

`stem.cpp` and `main.cpp` of `stemmer2`: words go to Hunspell, and to the Snowball
stemmers when Hunspell has nothing; the program prints the text with the stems of every
word behind it. The default rule of the lexer echoes to the stream that the program
prints to. A word found by Hunspell is a function of the dictionary, which is a parameter.
-/

import SearchTools.Stemmer2.Libstemmer
import SearchTools.Stemmer2.Tok

namespace SearchTools.Stemmer2

open SearchTools.Library SnEnv

/-- `StemmerOut`; `size` is the length of `stem`. -/
structure StemmerOut where
  type : ℤ
  stem : List (Option Bytes)
  deriving DecidableEq, Repr

namespace StemmerOut

def hunspell : ℤ := 1
def snowball : ℤ := 2

end StemmerOut

/-- `Stemmer::PImpl`. The stems that Hunspell has for a word are the value of
`Hunspell::stem`. -/
structure Stemmer where
  hRu : Bytes → List Bytes
  hEn : Bytes → List Bytes
  sbRu : Option SbStemmer
  sbEn : Option SbStemmer

/-- `Stemmer::Stemmer`. -/
def Stemmer.create (hRu hEn : Bytes → List Bytes) (stem : Algorithm → Routine) (junk : UInt8) :
    Stemmer where
  hRu := hRu
  hEn := hEn
  sbRu := sbStemmerNew stem (bytes "ru") (some (bytes "UTF_8")) junk
  sbEn := sbStemmerNew stem (bytes "en") (some (bytes "UTF_8")) junk

/-- `Stemmer::PImpl::do_stem`. -/
def doStem (h : Bytes → List Bytes) (sb : Option SbStemmer) (word : Bytes) :
    Except Fault (StemmerOut × Option SbStemmer) :=
  match h word with
  | [] =>
      match sb with
      | some sb => do
          let (stem, sb) ← sbStemmerStem sb word
          return (⟨StemmerOut.snowball, [stem]⟩, some sb)
      | none => .error .nullPointer
  | stems => .ok (⟨StemmerOut.hunspell, stems.map some⟩, sb)

/-- `Stemmer::stem`; none when the assertion fails. -/
def Stemmer.stem (s : Stemmer) (tok : Token) : Except Fault (Option (StemmerOut × Stemmer)) :=
  match tok.type with
  | .alpha => do
      let (out, sb) ← doStem s.hEn s.sbEn tok.word
      return some (out, { s with sbEn := sb })
  | .rus => do
      let (out, sb) ← doStem s.hRu s.sbRu tok.word
      return some (out, { s with sbRu := sb })
  | _ => .ok none

/-- `printf("%s, ", out.stem[i])` for each stem. -/
def printStems : List (Option Bytes) → Except Fault Bytes
  | [] => .ok []
  | some stem :: stems => do return cstr stem ++ bytes ", " ++ (← printStems stems)
  | none :: _ => .error .nullPointer

/-- The `switch` of `do_all`: what is printed for a token. -/
def printToken (s : Stemmer) (tok : Token) : Except Fault (Bytes × Stemmer) :=
  match tok.type with
  | .alpha | .rus => do
      match ← s.stem tok with
      | some (out, s) =>
          let stems ← printStems out.stem
          return (bytes "[" ++ cstr tok.word ++ bytes ": " ++ stems ++ bytes ":" ++
            decimal out.type ++ bytes "]", s)
      | none => return ([], s)
  | _ => .ok (cstr tok.word, s)

/-- The loop over the tokens: what is written from there on. -/
def doAllLoop : ℕ → Stemmer → Tokenizer → Except Fault Bytes
  | 0, _, _ => .error .outOfFuel
  | fuel + 1, s, t =>
      match t.next with
      | (echoed, none) => .ok echoed
      | (echoed, some (tok, t)) => do
          let (printed, s) ← printToken s tok
          return echoed ++ printed ++ (← doAllLoop fuel s t)

/-- `do_all`, on all of the standard input. -/
def doAll (s : Stemmer) (input : Bytes) : Except Fault Bytes :=
  doAllLoop (input.length + 1) s ⟨input⟩

/-! ## What is printed -/

/-- A word with its stems. -/
def annotated (word : Bytes) (type : ℤ) (stems : List Bytes) : Bytes :=
  bytes "[" ++ word ++ bytes ": " ++ stems.flatMap (· ++ bytes ", ") ++ bytes ":" ++
    decimal type ++ bytes "]"

/-- The stems of a word: those of Hunspell, or else one that cuts the word down. -/
def withStems (h : Bytes → List Bytes) (f : Bytes → Bytes) (word : Bytes) : Bytes :=
  match h word with
  | [] => annotated word StemmerOut.snowball [f word]
  | stems => annotated word StemmerOut.hunspell stems

/-- A piece of the text as it is printed. -/
def printed (hRu hEn : Bytes → List Bytes) (f g : Bytes → Bytes) : Piece TokenType → Bytes
  | .token .alpha text => withStems hEn g text
  | .token .rus text => withStems hRu f text
  | .token _ text => text
  | .echo b => [b]

/-- The stems of a language have neither a NUL nor a closing bracket in them, as far as the
words have none. -/
structure Readable (h : Bytes → List Bytes) (f : Bytes → Bytes) : Prop where
  dictionary : ∀ w, ∀ stem ∈ h w, 0 ∉ stem ∧ 93 ∉ stem
  stemmer : ∀ w, 0 ∉ w → 93 ∉ w → 0 ∉ f w ∧ 93 ∉ f w

theorem readable_of_begins {h : Bytes → List Bytes} {f : Bytes → Bytes}
    (hh : ∀ w, ∀ stem ∈ h w, 0 ∉ stem ∧ 93 ∉ stem) (hf : ∀ w, f w <+: w) : Readable h f :=
  ⟨hh, fun w hzero hbracket =>
    ⟨fun hmem => hzero ((hf w).subset hmem), fun hmem => hbracket ((hf w).subset hmem)⟩⟩

/-- A stemmer is there and remembers nothing. -/
def Serves (f : Bytes → Bytes) (sb : Option SbStemmer) : Prop :=
  ∃ stemmer ∈ sb, Stems f stemmer.stem ∧ ∃ w, Contains w stemmer.env

structure Stemmer.Ready (s : Stemmer) (f g : Bytes → Bytes) : Prop where
  ru : Serves f s.sbRu
  en : Serves g s.sbEn

theorem printStems_some (stems : List Bytes) (hzero : ∀ stem ∈ stems, 0 ∉ stem) :
    printStems (stems.map some) = .ok (stems.flatMap (· ++ bytes ", ")) := by
  induction stems with
  | nil => rfl
  | cons stem stems ih =>
      have hstem := cstr_eq_self (hzero stem List.mem_cons_self)
      rw [List.map_cons, printStems, ih fun stem h => hzero stem (List.mem_cons_of_mem _ h),
        hstem]
      rfl

/-- A word gets its stems, and the stemmer is as good as before. -/
theorem doStem_eq {h : Bytes → List Bytes} {f : Bytes → Bytes} {sb : Option SbStemmer}
    (hread : Readable h f) (hserves : Serves f sb) {word : Bytes} (hzero : 0 ∉ word)
    (hbracket : 93 ∉ word) :
    ∃ out stems sb', doStem h sb word = .ok (out, sb') ∧ Serves f sb' ∧
      printStems out.stem = .ok (stems.flatMap (· ++ bytes ", ")) ∧
      withStems h f word = annotated word out.type stems := by
  cases hstems : h word with
  | nil =>
      obtain ⟨stemmer, hsb, hstem, w, hw⟩ := hserves
      obtain ⟨env, hrun, henv⟩ := sbStemmerStem_eq hstem hw word
      refine ⟨⟨StemmerOut.snowball, [some (f word ++ [0])]⟩, [f word],
        some { stemmer with env := env }, ?_, ⟨_, rfl, hstem, _, henv⟩, ?_, ?_⟩
      · unfold doStem
        rw [hstems, Option.mem_def.mp hsb]
        dsimp only
        rw [hrun]
        rfl
      · have hclean := (hread.stemmer word hzero hbracket).1
        have hstem : cstr (f word ++ [0]) = f word := by
          rw [cstr_append hclean]
          exact List.append_nil _
        rw [printStems, hstem]
        rfl
      · rw [withStems, hstems]
  | cons stem stems =>
      refine ⟨⟨StemmerOut.hunspell, (stem :: stems).map some⟩, stem :: stems, sb, ?_, hserves,
        ?_, ?_⟩
      · unfold doStem
        rw [hstems]
      · exact printStems_some _ fun stem hmem => (hread.dictionary word stem (hstems ▸ hmem)).1
      · rw [withStems, hstems]

theorem notMem_of_isRus {w : Bytes} (hw : ∀ b ∈ w, isRus b) {b : UInt8} (hb : isRus b = false) :
    b ∉ w := fun hmem => by
  rw [hw b hmem] at hb
  cases hb

/-! ## Pieces -/

/-- What the rules say of the bytes of a piece. -/
def Shaped : Piece TokenType → Prop
  | .token .alpha text => text ≠ [] ∧ ∀ b ∈ text, isRus b
  | .token .rus text => text ≠ [] ∧ ∀ b ∈ text, isRus b
  | .token _ text => ∀ b ∈ text, isRus b = false
  | .echo b => isRus b = false

theorem shaped_of_matches {r : Rule TokenType} (hr : r ∈ rules) {text : Bytes}
    (h : r.pattern.Matches text) : Shaped (.token r.token text) := by
  have hletters : ∀ b, isalpha b → isRus b := forall_byte (by decide +kernel)
  have hdigits : ∀ b, isdigit b → isRus b = false := forall_byte (by decide +kernel)
  have hpuncts : ∀ b, ispunct b → isRus b = false := forall_byte (by decide +kernel)
  have hblanks : ∀ b, isblank b → isRus b = false := forall_byte (by decide +kernel)
  have hother : ∀ type, type ≠ .alpha → type ≠ .rus → (∀ b ∈ text, isRus b = false) →
      Shaped (.token type text) := by
    intro type halpha hrus htext
    cases type with
    | alpha => exact absurd rfl halpha
    | rus => exact absurd rfl hrus
    | alnum | digit | punct | blank => exact htext
  simp only [rules, List.mem_cons, List.not_mem_nil, or_false] at hr
  rcases hr with rfl | rfl | rfl | rfl | rfl | rfl | rfl
  · exact ⟨h.1, fun b hb => hletters b (h.2 b hb)⟩
  · exact hother .digit (by decide) (by decide) fun b hb => hdigits b (h.2 b hb)
  · exact hother .punct (by decide) (by decide) fun b hb => hpuncts b (h.2 b hb)
  · exact hother .blank (by decide) (by decide) fun b hb => hblanks b (h.2 b hb)
  · obtain rfl : text = [13, 10] := h
    exact hother .blank (by decide) (by decide) (by decide +kernel)
  · obtain rfl : text = [10] := h
    exact hother .blank (by decide) (by decide) (by decide +kernel)
  · exact h

theorem shaped_of_lexes {s : Bytes} {pieces : List (Piece TokenType)}
    (h : Lexes rules s pieces) : ∀ piece ∈ pieces, Shaped piece := by
  induction h with
  | nil => exact fun _ h => absurd h List.not_mem_nil
  | @token s t n pieces hsel _ ih =>
      intro piece hmem
      rcases List.mem_cons.mp hmem with rfl | hmem
      · obtain ⟨-, -, earlier, r, later, hrules, rfl, hmatch, -⟩ := hsel
        exact shaped_of_matches (by rw [hrules]; simp) hmatch
      · exact ih piece hmem
  | @echo b s pieces hnone _ ih =>
      intro piece hmem
      rcases List.mem_cons.mp hmem with rfl | hmem
      · have hselect : select rules (b :: s) = none := by
          cases hsel : select rules (b :: s) with
          | none => rfl
          | some found => exact absurd (selects_of_select hsel) (hnone _ _)
        obtain ⟨rfl, -⟩ := eq_cr_of_select_eq_none hselect
        rfl
      · exact ih piece hmem

/-! ## The program -/

theorem printToken_eq {s : Stemmer} {f g : Bytes → Bytes} (hs : s.Ready f g)
    (hru : Readable s.hRu f) (hen : Readable s.hEn g) {type : TokenType} {text : Bytes}
    (hshaped : Shaped (.token type text)) (hzero : 0 ∉ text) :
    ∃ s', printToken s ⟨type, text⟩ = .ok (printed s.hRu s.hEn f g (.token type text), s') ∧
      s'.Ready f g ∧ s'.hRu = s.hRu ∧ s'.hEn = s.hEn := by
  have hself := cstr_eq_self hzero
  cases type with
  | alpha =>
      have hbracket := notMem_of_isRus hshaped.2 (by decide : isRus 93 = false)
      obtain ⟨out, stems, sb, hstem, hserves, hprint, hwith⟩ :=
        doStem_eq hen hs.en hzero hbracket
      refine ⟨{ s with sbEn := sb }, ?_, ⟨hs.ru, hserves⟩, rfl, rfl⟩
      rw [printToken, Stemmer.stem, printed, hwith, hself]
      dsimp only
      rw [hstem, ok_bind]
      dsimp only [pure, Except.pure]
      rw [ok_bind]
      dsimp only
      rw [hprint, ok_bind, annotated]
  | rus =>
      have hbracket := notMem_of_isRus hshaped.2 (by decide : isRus 93 = false)
      obtain ⟨out, stems, sb, hstem, hserves, hprint, hwith⟩ :=
        doStem_eq hru hs.ru hzero hbracket
      refine ⟨{ s with sbRu := sb }, ?_, ⟨hserves, hs.en⟩, rfl, rfl⟩
      rw [printToken, Stemmer.stem, printed, hwith, hself]
      dsimp only
      rw [hstem, ok_bind]
      dsimp only [pure, Except.pure]
      rw [ok_bind]
      dsimp only
      rw [hprint, ok_bind, annotated]
  | alnum | digit | punct | blank => exact ⟨s, congrArg (fun t => Except.ok (t, s)) hself, hs, rfl, rfl⟩

/-- The loop prints the pieces of the text. -/
theorem doAllLoop_eq {s : Stemmer} {f g : Bytes → Bytes} (hs : s.Ready f g)
    (hru : Readable s.hRu f) (hen : Readable s.hEn g) {fuel : ℕ} {input : Bytes}
    (hzero : 0 ∉ input) (hfuel : input.length < fuel) {pieces : List (Piece TokenType)}
    (h : Lexes rules input pieces) :
    doAllLoop fuel s ⟨input⟩ = .ok (pieces.flatMap (printed s.hRu s.hEn f g)) := by
  induction fuel generalizing s input pieces with
  | zero => omega
  | succ fuel ih =>
      have hspec := @yylex_spec _ rules input
      have hecho : ∀ echoed : Bytes,
          (echoed.map Piece.echo).flatMap (printed s.hRu s.hEn f g) = echoed := by
        intro echoed
        induction echoed with
        | nil => rfl
        | cons b echoed ihb => exact congrArg (b :: ·) ihb
      rw [doAllLoop]
      cases hread : yylex rules input with
      | mk echoed found =>
          rw [hread] at hspec
          cases found with
          | none =>
              rw [Tokenizer.next, hread, h.unique hspec]
              exact congrArg Except.ok (hecho echoed).symm
          | some found =>
              obtain ⟨type, text, rest⟩ := found
              obtain ⟨hinput, hne, hpieces⟩ := hspec
              obtain ⟨more, hmore⟩ := exists_lexes rules rest
              have heq := h.unique (hpieces more hmore)
              have hshaped : Shaped (.token type text) :=
                shaped_of_lexes h _ (by rw [heq]; simp)
              rw [hinput] at hzero hfuel
              simp only [List.mem_append, not_or] at hzero
              simp only [List.length_append] at hfuel
              have hpos := List.length_pos_iff.mpr hne
              obtain ⟨s', hprint, hs', hRu, hEn⟩ := printToken_eq hs hru hen hshaped hzero.2.1
              have hloop := @ih s' hs' (hRu.symm ▸ hru) (hEn.symm ▸ hen) rest hzero.2.2
                (by omega) more hmore
              rw [Tokenizer.next, hread]
              dsimp only
              rw [hprint, ok_bind]
              dsimp only
              rw [hloop, heq, List.flatMap_append, List.flatMap_cons, hecho, hRu, hEn,
                ← List.append_assoc]
              rfl

/-! ## Reading the output back -/

inductive Reading
  | text
  | word
  | stems
  deriving DecidableEq, Repr

/-- The text without the stems: a bracket right before a word opens an annotation, which
goes on to the next closing bracket. -/
def plainFrom : Reading → Bytes → Bytes
  | _, [] => []
  | .text, b :: s =>
      if b = 91 ∧ s.head?.any isRus then plainFrom .word s else b :: plainFrom .text s
  | .word, b :: s => if b = 58 then plainFrom .stems s else b :: plainFrom .word s
  | .stems, b :: s => if b = 93 then plainFrom .text s else plainFrom .stems s

def plain (output : Bytes) : Bytes := plainFrom .text output

theorem plainFrom_word {word s : Bytes} (hword : 58 ∉ word) :
    plainFrom .word (word ++ 58 :: s) = word ++ plainFrom .stems s := by
  induction word with
  | nil => exact if_pos rfl
  | cons b word ih =>
      rw [List.mem_cons, not_or] at hword
      rw [List.cons_append, plainFrom, if_neg (Ne.symm hword.1), ih hword.2]
      rfl

theorem plainFrom_stems {stems s : Bytes} (hstems : 93 ∉ stems) :
    plainFrom .stems (stems ++ 93 :: s) = plainFrom .text s := by
  induction stems with
  | nil => exact if_pos rfl
  | cons b stems ih =>
      rw [List.mem_cons, not_or] at hstems
      rw [List.cons_append, plainFrom, if_neg (Ne.symm hstems.1), ih hstems.2]

/-- Text that has no letters, and no letter behind it, is read as it is. -/
theorem plainFrom_text {text s : Bytes} (htext : ∀ b ∈ text, isRus b = false)
    (hs : s.head?.any isRus = false) :
    plainFrom .text (text ++ s) = text ++ plainFrom .text s := by
  induction text with
  | nil => rfl
  | cons b text ih =>
      have hhead : (text ++ s).head?.any isRus = false := by
        cases text with
        | nil => exact hs
        | cons c text => simpa using htext c (by simp)
      have hclosed : ¬ (b = 91 ∧ (text ++ s).head?.any isRus) := fun h => by
        rw [hhead] at h
        exact absurd h.2 (by decide)
      rw [List.cons_append, plainFrom, if_neg hclosed,
        ih fun c hc => htext c (List.mem_cons_of_mem _ hc)]
      rfl

/-- An annotated word is read as the word. -/
theorem plainFrom_annotated {word s : Bytes} {type : ℤ} {stems : List Bytes} (hne : word ≠ [])
    (hword : ∀ b ∈ word, isRus b) (hstems : ∀ stem ∈ stems, 93 ∉ stem) :
    plainFrom .text (annotated word type stems ++ s) = word ++ plainFrom .text s := by
  have hcolon := notMem_of_isRus hword (by decide : isRus 58 = false)
  have hmore : 93 ∉ bytes " " ++ stems.flatMap (· ++ bytes ", ") ++ bytes ":" ++ decimal type := by
    have hsep : (93 : UInt8) ∉ bytes ", " := by decide
    have hspace : (93 : UInt8) ∉ bytes " " := by decide
    have hmark : (93 : UInt8) ∉ bytes ":" := by decide
    have htype : (93 : UInt8) ∉ decimal type := fun hmem => by
      rcases mem_decimal hmem with h | h
      · exact absurd h (by decide)
      · exact absurd h.2 (by decide)
    simp only [List.mem_append, List.mem_flatMap, not_or, not_exists, not_and]
    exact ⟨⟨⟨hspace, fun stem hstem => ⟨hstems stem hstem, hsep⟩⟩, hmark⟩, htype⟩
  have hsplit : annotated word type stems ++ s = 91 :: (word ++ 58 ::
      ((bytes " " ++ stems.flatMap (· ++ bytes ", ") ++ bytes ":" ++ decimal type) ++ 93 :: s)) := by
    simp only [annotated, List.append_assoc]
    rfl
  have hopen : ((word ++ 58 :: ((bytes " " ++ stems.flatMap (· ++ bytes ", ") ++ bytes ":" ++
      decimal type) ++ 93 :: s)).head?.any isRus) = true := by
    cases word with
    | nil => exact absurd rfl hne
    | cons b word => simpa using hword b (by simp)
  rw [hsplit, plainFrom, if_pos ⟨rfl, hopen⟩, plainFrom_word hcolon, plainFrom_stems hmore]

theorem head_withStems (h : Bytes → List Bytes) (f : Bytes → Bytes) (word s : Bytes) :
    (withStems h f word ++ s).head?.any isRus = false := by
  unfold withStems
  cases h word <;> rfl

/-- No piece is printed with a letter at its beginning. -/
theorem head_printed {hRu hEn : Bytes → List Bytes} {f g : Bytes → Bytes}
    {pieces : List (Piece TokenType)} (hshaped : ∀ piece ∈ pieces, Shaped piece) :
    (pieces.flatMap (printed hRu hEn f g)).head?.any isRus = false := by
  induction pieces with
  | nil => rfl
  | cons piece pieces ih =>
      have hpiece := hshaped piece List.mem_cons_self
      have hrest := ih fun p hp => hshaped p (List.mem_cons_of_mem _ hp)
      have hplain : ∀ text : Bytes, (∀ b ∈ text, isRus b = false) →
          (text ++ pieces.flatMap (printed hRu hEn f g)).head?.any isRus = false := by
        intro text htext
        cases text with
        | nil => exact hrest
        | cons b text => simpa using htext b (by simp)
      rw [List.flatMap_cons]
      cases piece with
      | echo b => exact hplain [b] fun c hc => List.mem_singleton.mp hc ▸ hpiece
      | token type text =>
          cases type with
          | alpha => exact head_withStems hEn g text _
          | rus => exact head_withStems hRu f text _
          | alnum | digit | punct | blank => exact hplain text hpiece

theorem plainFrom_withStems {h : Bytes → List Bytes} {f : Bytes → Bytes}
    (hread : Readable h f) {word s : Bytes} (hne : word ≠ []) (hword : ∀ b ∈ word, isRus b)
    (hzero : 0 ∉ word) :
    plainFrom .text (withStems h f word ++ s) = word ++ plainFrom .text s := by
  have hbracket := notMem_of_isRus hword (by decide : isRus 93 = false)
  unfold withStems
  cases hstems : h word with
  | nil =>
      refine plainFrom_annotated hne hword fun stem hstem => ?_
      rw [List.mem_singleton.mp hstem]
      exact (hread.stemmer word hzero hbracket).2
  | cons stem stems =>
      exact plainFrom_annotated hne hword fun stem hstem =>
        (hread.dictionary word stem (hstems ▸ hstem)).2

/-- The text is read back from what is printed for its pieces. -/
theorem plain_printed {hRu hEn : Bytes → List Bytes} {f g : Bytes → Bytes}
    (hru : Readable hRu f) (hen : Readable hEn g) {pieces : List (Piece TokenType)}
    (hshaped : ∀ piece ∈ pieces, Shaped piece) (hzero : ∀ piece ∈ pieces, 0 ∉ piece.text) :
    plain (pieces.flatMap (printed hRu hEn f g)) = pieces.flatMap Piece.text := by
  rw [plain]
  induction pieces with
  | nil => rfl
  | cons piece pieces ih =>
      have hpiece := hshaped piece List.mem_cons_self
      have hclean := hzero piece List.mem_cons_self
      have hshaped' := fun p hp => hshaped p (List.mem_cons_of_mem piece hp)
      have hrest := ih hshaped' fun p hp => hzero p (List.mem_cons_of_mem _ hp)
      have hhead := @head_printed hRu hEn f g pieces hshaped'
      rw [List.flatMap_cons, List.flatMap_cons, ← hrest]
      cases piece with
      | echo b =>
          exact plainFrom_text (fun c hc => List.mem_singleton.mp hc ▸ hpiece) hhead
      | token type text =>
          cases type with
          | alpha => exact plainFrom_withStems hen hpiece.1 hpiece.2 hclean
          | rus => exact plainFrom_withStems hru hpiece.1 hpiece.2 hclean
          | alnum | digit | punct | blank => exact plainFrom_text hpiece hhead

/-! ## The whole program -/

section Program

variable {stem : Algorithm → Routine} {g : Bytes → Bytes} {hRu hEn : Bytes → List Bytes}

theorem ready_create (hRussian : stem .russian = Russian.russianUTF8Stem)
    (hEnglish : Stems g (stem .english)) (hRu hEn : Bytes → List Bytes) (junk : UInt8) :
    (Stemmer.create hRu hEn stem junk).Ready Russian.stemBytes g := by
  have hnewRu : sbStemmerNew stem (bytes "ru") (some (bytes "UTF_8")) junk =
      some { stem := stem .russian, env := create junk } := rfl
  have hnewEn : sbStemmerNew stem (bytes "en") (some (bytes "UTF_8")) junk =
      some { stem := stem .english, env := create junk } := rfl
  constructor
  · exact ⟨_, hnewRu, hRussian ▸ stems_russian, [], contains_create junk⟩
  · exact ⟨_, hnewEn, hEnglish, [], contains_create junk⟩

/-- The program prints every piece of the text once, in order, each word with its stems,
and the text can be read back from what it prints. -/
theorem plain_doAll (hRussian : stem .russian = Russian.russianUTF8Stem)
    (hEnglish : Stems g (stem .english)) (hen : Readable hEn g)
    (hdictionary : ∀ w, ∀ stem ∈ hRu w, 0 ∉ stem ∧ 93 ∉ stem) (junk : UInt8) {input : Bytes}
    (hzero : 0 ∉ input) :
    ∃ pieces, Lexes rules input pieces ∧
      doAll (Stemmer.create hRu hEn stem junk) input =
        .ok (pieces.flatMap (printed hRu hEn Russian.stemBytes g)) ∧
      plain (pieces.flatMap (printed hRu hEn Russian.stemBytes g)) = input := by
  have hru : Readable hRu Russian.stemBytes :=
    readable_of_begins hdictionary fun w => (Russian.stemBytes_begins w).2
  obtain ⟨pieces, hlexes⟩ := exists_lexes rules input
  have hclean : ∀ piece ∈ pieces, 0 ∉ piece.text := fun piece hpiece hmem =>
    hzero (hlexes.flatMap_text ▸ List.mem_flatMap.mpr ⟨piece, hpiece, hmem⟩)
  refine ⟨pieces, hlexes, ?_, ?_⟩
  · exact doAllLoop_eq (ready_create hRussian hEnglish hRu hEn junk) hru hen hzero
      (Nat.lt_succ_self _) hlexes
  · rw [plain_printed hru hen (shaped_of_lexes hlexes) hclean, hlexes.flatMap_text]

/-- Dictionaries without words; the Russian stemmer leaves English words as they are. -/
theorem plain_doAll_sample :
    ∃ pieces, Lexes rules (bytes "go, 2") pieces ∧
      doAll (Stemmer.create (fun _ => []) (fun _ => []) (fun _ => Russian.russianUTF8Stem) 0)
          (bytes "go, 2") =
        .ok (pieces.flatMap (printed (fun _ => []) (fun _ => []) Russian.stemBytes
          Russian.stemBytes)) ∧
      plain (pieces.flatMap (printed (fun _ => []) (fun _ => []) Russian.stemBytes
        Russian.stemBytes)) = bytes "go, 2" :=
  plain_doAll rfl stems_russian
    (readable_of_begins (fun _ _ h => absurd h List.not_mem_nil) fun w =>
      (Russian.stemBytes_begins w).2)
    (fun _ _ h => absurd h List.not_mem_nil) 0 (by decide)

end Program

end SearchTools.Stemmer2
