/-
# The stemmer library

`libstemmer/libstemmer_utf8.c` of `stemmer2/sb`: a stemmer is an environment and a
routine, and every word is stemmed in the buffer that the words before it have left. A
stemmer must not remember them.
-/

import SearchTools.Stemmer2.RussianStem

namespace SearchTools.Stemmer2

open SearchTools.Library SnEnv

inductive StemmerEncoding
  | unknown
  | utf8
  deriving DecidableEq, Repr

/-- The languages of `modules_utf8.h`. -/
inductive Algorithm
  | danish
  | dutch
  | english
  | finnish
  | french
  | german
  | hungarian
  | italian
  | norwegian
  | porter
  | portuguese
  | romanian
  | russian
  | spanish
  | swedish
  | turkish
  deriving DecidableEq, Repr

def encodings : List (Bytes × StemmerEncoding) := [(bytes "UTF_8", .utf8)]

def modules : List (Bytes × StemmerEncoding × Algorithm) :=
  [(bytes "da", .utf8, .danish), (bytes "dan", .utf8, .danish), (bytes "danish", .utf8, .danish),
   (bytes "de", .utf8, .german), (bytes "deu", .utf8, .german), (bytes "dut", .utf8, .dutch),
   (bytes "dutch", .utf8, .dutch), (bytes "en", .utf8, .english), (bytes "eng", .utf8, .english),
   (bytes "english", .utf8, .english), (bytes "es", .utf8, .spanish),
   (bytes "esl", .utf8, .spanish), (bytes "fi", .utf8, .finnish), (bytes "fin", .utf8, .finnish),
   (bytes "finnish", .utf8, .finnish), (bytes "fr", .utf8, .french),
   (bytes "fra", .utf8, .french), (bytes "fre", .utf8, .french),
   (bytes "french", .utf8, .french), (bytes "ger", .utf8, .german),
   (bytes "german", .utf8, .german), (bytes "hu", .utf8, .hungarian),
   (bytes "hun", .utf8, .hungarian), (bytes "hungarian", .utf8, .hungarian),
   (bytes "it", .utf8, .italian), (bytes "ita", .utf8, .italian),
   (bytes "italian", .utf8, .italian), (bytes "nl", .utf8, .dutch), (bytes "nld", .utf8, .dutch),
   (bytes "no", .utf8, .norwegian), (bytes "nor", .utf8, .norwegian),
   (bytes "norwegian", .utf8, .norwegian), (bytes "por", .utf8, .portuguese),
   (bytes "porter", .utf8, .porter), (bytes "portuguese", .utf8, .portuguese),
   (bytes "pt", .utf8, .portuguese), (bytes "ro", .utf8, .romanian),
   (bytes "romanian", .utf8, .romanian), (bytes "ron", .utf8, .romanian),
   (bytes "ru", .utf8, .russian), (bytes "rum", .utf8, .romanian),
   (bytes "rus", .utf8, .russian), (bytes "russian", .utf8, .russian),
   (bytes "spa", .utf8, .spanish), (bytes "spanish", .utf8, .spanish),
   (bytes "sv", .utf8, .swedish), (bytes "swe", .utf8, .swedish),
   (bytes "swedish", .utf8, .swedish), (bytes "tr", .utf8, .turkish),
   (bytes "tur", .utf8, .turkish), (bytes "turkish", .utf8, .turkish)]

/-- `sb_getenc`. -/
def sbGetenc (charenc : Option Bytes) : StemmerEncoding :=
  match charenc with
  | none => .utf8
  | some name =>
      match encodings.find? fun encoding => encoding.1 = name with
      | some encoding => encoding.2
      | none => .unknown

/-- `struct sb_stemmer`. -/
structure SbStemmer where
  stem : Routine
  env : SnEnv

/-- `sb_stemmer_new`, with what `malloc` leaves in the buffer; none for a null pointer. -/
def sbStemmerNew (stem : Algorithm → Routine) (algorithm : Bytes) (charenc : Option Bytes)
    (junk : UInt8) : Option SbStemmer :=
  let enc := sbGetenc charenc
  if enc = .unknown then none
  else
    match modules.find? fun module => module.1 = algorithm ∧ module.2.1 = enc with
    | some module => some { stem := stem module.2.2, env := create junk }
    | none => none

/-- `z->p[i] = b`. -/
def SnEnv.put (z : SnEnv) (i : ℕ) (b : UInt8) : Except Fault SnEnv :=
  if i < z.p.length then .ok { z with p := z.p.set i b } else .error .outOfBounds

/-- `sb_stemmer_stem`: what stands at the pointer returned, none for a null pointer. -/
def sbStemmerStem (stemmer : SbStemmer) (word : Bytes) :
    Except Fault (Option Bytes × SbStemmer) := do
  let env ← stemmer.env.setCurrent word
  let (ret, env) ← stemmer.stem env
  if ret < 0 then return (none, { stemmer with env := env })
  let env ← env.put env.l 0
  return (some env.p, { stemmer with env := env })

/-- Words stemmed one after the other. -/
def sbStemmerStems (stemmer : SbStemmer) : List Bytes →
    Except Fault (List (Option Bytes) × SbStemmer)
  | [] => .ok ([], stemmer)
  | word :: words => do
      let (stem, stemmer) ← sbStemmerStem stemmer word
      let (stems, stemmer) ← sbStemmerStems stemmer words
      return (stem :: stems, stemmer)

/-! ## Stemmers without memory -/

/-- A routine that makes the same of a word in whatever buffer it stands. -/
def Stems (f : Bytes → Bytes) (r : Routine) : Prop :=
  ∀ w z, Contains w z → z.c = 0 → ∃ ret z', r z = .ok (ret, z') ∧ 0 ≤ ret ∧ Contains (f w) z'

theorem stems_russian : Stems Russian.stemBytes Russian.russianUTF8Stem := by
  intro w z h hc
  obtain ⟨z', hrun, h'⟩ := Russian.russianUTF8Stem_bytes h hc
  exact ⟨1, z', hrun, by decide, h'⟩

theorem setCurrent_contains {w : Bytes} {z : SnEnv} (h : Contains w z) (s : Bytes) :
    ∃ z', z.setCurrent s = .ok z' ∧ Contains s z' ∧ z'.c = 0 := by
  obtain ⟨junk, hp⟩ := h.p
  have hl := h.l
  have hsize : z.l ≤ z.p.length := h.le_length
  have hbuffer : z.p.take 0 ++ s ++ z.p.drop z.l = s ++ [junk] := by
    rw [hp, hl, List.take_zero, List.nil_append, List.drop_left]
  rw [setCurrent, replaceS, if_pos ⟨Nat.zero_le _, hsize⟩, ok_bind]
  by_cases hsame : (s.length : ℤ) - ((z.l : ℤ) - (0 : ℕ)) = 0
  · simp only [if_pos hsame]
    refine ⟨_, rfl, ⟨⟨junk, hbuffer⟩, ?_⟩, rfl⟩
    dsimp only
    omega
  · simp only [if_neg hsame]
    refine ⟨_, rfl, ⟨⟨junk, hbuffer⟩, ?_⟩, rfl⟩
    dsimp only
    omega

theorem put_contains {w : Bytes} {z : SnEnv} (h : Contains w z) :
    ∃ z', z.put z.l 0 = .ok z' ∧ z'.p = w ++ [0] ∧ Contains w z' := by
  obtain ⟨junk, hp⟩ := h.p
  have hset : z.p.set z.l 0 = w ++ [0] := by
    rw [hp, h.l, List.set_append_right _ _ (Nat.le_refl _), Nat.sub_self]
    rfl
  have hin : z.l < z.p.length := by
    rw [hp, h.l, List.length_append]
    exact Nat.lt_add_one _
  exact ⟨_, if_pos hin, hset, ⟨0, hset⟩, h.l⟩

/-- A word is stemmed as if it were the first. -/
theorem sbStemmerStem_eq {f : Bytes → Bytes} {stemmer : SbStemmer} (hstem : Stems f stemmer.stem)
    {w : Bytes} (h : Contains w stemmer.env) (word : Bytes) :
    ∃ env, sbStemmerStem stemmer word =
        .ok (some (f word ++ [0]), { stemmer with env := env }) ∧ Contains (f word) env := by
  obtain ⟨z, hset, hz, hc⟩ := setCurrent_contains h word
  obtain ⟨ret, z', hrun, hret, hz'⟩ := hstem word z hz hc
  obtain ⟨z'', hput, hp, hz''⟩ := put_contains hz'
  refine ⟨z'', ?_, hz''⟩
  rw [sbStemmerStem, hset, ok_bind, hrun, ok_bind]
  dsimp only
  rw [if_neg (Int.not_lt.mpr hret), hput, ok_bind, hp]
  rfl

/-- So is every word of a run. -/
theorem sbStemmerStems_eq {f : Bytes → Bytes} {stemmer : SbStemmer}
    (hstem : Stems f stemmer.stem) {w : Bytes} (h : Contains w stemmer.env) (words : List Bytes) :
    ∃ env, sbStemmerStems stemmer words =
      .ok (words.map fun word => some (f word ++ [0]), { stemmer with env := env }) := by
  induction words generalizing stemmer w with
  | nil => exact ⟨stemmer.env, rfl⟩
  | cons word words ih =>
      obtain ⟨env, hword, henv⟩ := sbStemmerStem_eq hstem h word
      obtain ⟨env', hwords⟩ := @ih { stemmer with env := env } hstem (f word) henv
      refine ⟨env', ?_⟩
      rw [sbStemmerStems, hword, ok_bind]
      dsimp only
      rw [hwords]
      rfl

theorem contains_create (junk : UInt8) : Contains [] (create junk) := ⟨⟨junk, rfl⟩, rfl⟩

/-- A Russian stemmer, however it is asked for, stems every word of a run as if it were the
first; a word of characters of at most three bytes gets its stem, with a NUL behind it. -/
theorem sbStemmerStems_russian {stem : Algorithm → Routine}
    (hRussian : stem .russian = Russian.russianUTF8Stem) {name : Bytes}
    (hname : name ∈ [bytes "ru", bytes "rus", bytes "russian"]) (junk : UInt8)
    (words : List Bytes) :
    ∃ stemmer ∈ sbStemmerNew stem name (some (bytes "UTF_8")) junk,
      ∃ env, sbStemmerStems stemmer words =
        .ok (words.map fun word => some (Russian.stemBytes word ++ [0]),
          { stemmer with env := env }) ∧
      ∀ text : List Char, (∀ ch ∈ text, ch.utf8Size ≤ 3) →
        Russian.stemBytes (utf8 text) = utf8 (Russian.stem text) := by
  have hnew : sbStemmerNew stem name (some (bytes "UTF_8")) junk =
      some { stem := stem .russian, env := create junk } := by
    simp only [List.mem_cons, List.not_mem_nil, or_false] at hname
    rcases hname with rfl | rfl | rfl <;> rfl
  have hstems : Stems Russian.stemBytes (stem .russian) := hRussian ▸ stems_russian
  obtain ⟨env, hrun⟩ := @sbStemmerStems_eq _ { stem := stem .russian, env := create junk } hstems
    [] (contains_create junk) words
  exact ⟨_, hnew, env, hrun, fun text htext => Russian.stemBytes_utf8 htext⟩

theorem sbStemmerStems_russian_sample :
    ∃ stemmer ∈ sbStemmerNew (fun _ => Russian.russianUTF8Stem) (bytes "rus")
        (some (bytes "UTF_8")) 7,
      ∃ env, sbStemmerStems stemmer [utf8 "важности".toList, utf8 "и".toList] =
        .ok ([utf8 "важности".toList, utf8 "и".toList].map fun word =>
          some (Russian.stemBytes word ++ [0]), { stemmer with env := env }) ∧
      ∀ text : List Char, (∀ ch ∈ text, ch.utf8Size ≤ 3) →
        Russian.stemBytes (utf8 text) = utf8 (Russian.stem text) :=
  sbStemmerStems_russian rfl (by decide) 7 _

end SearchTools.Stemmer2
