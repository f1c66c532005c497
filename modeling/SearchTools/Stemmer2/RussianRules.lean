/-
# The Russian stemming algorithm

The algorithm in terms of words: which endings are taken off, in which order, and how
far to the left. It does not depend on how the letters are written.
-/

import SearchTools.Stemmer2.Characters
import SearchTools.Stemmer2.Endings

namespace SearchTools.Stemmer2.Russian

open SearchTools.Library

/-- The endings and letters that the algorithm goes by. Endings come with their group. -/
structure Letters (α : Type) where
  perfectiveGerund : List (List α × ℤ)
  adjective : List (List α × ℤ)
  participle : List (List α × ℤ)
  reflexive : List (List α × ℤ)
  verb : List (List α × ℤ)
  noun : List (List α × ℤ)
  derivational : List (List α × ℤ)
  tidyUp : List (List α × ℤ)
  a : List α
  ya : List α
  n : List α
  i : List α

/-! ## Rules -/

section Rules

variable {α : Type} [DecidableEq α] (E : Letters α)

/-- An ending is taken off. -/
def cut (V : List (List α × ℤ)) : StemRule α := atEnding V fun rest _ => (true, rest)

/-- An ending is taken off, one of the first group only behind а or я. -/
def cutGrouped (V : List (List α × ℤ)) : StemRule α :=
  atEnding V fun rest e =>
    if e.2 = 2 ∨ E.a <:+ rest ∨ E.ya <:+ rest then (true, rest) else (false, rest ++ e.1)

/-- The ending of an adjective, and before it that of a participle, if there is one. -/
def adjectival : StemRule α := (cut E.adjective).andThen (cutGrouped E E.participle).attempt

/-- The ending of a gerund, or else a reflexive ending and one of an adjective, a verb or
a noun, in this order. -/
def inflection : StemRule α :=
  (cutGrouped E E.perfectiveGerund).orElse
    ((cut E.reflexive).attempt.andThen
      ((adjectival E).orElse ((cutGrouped E E.verb).orElse (cut E.noun))))

/-- A last и. -/
def lastI : StemRule α := fun word =>
  if E.i <:+ word then (true, word.take (word.length - E.i.length)) else (false, word)

/-- A derivational ending all of which is in the region R2. -/
def derivational (inR2 : List α → Bool) : StemRule α :=
  atEnding E.derivational fun rest e => if inR2 rest then (true, rest) else (false, rest ++ e.1)

/-- The second of two н at the end. -/
def undouble : StemRule α := fun word =>
  if E.n ++ E.n <:+ word then (true, word.take (word.length - E.n.length)) else (false, word)

/-- A superlative ending and then a doubled н, or a doubled н, or a soft sign. -/
def tidyUp : StemRule α :=
  atEnding E.tidyUp fun rest e =>
    if e.2 = 1 then undouble E rest
    else if e.2 = 2 then if E.n <:+ rest then (true, rest) else (false, rest ++ e.1)
    else (true, rest)

/-- What the algorithm leaves of the region RV. `inR2` tells whether what stands behind a
part of RV is in R2. -/
def stemRegion (inR2 : List α → Bool) (word : List α) : List α :=
  let word := (inflection E word).2
  let word := (lastI E word).2
  let word := (derivational E inR2 word).2
  (tidyUp E word).2

/-! ## Rules only cut -/

variable {V : List (List α × ℤ)}

theorem cuts_cut : (cut V).Cuts := StemRule.cuts_atEnding fun rest e => List.prefix_append rest e.1

theorem cuts_cutGrouped : (cutGrouped E V).Cuts := by
  refine StemRule.cuts_atEnding fun rest e => ?_
  split_ifs
  · exact List.prefix_append rest e.1
  · exact List.prefix_refl _

theorem cuts_inflection : (inflection E).Cuts :=
  (cuts_cutGrouped E).orElse (cuts_cut.attempt.andThen
    ((cuts_cut.andThen (cuts_cutGrouped E).attempt).orElse
      ((cuts_cutGrouped E).orElse cuts_cut)))

theorem cuts_lastI : (lastI E).Cuts := by
  intro word
  rw [lastI]
  split_ifs
  · exact List.take_prefix _ _
  · exact List.prefix_refl _

theorem cuts_derivational (inR2 : List α → Bool) : (derivational E inR2).Cuts := by
  refine StemRule.cuts_atEnding fun rest e => ?_
  split_ifs
  · exact List.prefix_append rest e.1
  · exact List.prefix_refl _

theorem cuts_tidyUp : (tidyUp E).Cuts := by
  refine StemRule.cuts_atEnding fun rest e => ?_
  have hrest := List.prefix_append rest e.1
  by_cases hone : e.2 = 1
  · rw [if_pos hone, undouble]
    split_ifs
    · exact (List.take_prefix _ _).trans hrest
    · exact hrest
  · rw [if_neg hone]
    split_ifs
    · exact hrest
    · exact List.prefix_refl _
    · exact hrest

/-- The algorithm takes off endings and nothing else. -/
theorem stemRegion_begins (inR2 : List α → Bool) (word : List α) :
    stemRegion E inR2 word <+: word :=
  (cuts_tidyUp E _).trans ((cuts_derivational E inR2 _).trans
    ((cuts_lastI E _).trans (cuts_inflection E word)))

/-- Where R2 begins matters only for what can be left of the word. -/
theorem stemRegion_congr {inR2 inR2' : List α → Bool} {word : List α}
    (h : ∀ rest, rest <+: word → inR2 rest = inR2' rest) :
    stemRegion E inR2 word = stemRegion E inR2' word := by
  have hleft : (lastI E (inflection E word).2).2 <+: word :=
    (cuts_lastI E _).trans (cuts_inflection E word)
  have hsame : derivational E inR2 (lastI E (inflection E word).2).2 =
      derivational E inR2' (lastI E (inflection E word).2).2 := by
    rw [derivational, derivational, atEnding, atEnding]
    cases ending E.derivational (lastI E (inflection E word).2).2 with
    | none => rfl
    | some e =>
        dsimp only
        rw [h _ ((List.take_prefix _ _).trans hleft)]
  simp only [stemRegion, hsame]

end Rules

/-! ## Letters -/

/-- An ending and its group. -/
def letters (e : String × ℤ) : List Char × ℤ := (e.1.toList, e.2)

/-- The endings of the Russian language. -/
def russian : Letters Char where
  perfectiveGerund :=
    [("вшись", 1), ("ывшись", 2), ("ившись", 2), ("в", 1), ("ыв", 2), ("ив", 2), ("вши", 1),
      ("ывши", 2), ("ивши", 2)].map letters
  adjective :=
    [("ему", 1), ("ому", 1), ("ых", 1), ("их", 1), ("ую", 1), ("юю", 1), ("ею", 1), ("ою", 1),
      ("яя", 1), ("ая", 1), ("ые", 1), ("ее", 1), ("ие", 1), ("ое", 1), ("ыми", 1), ("ими", 1),
      ("ый", 1), ("ей", 1), ("ий", 1), ("ой", 1), ("ым", 1), ("ем", 1), ("им", 1), ("ом", 1),
      ("его", 1), ("ого", 1)].map letters
  participle :=
    [("вш", 1), ("ывш", 2), ("ивш", 2), ("щ", 1), ("ющ", 1), ("ующ", 2), ("ем", 1),
      ("нн", 1)].map letters
  reflexive := [("сь", 1), ("ся", 1)].map letters
  verb :=
    [("ыт", 2), ("ют", 1), ("уют", 2), ("ят", 2), ("ет", 1), ("ует", 2), ("ит", 2), ("ны", 1),
      ("ены", 2), ("ть", 1), ("ыть", 2), ("ить", 2), ("ешь", 1), ("ишь", 2), ("ю", 2), ("ую", 2),
      ("ла", 1), ("ыла", 2), ("ила", 2), ("на", 1), ("ена", 2), ("ете", 1), ("ите", 2),
      ("йте", 1), ("уйте", 2), ("ейте", 2), ("ли", 1), ("ыли", 2), ("или", 2), ("й", 1),
      ("уй", 2), ("ей", 2), ("л", 1), ("ыл", 2), ("ил", 2), ("ым", 2), ("ем", 1), ("им", 2),
      ("н", 1), ("ен", 2), ("ло", 1), ("ыло", 2), ("ило", 2), ("но", 1), ("ено", 2),
      ("нно", 1)].map letters
  noun :=
    [("у", 1), ("ях", 1), ("иях", 1), ("ах", 1), ("ы", 1), ("ь", 1), ("ю", 1), ("ью", 1),
      ("ию", 1), ("я", 1), ("ья", 1), ("ия", 1), ("а", 1), ("ев", 1), ("ов", 1), ("е", 1),
      ("ье", 1), ("ие", 1), ("и", 1), ("еи", 1), ("ии", 1), ("ями", 1), ("иями", 1), ("ами", 1),
      ("й", 1), ("ей", 1), ("ией", 1), ("ий", 1), ("ой", 1), ("ям", 1), ("иям", 1), ("ам", 1),
      ("ем", 1), ("ием", 1), ("ом", 1), ("о", 1)].map letters
  derivational := [("ост", 1), ("ость", 1)].map letters
  tidyUp := [("ейш", 1), ("ь", 3), ("ейше", 1), ("н", 2)].map letters
  a := ['а']
  ya := ['я']
  n := ['н']
  i := ['и']

def isVowel (ch : Char) : Bool := ch ∈ ['а', 'е', 'и', 'о', 'у', 'ы', 'э', 'ю', 'я']

/-- RV, the part of a word behind its first vowel. -/
def regionRV (word : List Char) : List Char := (past isVowel word).getD []

/-- R1, the part behind the first consonant that follows a vowel. -/
def regionR1 (word : List Char) : Option (List Char) :=
  (past isVowel word).bind (past fun ch => !isVowel ch)

/-- R2, the R1 of R1. -/
def regionR2 (word : List Char) : List Char := ((regionR1 word).bind regionR1).getD []

/-- The stem of a Russian word. -/
def stem (word : List Char) : List Char :=
  let rv := regionRV word
  let front := word.take (word.length - rv.length)
  let r2 := word.length - (regionR2 word).length
  front ++ stemRegion russian (fun rest => decide (r2 ≤ front.length + rest.length)) rv

example : stem "важность".toList = "важност".toList := by decide +kernel

end SearchTools.Stemmer2.Russian
