/-
# The Russian stemmer

`src_c/stem_UTF_8_russian.c` of `stemmer2/sb`, as the Snowball compiler wrote it. The
stemmer cuts endings off the word behind its first vowel.
-/

import SearchTools.Stemmer2.Snowball

namespace SearchTools.Stemmer2.Russian

open SearchTools.Library SnEnv

/-! ## Tables -/

/-- Endings of perfective gerunds. -/
def a0 : List Among :=
  [⟨[0xD0, 0xB2, 0xD1, 0x88, 0xD0, 0xB8, 0xD1, 0x81, 0xD1, 0x8C], -1, 1, none⟩,
   ⟨[0xD1, 0x8B, 0xD0, 0xB2, 0xD1, 0x88, 0xD0, 0xB8, 0xD1, 0x81, 0xD1, 0x8C], 0, 2, none⟩,
   ⟨[0xD0, 0xB8, 0xD0, 0xB2, 0xD1, 0x88, 0xD0, 0xB8, 0xD1, 0x81, 0xD1, 0x8C], 0, 2, none⟩,
   ⟨[0xD0, 0xB2], -1, 1, none⟩,
   ⟨[0xD1, 0x8B, 0xD0, 0xB2], 3, 2, none⟩,
   ⟨[0xD0, 0xB8, 0xD0, 0xB2], 3, 2, none⟩,
   ⟨[0xD0, 0xB2, 0xD1, 0x88, 0xD0, 0xB8], -1, 1, none⟩,
   ⟨[0xD1, 0x8B, 0xD0, 0xB2, 0xD1, 0x88, 0xD0, 0xB8], 6, 2, none⟩,
   ⟨[0xD0, 0xB8, 0xD0, 0xB2, 0xD1, 0x88, 0xD0, 0xB8], 6, 2, none⟩]

/-- Endings of adjectives. -/
def a1 : List Among :=
  [⟨[0xD0, 0xB5, 0xD0, 0xBC, 0xD1, 0x83], -1, 1, none⟩,
   ⟨[0xD0, 0xBE, 0xD0, 0xBC, 0xD1, 0x83], -1, 1, none⟩,
   ⟨[0xD1, 0x8B, 0xD1, 0x85], -1, 1, none⟩,
   ⟨[0xD0, 0xB8, 0xD1, 0x85], -1, 1, none⟩,
   ⟨[0xD1, 0x83, 0xD1, 0x8E], -1, 1, none⟩,
   ⟨[0xD1, 0x8E, 0xD1, 0x8E], -1, 1, none⟩,
   ⟨[0xD0, 0xB5, 0xD1, 0x8E], -1, 1, none⟩,
   ⟨[0xD0, 0xBE, 0xD1, 0x8E], -1, 1, none⟩,
   ⟨[0xD1, 0x8F, 0xD1, 0x8F], -1, 1, none⟩,
   ⟨[0xD0, 0xB0, 0xD1, 0x8F], -1, 1, none⟩,
   ⟨[0xD1, 0x8B, 0xD0, 0xB5], -1, 1, none⟩,
   ⟨[0xD0, 0xB5, 0xD0, 0xB5], -1, 1, none⟩,
   ⟨[0xD0, 0xB8, 0xD0, 0xB5], -1, 1, none⟩,
   ⟨[0xD0, 0xBE, 0xD0, 0xB5], -1, 1, none⟩,
   ⟨[0xD1, 0x8B, 0xD0, 0xBC, 0xD0, 0xB8], -1, 1, none⟩,
   ⟨[0xD0, 0xB8, 0xD0, 0xBC, 0xD0, 0xB8], -1, 1, none⟩,
   ⟨[0xD1, 0x8B, 0xD0, 0xB9], -1, 1, none⟩,
   ⟨[0xD0, 0xB5, 0xD0, 0xB9], -1, 1, none⟩,
   ⟨[0xD0, 0xB8, 0xD0, 0xB9], -1, 1, none⟩,
   ⟨[0xD0, 0xBE, 0xD0, 0xB9], -1, 1, none⟩,
   ⟨[0xD1, 0x8B, 0xD0, 0xBC], -1, 1, none⟩,
   ⟨[0xD0, 0xB5, 0xD0, 0xBC], -1, 1, none⟩,
   ⟨[0xD0, 0xB8, 0xD0, 0xBC], -1, 1, none⟩,
   ⟨[0xD0, 0xBE, 0xD0, 0xBC], -1, 1, none⟩,
   ⟨[0xD0, 0xB5, 0xD0, 0xB3, 0xD0, 0xBE], -1, 1, none⟩,
   ⟨[0xD0, 0xBE, 0xD0, 0xB3, 0xD0, 0xBE], -1, 1, none⟩]

/-- Endings of participles. -/
def a2 : List Among :=
  [⟨[0xD0, 0xB2, 0xD1, 0x88], -1, 1, none⟩,
   ⟨[0xD1, 0x8B, 0xD0, 0xB2, 0xD1, 0x88], 0, 2, none⟩,
   ⟨[0xD0, 0xB8, 0xD0, 0xB2, 0xD1, 0x88], 0, 2, none⟩,
   ⟨[0xD1, 0x89], -1, 1, none⟩,
   ⟨[0xD1, 0x8E, 0xD1, 0x89], 3, 1, none⟩,
   ⟨[0xD1, 0x83, 0xD1, 0x8E, 0xD1, 0x89], 4, 2, none⟩,
   ⟨[0xD0, 0xB5, 0xD0, 0xBC], -1, 1, none⟩,
   ⟨[0xD0, 0xBD, 0xD0, 0xBD], -1, 1, none⟩]

/-- Reflexive endings. -/
def a3 : List Among :=
  [⟨[0xD1, 0x81, 0xD1, 0x8C], -1, 1, none⟩,
   ⟨[0xD1, 0x81, 0xD1, 0x8F], -1, 1, none⟩]

/-- Endings of verbs. -/
def a4 : List Among :=
  [⟨[0xD1, 0x8B, 0xD1, 0x82], -1, 2, none⟩,
   ⟨[0xD1, 0x8E, 0xD1, 0x82], -1, 1, none⟩,
   ⟨[0xD1, 0x83, 0xD1, 0x8E, 0xD1, 0x82], 1, 2, none⟩,
   ⟨[0xD1, 0x8F, 0xD1, 0x82], -1, 2, none⟩,
   ⟨[0xD0, 0xB5, 0xD1, 0x82], -1, 1, none⟩,
   ⟨[0xD1, 0x83, 0xD0, 0xB5, 0xD1, 0x82], 4, 2, none⟩,
   ⟨[0xD0, 0xB8, 0xD1, 0x82], -1, 2, none⟩,
   ⟨[0xD0, 0xBD, 0xD1, 0x8B], -1, 1, none⟩,
   ⟨[0xD0, 0xB5, 0xD0, 0xBD, 0xD1, 0x8B], 7, 2, none⟩,
   ⟨[0xD1, 0x82, 0xD1, 0x8C], -1, 1, none⟩,
   ⟨[0xD1, 0x8B, 0xD1, 0x82, 0xD1, 0x8C], 9, 2, none⟩,
   ⟨[0xD0, 0xB8, 0xD1, 0x82, 0xD1, 0x8C], 9, 2, none⟩,
   ⟨[0xD0, 0xB5, 0xD1, 0x88, 0xD1, 0x8C], -1, 1, none⟩,
   ⟨[0xD0, 0xB8, 0xD1, 0x88, 0xD1, 0x8C], -1, 2, none⟩,
   ⟨[0xD1, 0x8E], -1, 2, none⟩,
   ⟨[0xD1, 0x83, 0xD1, 0x8E], 14, 2, none⟩,
   ⟨[0xD0, 0xBB, 0xD0, 0xB0], -1, 1, none⟩,
   ⟨[0xD1, 0x8B, 0xD0, 0xBB, 0xD0, 0xB0], 16, 2, none⟩,
   ⟨[0xD0, 0xB8, 0xD0, 0xBB, 0xD0, 0xB0], 16, 2, none⟩,
   ⟨[0xD0, 0xBD, 0xD0, 0xB0], -1, 1, none⟩,
   ⟨[0xD0, 0xB5, 0xD0, 0xBD, 0xD0, 0xB0], 19, 2, none⟩,
   ⟨[0xD0, 0xB5, 0xD1, 0x82, 0xD0, 0xB5], -1, 1, none⟩,
   ⟨[0xD0, 0xB8, 0xD1, 0x82, 0xD0, 0xB5], -1, 2, none⟩,
   ⟨[0xD0, 0xB9, 0xD1, 0x82, 0xD0, 0xB5], -1, 1, none⟩,
   ⟨[0xD1, 0x83, 0xD0, 0xB9, 0xD1, 0x82, 0xD0, 0xB5], 23, 2, none⟩,
   ⟨[0xD0, 0xB5, 0xD0, 0xB9, 0xD1, 0x82, 0xD0, 0xB5], 23, 2, none⟩,
   ⟨[0xD0, 0xBB, 0xD0, 0xB8], -1, 1, none⟩,
   ⟨[0xD1, 0x8B, 0xD0, 0xBB, 0xD0, 0xB8], 26, 2, none⟩,
   ⟨[0xD0, 0xB8, 0xD0, 0xBB, 0xD0, 0xB8], 26, 2, none⟩,
   ⟨[0xD0, 0xB9], -1, 1, none⟩,
   ⟨[0xD1, 0x83, 0xD0, 0xB9], 29, 2, none⟩,
   ⟨[0xD0, 0xB5, 0xD0, 0xB9], 29, 2, none⟩,
   ⟨[0xD0, 0xBB], -1, 1, none⟩,
   ⟨[0xD1, 0x8B, 0xD0, 0xBB], 32, 2, none⟩,
   ⟨[0xD0, 0xB8, 0xD0, 0xBB], 32, 2, none⟩,
   ⟨[0xD1, 0x8B, 0xD0, 0xBC], -1, 2, none⟩,
   ⟨[0xD0, 0xB5, 0xD0, 0xBC], -1, 1, none⟩,
   ⟨[0xD0, 0xB8, 0xD0, 0xBC], -1, 2, none⟩,
   ⟨[0xD0, 0xBD], -1, 1, none⟩,
   ⟨[0xD0, 0xB5, 0xD0, 0xBD], 38, 2, none⟩,
   ⟨[0xD0, 0xBB, 0xD0, 0xBE], -1, 1, none⟩,
   ⟨[0xD1, 0x8B, 0xD0, 0xBB, 0xD0, 0xBE], 40, 2, none⟩,
   ⟨[0xD0, 0xB8, 0xD0, 0xBB, 0xD0, 0xBE], 40, 2, none⟩,
   ⟨[0xD0, 0xBD, 0xD0, 0xBE], -1, 1, none⟩,
   ⟨[0xD0, 0xB5, 0xD0, 0xBD, 0xD0, 0xBE], 43, 2, none⟩,
   ⟨[0xD0, 0xBD, 0xD0, 0xBD, 0xD0, 0xBE], 43, 1, none⟩]

/-- Endings of nouns. -/
def a5 : List Among :=
  [⟨[0xD1, 0x83], -1, 1, none⟩,
   ⟨[0xD1, 0x8F, 0xD1, 0x85], -1, 1, none⟩,
   ⟨[0xD0, 0xB8, 0xD1, 0x8F, 0xD1, 0x85], 1, 1, none⟩,
   ⟨[0xD0, 0xB0, 0xD1, 0x85], -1, 1, none⟩,
   ⟨[0xD1, 0x8B], -1, 1, none⟩,
   ⟨[0xD1, 0x8C], -1, 1, none⟩,
   ⟨[0xD1, 0x8E], -1, 1, none⟩,
   ⟨[0xD1, 0x8C, 0xD1, 0x8E], 6, 1, none⟩,
   ⟨[0xD0, 0xB8, 0xD1, 0x8E], 6, 1, none⟩,
   ⟨[0xD1, 0x8F], -1, 1, none⟩,
   ⟨[0xD1, 0x8C, 0xD1, 0x8F], 9, 1, none⟩,
   ⟨[0xD0, 0xB8, 0xD1, 0x8F], 9, 1, none⟩,
   ⟨[0xD0, 0xB0], -1, 1, none⟩,
   ⟨[0xD0, 0xB5, 0xD0, 0xB2], -1, 1, none⟩,
   ⟨[0xD0, 0xBE, 0xD0, 0xB2], -1, 1, none⟩,
   ⟨[0xD0, 0xB5], -1, 1, none⟩,
   ⟨[0xD1, 0x8C, 0xD0, 0xB5], 15, 1, none⟩,
   ⟨[0xD0, 0xB8, 0xD0, 0xB5], 15, 1, none⟩,
   ⟨[0xD0, 0xB8], -1, 1, none⟩,
   ⟨[0xD0, 0xB5, 0xD0, 0xB8], 18, 1, none⟩,
   ⟨[0xD0, 0xB8, 0xD0, 0xB8], 18, 1, none⟩,
   ⟨[0xD1, 0x8F, 0xD0, 0xBC, 0xD0, 0xB8], 18, 1, none⟩,
   ⟨[0xD0, 0xB8, 0xD1, 0x8F, 0xD0, 0xBC, 0xD0, 0xB8], 21, 1, none⟩,
   ⟨[0xD0, 0xB0, 0xD0, 0xBC, 0xD0, 0xB8], 18, 1, none⟩,
   ⟨[0xD0, 0xB9], -1, 1, none⟩,
   ⟨[0xD0, 0xB5, 0xD0, 0xB9], 24, 1, none⟩,
   ⟨[0xD0, 0xB8, 0xD0, 0xB5, 0xD0, 0xB9], 25, 1, none⟩,
   ⟨[0xD0, 0xB8, 0xD0, 0xB9], 24, 1, none⟩,
   ⟨[0xD0, 0xBE, 0xD0, 0xB9], 24, 1, none⟩,
   ⟨[0xD1, 0x8F, 0xD0, 0xBC], -1, 1, none⟩,
   ⟨[0xD0, 0xB8, 0xD1, 0x8F, 0xD0, 0xBC], 29, 1, none⟩,
   ⟨[0xD0, 0xB0, 0xD0, 0xBC], -1, 1, none⟩,
   ⟨[0xD0, 0xB5, 0xD0, 0xBC], -1, 1, none⟩,
   ⟨[0xD0, 0xB8, 0xD0, 0xB5, 0xD0, 0xBC], 32, 1, none⟩,
   ⟨[0xD0, 0xBE, 0xD0, 0xBC], -1, 1, none⟩,
   ⟨[0xD0, 0xBE], -1, 1, none⟩]

/-- Derivational endings. -/
def a6 : List Among :=
  [⟨[0xD0, 0xBE, 0xD1, 0x81, 0xD1, 0x82], -1, 1, none⟩,
   ⟨[0xD0, 0xBE, 0xD1, 0x81, 0xD1, 0x82, 0xD1, 0x8C], -1, 1, none⟩]

/-- Superlatives, soft sign and н. -/
def a7 : List Among :=
  [⟨[0xD0, 0xB5, 0xD0, 0xB9, 0xD1, 0x88], -1, 1, none⟩,
   ⟨[0xD1, 0x8C], -1, 3, none⟩,
   ⟨[0xD0, 0xB5, 0xD0, 0xB9, 0xD1, 0x88, 0xD0, 0xB5], -1, 1, none⟩,
   ⟨[0xD0, 0xBD], -1, 2, none⟩]

/-- The vowels аеиоуыэюя, as bits from а on. -/
def gV : List UInt8 := [33, 65, 8, 232]

/-- а, the string `s_0`, and also `s_2` and `s_4`. -/
def s0 : Bytes := [0xD0, 0xB0]

/-- я, the string `s_1`, and also `s_3` and `s_5`. -/
def s1 : Bytes := [0xD1, 0x8F]

/-- н, the string `s_6`, and also `s_7` and `s_8`. -/
def s6 : Bytes := [0xD0, 0xBD]

/-- и. -/
def s9 : Bytes := [0xD0, 0xB8]

/-! ## Routines -/

/-- The part of `r_mark_regions` behind the first vowel: `p2` is set behind the first
consonant after the next vowel after the next consonant. -/
def markR2 : Routine :=
  andThen (gopast gV 1072 1103 true)
    (andThen (gopast gV 1072 1103 false)
      (andThen (gopast gV 1072 1103 true) fun z => .ok (1, { z with I1 := z.c })))

/-- `r_mark_regions`: `pV` is set behind the first vowel. A mark that is not set is the
limit. -/
def rMarkRegions : Routine := fun z =>
  doForward (andThen (gopast gV 1072 1103 false) fun z => markR2 { z with I0 := z.c })
    { z with I0 := z.l, I1 := z.l }

/-- `r_R2`. -/
def rR2 : Routine := fun z => .ok (if z.I1 ≤ z.c then 1 else 0, z)

/-- The common part of `r_perfective_gerund`, `r_adjectival` and `r_verb`: an ending of
the first group counts after а or я only. -/
def deleteGroups (amongVar : ℤ) : Routine :=
  match amongVar with
  | 1 => andThen (orBackward (literal s0) (literal s1)) delete
  | 2 => delete
  | _ => fun z => .ok (1, z)

/-- The common part of the routines whose endings are all alike. -/
def deleteAny (amongVar : ℤ) : Routine :=
  match amongVar with
  | 1 => delete
  | _ => fun z => .ok (1, z)

/-- `r_perfective_gerund`. -/
def rPerfectiveGerund : Routine := substring a0 deleteGroups

/-- `r_adjective`. -/
def rAdjective : Routine := substring a1 deleteAny

/-- `r_adjectival`: an adjective, and before its ending perhaps that of a participle. -/
def rAdjectival : Routine := andThen rAdjective (tryBackward (substring a2 deleteGroups))

/-- `r_reflexive`. -/
def rReflexive : Routine := precheck 3 [140, 143] (substring a3 deleteAny)

/-- `r_verb`. -/
def rVerb : Routine := substring a4 deleteGroups

/-- `r_noun`. -/
def rNoun : Routine := substring a5 deleteAny

/-- `r_derivational`. -/
def rDerivational : Routine :=
  precheck 5 [130, 140] (substring a6 fun amongVar => andThen rR2 (deleteAny amongVar))

/-- The cases of `r_tidy_up`: a superlative with a doubled н before it, a doubled н, a
soft sign. -/
def tidy (amongVar : ℤ) : Routine :=
  match amongVar with
  | 1 => andThen delete fun z =>
      andThen (literal s6)
        (fun z => andThen (literal s6) delete { z with bra := z.c }) { z with ket := z.c }
  | 2 => andThen (literal s6) delete
  | 3 => delete
  | _ => fun z => .ok (1, z)

/-- `r_tidy_up`. -/
def rTidyUp : Routine := substring a7 tidy

/-- The `try` of `russian_UTF_8_stem` that deletes и. -/
def tryI : Routine :=
  tryBackward fun z =>
    andThen (literal s9) (fun z => delete { z with bra := z.c }) { z with ket := z.c }

/-- The commands of `russian_UTF_8_stem` between `setlimit` and its end. -/
def endings : Routine :=
  andThen
    (doBackward
      (orBackward rPerfectiveGerund
        (andThen (tryBackward rReflexive)
          (orBackward rAdjectival (orBackward rVerb rNoun)))))
    (andThen tryI (andThen (doBackward rDerivational) (doBackward rTidyUp)))

/-- `russian_UTF_8_stem`. -/
def russianUTF8Stem : Routine := fun z => do
  let c1 := z.c
  let (ret, z) ← rMarkRegions z
  if ret < 0 then return (ret, z)
  let z := { z with c := c1 }
  let z := { z with lb := z.c }
  let z := { z with c := z.l }
  let m2 := z.l - z.c
  if z.c < z.I0 then return (0, z)
  let mlimit := z.lb
  let z := { z with lb := z.I0 }
  let z := { z with c := z.l - m2 }
  let (ret, z) ← endings z
  if ret < 0 then return (ret, z)
  let z := { z with lb := mlimit }
  return (1, { z with c := z.lb })

end SearchTools.Stemmer2.Russian
