/-
# What the Russian stemmer computes

The stemmer works on the bytes of a word; on a word in a code in which endings can be
recognized it follows the rules of the algorithm. Bytes are such a code for themselves,
and UTF-8 is one for letters.
-/

import SearchTools.Stemmer2.Characters
import SearchTools.Stemmer2.Russian
import SearchTools.Stemmer2.RussianRules

namespace SearchTools.Stemmer2.Russian

open SearchTools.Library SnEnv

/-! ## Tables -/

theorem isTable_a0 : IsPlainTable (fun w => w.s.reverse) a0 := by decide +kernel
theorem isTable_a1 : IsPlainTable (fun w => w.s.reverse) a1 := by decide +kernel
theorem isTable_a2 : IsPlainTable (fun w => w.s.reverse) a2 := by decide +kernel
theorem isTable_a3 : IsPlainTable (fun w => w.s.reverse) a3 := by decide +kernel
theorem isTable_a4 : IsPlainTable (fun w => w.s.reverse) a4 := by decide +kernel
theorem isTable_a5 : IsPlainTable (fun w => w.s.reverse) a5 := by decide +kernel
theorem isTable_a6 : IsPlainTable (fun w => w.s.reverse) a6 := by decide +kernel
theorem isTable_a7 : IsPlainTable (fun w => w.s.reverse) a7 := by decide +kernel

/-- The letters of an alphabet are written as the stemmer expects them. -/
structure Coded {α : Type} (φ : List α → Bytes) (E : Letters α) : Prop where
  coding : Coding φ
  perfectiveGerund : Codes φ a0 E.perfectiveGerund
  adjective : Codes φ a1 E.adjective
  participle : Codes φ a2 E.participle
  reflexive : Codes φ a3 E.reflexive
  verb : Codes φ a4 E.verb
  noun : Codes φ a5 E.noun
  derivational : Codes φ a6 E.derivational
  tidyUp : Codes φ a7 E.tidyUp
  a : φ E.a = s0
  ya : φ E.ya = s1
  n : φ E.n = s6
  i : φ E.i = s9

/-- The bytes that the stemmer looks for. -/
def byteLetters : Letters UInt8 where
  perfectiveGerund := a0.map fun w => (w.s, w.result)
  adjective := a1.map fun w => (w.s, w.result)
  participle := a2.map fun w => (w.s, w.result)
  reflexive := a3.map fun w => (w.s, w.result)
  verb := a4.map fun w => (w.s, w.result)
  noun := a5.map fun w => (w.s, w.result)
  derivational := a6.map fun w => (w.s, w.result)
  tidyUp := a7.map fun w => (w.s, w.result)
  a := s0
  ya := s1
  n := s6
  i := s9

theorem coded_id : Coded id byteLetters :=
  ⟨Coding.id, rfl, rfl, rfl, rfl, rfl, rfl, rfl, rfl, rfl, rfl, rfl, rfl⟩

instance {α : Type} (φ : List α → Bytes) (v : List Among) (V : List (List α × ℤ)) :
    Decidable (Codes φ v V) := inferInstanceAs (Decidable (_ = _))

theorem coded_utf8 : Coded utf8 russian := by
  refine ⟨Coding.utf8, ?_, ?_, ?_, ?_, ?_, ?_, ?_, ?_, ?_, ?_, ?_, ?_⟩ <;> decide +kernel

/-! ## Routines -/

section Routines

variable {α : Type} [DecidableEq α] {φ : List α → Bytes} {E : Letters α} {front : Bytes} {p2 : ℕ}
  {v : List Among} {V : List (List α × ℤ)}

theorem acts_cut (hφ : Coding φ) (hv : IsPlainTable (fun w => w.s.reverse) v) (hV : Codes φ v V)
    (hone : ∀ w ∈ v, w.result = 1) :
    Acts φ front p2 true (substring v deleteAny) (cut V) := by
  refine Acts.substring hφ hv hV (fun w hw => by simp [hone w hw]) fun e he rest z h hc => ?_
  obtain ⟨z', hdelete, h', hc'⟩ := h.delete_eq hφ
  rw [hV.forall_group (P := (· = 1)) hone e he]
  refine ⟨z', hdelete, h', fun _ _ => ?_⟩
  rw [hc', hc, h.bra, h'.l]

theorem acts_cutGrouped (hE : Coded φ E) (hv : IsPlainTable (fun w => w.s.reverse) v)
    (hV : Codes φ v V) (hgroup : ∀ w ∈ v, w.result = 1 ∨ w.result = 2) :
    Acts φ front p2 false (substring v deleteGroups) (cutGrouped E V) := by
  have hφ := hE.coding
  have hnonzero : ∀ w ∈ v, w.result ≠ 0 := fun w hw => by
    rcases hgroup w hw with hg | hg <;> simp [hg]
  refine Acts.substring hφ hv hV hnonzero fun e he rest z h hc => ?_
  rcases hV.forall_group (P := fun g => g = 1 ∨ g = 2) hgroup e he with hg | hg
  · obtain ⟨z', hdelete, h'⟩ := h.literals_delete hφ hc E.a E.ya
    rw [hE.a, hE.ya] at hdelete
    rw [hg]
    refine ⟨z', ?_, ?_, (absurd · Bool.false_ne_true)⟩
    · rw [deleteGroups, hdelete]
      by_cases hbehind : E.a <:+ rest ∨ E.ya <:+ rest <;> simp [hbehind]
    · by_cases hbehind : E.a <:+ rest ∨ E.ya <:+ rest
      · simpa [hbehind] using h'
      · simpa [hbehind] using h'
  · obtain ⟨z', hdelete, h', -⟩ := h.delete_eq hφ
    rw [hg, if_pos (Or.inl rfl)]
    exact ⟨z', hdelete, h', (absurd · Bool.false_ne_true)⟩

theorem acts_adjectival (hE : Coded φ E) :
    Acts φ front p2 false rAdjectival (adjectival E) :=
  (acts_cut hE.coding isTable_a1 hE.adjective (by decide)).andThen
    (acts_cutGrouped hE isTable_a2 hE.participle (by decide)).tryBackward

theorem acts_reflexive (hE : Coded φ E) : Acts φ front p2 true rReflexive (cut E.reflexive) :=
  Acts.precheck hE.coding hE.reflexive (by decide)
    (acts_cut hE.coding isTable_a3 hE.reflexive (by decide))

theorem acts_inflection (hE : Coded φ E) :
    Acts φ front p2 false
      (orBackward rPerfectiveGerund
        (andThen (tryBackward rReflexive) (orBackward rAdjectival (orBackward rVerb rNoun))))
      (inflection E) :=
  (acts_cutGrouped hE isTable_a0 hE.perfectiveGerund (by decide)).orBackward
    ((acts_reflexive hE).tryBackward.andThen
      ((acts_adjectival hE).orBackward
        ((acts_cutGrouped hE isTable_a4 hE.verb (by decide)).orBackward
          (acts_cut hE.coding isTable_a5 hE.noun (by decide)).forget)))

/-- The region of the derivational endings begins at `p2`. -/
theorem acts_derivational (hE : Coded φ E) :
    Acts φ front p2 false rDerivational
      (derivational E fun rest => decide (p2 ≤ front.length + (φ rest).length)) := by
  have hφ := hE.coding
  have hone : ∀ w ∈ a6, w.result = 1 := by decide
  refine Acts.precheck hφ hE.derivational (by decide) (Acts.substring hφ isTable_a6 hE.derivational
    (by decide) fun e he rest z h hc => ?_)
  have hR2 : rR2 z = .ok (if p2 ≤ front.length + (φ rest).length then 1 else 0, z) := by
    rw [rR2, h.holds.I1, hc, h.bra]
  rw [hE.derivational.forall_group (P := (· = 1)) hone e he, andThen, hR2, ok_bind]
  by_cases hreach : p2 ≤ front.length + (φ rest).length
  · obtain ⟨z', hdelete, h', -⟩ := h.delete_eq hφ
    simp only [hreach, decide_true, if_true]
    exact ⟨z', hdelete, h', (absurd · Bool.false_ne_true)⟩
  · simp only [hreach, decide_false, if_false]
    exact ⟨z, rfl, h.holds, (absurd · Bool.false_ne_true)⟩

theorem acts_lastI (hE : Coded φ E) : Acts φ front p2 true tryI (lastI E).attempt := by
  refine Acts.tryBackward fun word z h hc => ?_
  rw [← hE.i]
  rcases bracket_eq hE.coding E.i delete h hc with ⟨hnot, hrun⟩ | ⟨rest, z', rfl, hrun, hsliced, hc'⟩
  · rw [hrun, lastI, if_neg hnot]
    exact ⟨_, rfl, h.with_ket _, fun _ => (absurd · Bool.false_ne_true)⟩
  · obtain ⟨z'', hdelete, h'', hc''⟩ := hsliced.delete_eq hE.coding
    rw [hrun, lastI, if_pos (List.suffix_append _ _)]
    simp only [List.length_append, Nat.add_sub_cancel_right, List.take_left]
    exact ⟨z'', hdelete, h'', fun _ _ => by rw [hc'', hc', hsliced.bra, h''.l]⟩

theorem acts_undouble (hE : Coded φ E) :
    Acts φ front p2 false
      (fun z => andThen (literal s6)
        (fun z => andThen (literal s6) delete { z with bra := z.c }) { z with ket := z.c })
      (undouble E) := by
  intro word z h hc
  rw [← hE.n]
  dsimp only
  rcases bracket_eq hE.coding E.n (andThen (literal (φ E.n)) delete) h hc with
    ⟨hnot, hrun⟩ | ⟨rest, z', rfl, hrun, hsliced, hc'⟩
  · have htwice : ¬ E.n ++ E.n <:+ word := fun hs => hnot ((List.suffix_append _ _).trans hs)
    rw [hrun, undouble, if_neg htwice]
    exact ⟨_, rfl, h.with_ket _, (absurd · Bool.false_ne_true)⟩
  · obtain ⟨z'', hdelete, h''⟩ := hsliced.literal_delete hE.coding hc' E.n
    rw [hrun, undouble]
    by_cases hn : E.n <:+ rest
    · rw [if_pos hn] at hdelete h''
      rw [if_pos (twice_suffix_iff.mpr hn)]
      simp only [List.length_append, Nat.add_sub_cancel_right, List.take_left]
      exact ⟨z'', hdelete, h'', (absurd · Bool.false_ne_true)⟩
    · rw [if_neg hn] at hdelete h''
      rw [if_neg (fun hs => hn (twice_suffix_iff.mp hs))]
      exact ⟨z'', hdelete, h'', (absurd · Bool.false_ne_true)⟩

theorem acts_tidyUp (hE : Coded φ E) : Acts φ front p2 false rTidyUp (tidyUp E) := by
  have hφ := hE.coding
  have hgroup : ∀ w ∈ a7, w.result = 1 ∨ w.result = 2 ∨ w.result = 3 := by decide
  refine Acts.substring hφ isTable_a7 hE.tidyUp (by decide) fun e he rest z h hc => ?_
  obtain ⟨z', hdelete, h', hc'⟩ := h.delete_eq hφ
  rcases hE.tidyUp.forall_group (P := fun g => g = 1 ∨ g = 2 ∨ g = 3) hgroup e he with
    hg | hg | hg
  · rw [hg, if_pos rfl, tidy, andThen, hdelete, ok_bind]
    exact acts_undouble hE rest z' h' (by rw [hc', hc, h.bra, h'.l])
  · obtain ⟨z'', hliteral, h''⟩ := h.literal_delete hφ hc E.n
    rw [hE.n] at hliteral
    rw [hg, if_neg (by decide : ¬ (2 : ℤ) = 1), if_pos rfl, tidy, hliteral]
    by_cases hn : E.n <:+ rest
    · simp only [hn, if_true] at h'' ⊢
      exact ⟨z'', rfl, h'', (absurd · Bool.false_ne_true)⟩
    · simp only [hn, if_false] at h'' ⊢
      exact ⟨z'', rfl, h'', (absurd · Bool.false_ne_true)⟩
  · rw [hg, if_neg (by decide : ¬ (3 : ℤ) = 1), if_neg (by decide : ¬ (3 : ℤ) = 2), tidy]
    exact ⟨z', hdelete, h', (absurd · Bool.false_ne_true)⟩

/-- The stemmer follows the rules in the zone behind the limit. -/
theorem acts_endings (hE : Coded φ E) :
    Acts φ front p2 true endings fun word =>
      (true, stemRegion E (fun rest => decide (p2 ≤ front.length + (φ rest).length)) word) :=
  (acts_inflection hE).doBackward.andThen
    ((acts_lastI hE).andThen
      ((acts_derivational hE).doBackward.andThen (acts_tidyUp hE).doBackward))

end Routines

/-! ## Regions -/

theorem covers_gV : Covers gV 1072 1103 := Nat.lt_of_sub_pos (by decide)

/-- The grouping of the stemmer has the vowels. -/
theorem bitOf_gV (ch : Char) : bitOf gV 1072 1103 ch.val.toNat = isVowel ch := by
  have hletters : ∀ n < 32, bitOf gV 1072 1103 (1072 + n) =
      decide (1072 + n ∈ [1072, 1077, 1080, 1086, 1091, 1099, 1101, 1102, 1103]) := by
    decide +kernel
  have hmem : isVowel ch =
      decide (ch.val.toNat ∈ [1072, 1077, 1080, 1086, 1091, 1099, 1101, 1102, 1103]) := by
    rw [isVowel]
    refine decide_eq_decide.mpr ?_
    simp only [List.mem_cons, List.not_mem_nil, or_false, Char.ext_iff, ← UInt32.toNat_inj]
    rfl
  by_cases hin : 1072 ≤ ch.val.toNat ∧ ch.val.toNat ≤ 1103
  · have hletter := hletters (ch.val.toNat - 1072) (by omega)
    rw [Nat.add_sub_cancel' hin.1] at hletter
    rw [hletter, hmem]
  · rw [hmem, bitOf, decide_eq_false hin, Bool.false_and, eq_comm, decide_eq_false_iff_not]
    simp only [List.mem_cons, List.not_mem_nil, or_false]
    omega

variable {z : SnEnv}

/-- The second mark depends on the word alone. -/
theorem markR2_agrees (hl : z.l ≤ z.p.length) (hc : z.c ≤ z.l) :
    ∃ ret c, ∃ p2 : Option ℕ, 0 ≤ ret ∧ ∀ z', Agrees z z' →
      markR2 z' = .ok (ret, { z' with c := c, I1 := p2.getD z'.I1 }) := by
  obtain ⟨c1, hc1, hrun1 | hrun1⟩ := @gopast_agrees z gV 1072 1103 true covers_gV hl hc
  · exact ⟨0, c1, none, Int.le_refl _, fun z' h => andThen_of_fail (hrun1 z' h) _⟩
  obtain ⟨c2, hc2, hrun2 | hrun2⟩ :=
    @gopast_agrees { z with c := c1 } gV 1072 1103 false covers_gV hl hc1
  · refine ⟨0, c2, none, Int.le_refl _, fun z' h => ?_⟩
    rw [markR2, andThen_of_ok (hrun1 z' h)]
    exact andThen_of_fail (hrun2 { z' with c := c1 } ⟨rfl, h.l, h.symbol⟩) _
  obtain ⟨c3, hc3, hrun3 | hrun3⟩ :=
    @gopast_agrees { z with c := c2 } gV 1072 1103 true covers_gV hl hc2
  · refine ⟨0, c3, none, Int.le_refl _, fun z' h => ?_⟩
    rw [markR2, andThen_of_ok (hrun1 z' h),
      andThen_of_ok (hrun2 { z' with c := c1 } ⟨rfl, h.l, h.symbol⟩)]
    exact andThen_of_fail (hrun3 { z' with c := c2 } ⟨rfl, h.l, h.symbol⟩) _
  · refine ⟨1, c3, some c3, by decide, fun z' h => ?_⟩
    rw [markR2, andThen_of_ok (hrun1 z' h),
      andThen_of_ok (hrun2 { z' with c := c1 } ⟨rfl, h.l, h.symbol⟩)]
    exact andThen_of_ok (hrun3 { z' with c := c2 } ⟨rfl, h.l, h.symbol⟩) _

/-- The marks are set on any bytes, alike in all buffers with the same word, and the first
one stays within the word. -/
theorem rMarkRegions_agrees (hl : z.l ≤ z.p.length) (hc : z.c ≤ z.l) :
    ∃ pV p2, pV ≤ z.l ∧ ∀ z', Agrees z z' →
      rMarkRegions z' = .ok (1, { z' with I0 := pV, I1 := p2 }) := by
  obtain ⟨c, hc, hrun | hrun⟩ := @gopast_agrees z gV 1072 1103 false covers_gV hl hc
  · refine ⟨z.l, z.l, Nat.le_refl _, fun z' h => ?_⟩
    have hfail := hrun { z' with I0 := z'.l, I1 := z'.l } ⟨h.c, h.l, h.symbol⟩
    rw [rMarkRegions, doForward_of_ok (andThen_of_fail hfail _) (Int.le_refl _), h.l]
  · obtain ⟨ret, c', p2, hret, hmark⟩ := @markR2_agrees { z with c := c } hl hc
    refine ⟨c, p2.getD z.l, hc, fun z' h => ?_⟩
    have hvowel := hrun { z' with I0 := z'.l, I1 := z'.l } ⟨h.c, h.l, h.symbol⟩
    have hmarks := hmark { z' with I0 := c, I1 := z'.l, c := c } ⟨rfl, h.l, h.symbol⟩
    have hseq := (andThen_of_ok hvowel fun z => markR2 { z with I0 := z.c }).trans hmarks
    rw [rMarkRegions, doForward_of_ok hseq hret, ← h.l]

theorem passes_vowel (ch : Char) : (bitOf gV 1072 1103 ch.val.toNat == false) = !isVowel ch := by
  rw [bitOf_gV, beq_false]

theorem passes_consonant (ch : Char) :
    (bitOf gV 1072 1103 ch.val.toNat == true) = !(!isVowel ch) := by
  rw [bitOf_gV, beq_true, Bool.not_not]

/-- The second mark, from behind the first vowel on. -/
theorem markR2_text {rv : List Char} (h : At rv z) (hrv : ∀ ch ∈ rv, ch.utf8Size ≤ 3) :
    ∃ ret c, markR2 z = .ok (ret, { z with
      c := c
      I1 := (((past (fun ch => !isVowel ch) rv).bind regionR1).map
        fun r2 => z.l - (utf8 r2).length).getD z.I1 }) ∧ 0 ≤ ret := by
  rw [markR2]
  rcases h.gopast_eq covers_gV passes_consonant hrv with
    ⟨hnone, c, hrun⟩ | ⟨r1, hr1, hsuffix1, c, hrun, hat⟩
  · rw [andThen_of_fail hrun, hnone]
    exact ⟨0, c, rfl, Int.le_refl _⟩
  have hr1' : ∀ ch ∈ r1, ch.utf8Size ≤ 3 := fun ch hch => hrv ch (hsuffix1.subset hch)
  rw [andThen_of_ok hrun, Option.mem_def.mp hr1, Option.bind_some, regionR1]
  rcases hat.gopast_eq covers_gV passes_vowel hr1' with
    ⟨hnone, c, hrun⟩ | ⟨v, hv, hsuffix2, c, hrun, hat⟩
  · rw [andThen_of_fail hrun, hnone]
    exact ⟨0, c, rfl, Int.le_refl _⟩
  have hv' : ∀ ch ∈ v, ch.utf8Size ≤ 3 := fun ch hch => hr1' ch (hsuffix2.subset hch)
  rw [andThen_of_ok hrun, Option.mem_def.mp hv]
  rcases hat.gopast_eq covers_gV passes_consonant hv' with
    ⟨hnone, c, hrun⟩ | ⟨r2, hr2, hsuffix3, c, hrun, hat⟩
  · rw [andThen_of_fail hrun]
    exact ⟨0, c, by simp [hnone], Int.le_refl _⟩
  · rw [andThen_of_ok hrun]
    have hc : z.l - (utf8 r2).length = c := by
      have := hat.c
      dsimp only at this
      omega
    exact ⟨1, c, by simp [Option.mem_def.mp hr2, hc], by decide⟩

/-- On a text the marks are where the regions begin. -/
theorem rMarkRegions_text {word : List Char} (h : At word z)
    (hword : ∀ ch ∈ word, ch.utf8Size ≤ 3) :
    rMarkRegions z = .ok (1, { z with
      I0 := z.l - (utf8 (regionRV word)).length
      I1 := z.l - (utf8 (regionR2 word)).length }) := by
  have hnil : (utf8 []).length = 0 := rfl
  have hstart : At word { z with I0 := z.l, I1 := z.l } := ⟨h.suffix, h.c, h.l⟩
  rw [rMarkRegions]
  rcases hstart.gopast_eq covers_gV passes_vowel hword with
    ⟨hnone, c, hrun⟩ | ⟨rv, hrv, hsuffix, c, hrun, hat⟩
  · rw [doForward_of_ok (andThen_of_fail hrun _) (Int.le_refl _)]
    simp [regionRV, regionR2, regionR1, hnone, hnil]
  · have hat' : At rv { z with I0 := c, I1 := z.l, c := c } := ⟨hat.suffix, hat.c, hat.l⟩
    obtain ⟨ret, c', hmark, hret⟩ :=
      markR2_text hat' fun ch hch => hword ch (hsuffix.subset hch)
    have hc : z.l - (utf8 rv).length = c := by
      have := hat.c
      dsimp only at this
      omega
    have hseq := (andThen_of_ok hrun fun z => markR2 { z with I0 := z.c }).trans hmark
    rw [doForward_of_ok hseq hret, regionRV, Option.mem_def.mp hrv]
    have hr2 : z.l - (utf8 (regionR2 word)).length =
        (((past (fun ch => !isVowel ch) rv).bind regionR1).map
          fun r2 => z.l - (utf8 r2).length).getD z.l := by
      rw [regionR2, regionR1, Option.mem_def.mp hrv, Option.bind_some]
      cases (past (fun ch => !isVowel ch) rv).bind regionR1 with
      | none => rfl
      | some r2 => rfl
    simp only [Option.getD_some, hc, hr2]

/-! ## Stems -/

section Stems

variable {α : Type} [DecidableEq α] {φ : List α → Bytes} {E : Letters α} {w : Bytes}

/-- The stemmer leaves the part of the word before the first mark, and what the rules leave
of the rest. -/
theorem russianUTF8Stem_eq (hE : Coded φ E) (h : Contains w z) (hc : z.c = 0) {pV p2 : ℕ}
    (hmarks : rMarkRegions z = .ok (1, { z with I0 := pV, I1 := p2 })) (hpV : pV ≤ z.l)
    {word : List α} (hword : w.drop pV = φ word) :
    ∃ z', russianUTF8Stem z = .ok (1, z') ∧ Contains (w.take pV ++
      φ (stemRegion E (fun rest => decide (p2 ≤ pV + (φ rest).length)) word)) z' := by
  obtain ⟨junk, hp⟩ := h.p
  have hfront : (w.take pV).length = pV := by
    rw [List.length_take, Nat.min_eq_left (h.l ▸ hpV)]
  have hholds : Holds (w.take pV) p2 (φ word) { z with I0 := pV, I1 := p2, lb := pV, c := z.l } := by
    refine ⟨⟨junk, ?_⟩, ?_, hfront.symm, rfl⟩
    · rw [hp, ← hword, List.take_append_drop]
    · rw [← hword, ← List.length_append, List.take_append_drop]
      exact h.l
  obtain ⟨z', hrun, h', -⟩ := acts_endings hE word _ hholds rfl
  rw [hfront] at hrun h'
  refine ⟨{ z' with lb := 0, c := 0 }, ?_, h'.p, ?_⟩
  · rw [russianUTF8Stem, hmarks, ok_bind]
    dsimp only
    rw [if_neg (by decide), if_neg (Nat.not_lt.mpr hpV), hc, Nat.sub_self, Nat.sub_zero, hrun]
    rfl
  · rw [List.length_append]
    exact h'.l

end Stems

variable {w : Bytes}

/-- The marks `pV` and `p2` of a word. -/
def marks (w : Bytes) : ℕ × ℕ :=
  match rMarkRegions (holding w) with
  | .ok (_, z) => (z.I0, z.I1)
  | .error _ => (w.length, w.length)

theorem rMarkRegions_marks (h : Contains w z) (hc : z.c = 0) :
    (marks w).1 ≤ w.length ∧
      rMarkRegions z = .ok (1, { z with I0 := (marks w).1, I1 := (marks w).2 }) := by
  obtain ⟨pV, p2, hpV, hrun⟩ :=
    @rMarkRegions_agrees (holding w) (contains_holding w).le_length (Nat.zero_le _)
  have hmarks : marks w = (pV, p2) := by
    rw [marks, hrun (holding w) ((contains_holding w).agrees rfl)]
  rw [hmarks]
  exact ⟨hpV, hrun z (h.agrees hc)⟩

/-- What the stemmer makes of any bytes. -/
def stemBytes (w : Bytes) : Bytes :=
  w.take (marks w).1 ++
    stemRegion byteLetters (fun rest => decide ((marks w).2 ≤ (marks w).1 + rest.length))
      (w.drop (marks w).1)

theorem stemBytes_begins (w : Bytes) : w.take (marks w).1 <+: stemBytes w ∧ stemBytes w <+: w := by
  refine ⟨List.prefix_append _ _, ?_⟩
  have hregion := stemRegion_begins byteLetters
    (fun rest => decide ((marks w).2 ≤ (marks w).1 + rest.length)) (w.drop (marks w).1)
  have hfront := (List.prefix_append_right_inj (w.take (marks w).1)).mpr hregion
  rwa [List.take_append_drop] at hfront

/-- On any bytes the stemmer follows the rules. -/
theorem russianUTF8Stem_bytes (h : Contains w z) (hc : z.c = 0) :
    ∃ z', russianUTF8Stem z = .ok (1, z') ∧ Contains (stemBytes w) z' := by
  obtain ⟨hpV, hmarks⟩ := rMarkRegions_marks h hc
  exact russianUTF8Stem_eq coded_id h hc hmarks (h.l ▸ hpV) rfl

theorem past_suffix {p : Char → Bool} {word rest : List Char} (h : past p word = some rest) :
    rest <:+ word := by
  rw [past] at h
  cases hdrop : word.dropWhile fun ch => !p ch with
  | nil => simp [hdrop] at h
  | cons ch more =>
      rw [hdrop, List.tail?_cons] at h
      exact Option.some.inj h ▸ (List.suffix_cons ch more).trans (hdrop ▸ List.dropWhile_suffix _)

theorem regionR1_suffix {word r1 : List Char} (h : regionR1 word = some r1) : r1 <:+ word := by
  obtain ⟨rv, hrv, hr1⟩ := Option.bind_eq_some_iff.mp h
  exact (past_suffix hr1).trans (past_suffix hrv)

theorem regionRV_suffix (word : List Char) : regionRV word <:+ word := by
  rw [regionRV]
  cases hrv : past isVowel word with
  | none => exact List.nil_suffix
  | some rv => exact past_suffix hrv

theorem regionR2_suffix (word : List Char) : regionR2 word <:+ word := by
  rw [regionR2]
  cases hr2 : (regionR1 word).bind regionR1 with
  | none => exact List.nil_suffix
  | some r2 =>
      obtain ⟨r1, hr1, hr2⟩ := Option.bind_eq_some_iff.mp hr2
      exact (regionR1_suffix hr2).trans (regionR1_suffix hr1)

/-- Being in a region does not depend on how positions are counted. -/
theorem le_length_iff {word front rest region : List Char} (hrest : front ++ rest <+: word)
    (hregion : region <:+ word) :
    (utf8 word).length - (utf8 region).length ≤ (utf8 front).length + (utf8 rest).length ↔
      word.length - region.length ≤ front.length + rest.length := by
  obtain ⟨tail, rfl⟩ := hrest
  have htail : tail <:+ front ++ rest ++ tail := List.suffix_append _ _
  have hle := Coding.utf8.length_le_iff htail hregion
  have hlong := (Coding.utf8.suffix_iff.mpr hregion).length_le
  have hlong' := hregion.length_le
  simp only [utf8_append, List.length_append] at hlong hlong' ⊢
  omega

/-- On texts the stemmer is the algorithm on letters. -/
theorem stemBytes_utf8 {word : List Char} (hword : ∀ ch ∈ word, ch.utf8Size ≤ 3) :
    stemBytes (utf8 word) = utf8 (stem word) := by
  have h := contains_holding (utf8 word)
  have hc : (holding (utf8 word)).c = 0 := rfl
  have hat : At word (holding (utf8 word)) :=
    ⟨⟨[], List.take_left.symm⟩, Nat.zero_add _, h.le_length⟩
  obtain ⟨front, hfront⟩ := regionRV_suffix word
  have hlength := congrArg List.length hfront
  have hcode := congrArg utf8 hfront
  have hbytes := congrArg List.length hcode
  rw [utf8_append] at hcode
  rw [utf8_append, List.length_append] at hbytes
  rw [List.length_append] at hlength
  have hpV : (utf8 word).length - (utf8 (regionRV word)).length = (utf8 front).length := by
    omega
  have htake : word.take (word.length - (regionRV word).length) = front := by
    rw [show word.length - (regionRV word).length = front.length by omega]
    nth_rewrite 1 [← hfront]
    exact List.take_left
  have hzone : (utf8 word).drop (utf8 front).length = utf8 (regionRV word) := by
    rw [← hcode, List.drop_left]
  have hmarks := rMarkRegions_text hat hword
  rw [show (holding (utf8 word)).l = (utf8 word).length from rfl, hpV] at hmarks
  obtain ⟨z, hrun, hz⟩ := russianUTF8Stem_eq coded_utf8 h hc hmarks
    (by rw [h.l]; omega) hzone
  obtain ⟨z', hrun', hz'⟩ := russianUTF8Stem_bytes h hc
  obtain rfl := (Prod.mk.inj (Except.ok.inj (hrun.symm.trans hrun'))).2
  have hsame : stemRegion russian (fun rest => decide ((utf8 word).length -
      (utf8 (regionR2 word)).length ≤ (utf8 front).length + (utf8 rest).length)) (regionRV word) =
      stemRegion russian (fun rest => decide (word.length - (regionR2 word).length ≤
        front.length + rest.length)) (regionRV word) := by
    refine stemRegion_congr russian fun rest hrest => decide_eq_decide.mpr ?_
    exact le_length_iff (hfront ▸ (List.prefix_append_right_inj front).mpr hrest)
      (regionR2_suffix word)
  rw [hsame, ← hcode, List.take_left, ← utf8_append] at hz
  rw [stem, htake]
  exact hz'.unique hz

/-- On a text of characters of at most three bytes the stemmer computes the stem, whatever
words the buffer has held before. -/
theorem russianUTF8Stem_text {word : List Char} (hword : ∀ ch ∈ word, ch.utf8Size ≤ 3)
    (h : Contains (utf8 word) z) (hc : z.c = 0) :
    ∃ z', russianUTF8Stem z = .ok (1, z') ∧ Contains (utf8 (stem word)) z' := by
  rw [← stemBytes_utf8 hword]
  exact russianUTF8Stem_bytes h hc

theorem russianUTF8Stem_text_sample :
    ∃ z', russianUTF8Stem (holding (utf8 ['д', 'о', 'м', 'а'])) = .ok (1, z') ∧
      Contains (utf8 (stem ['д', 'о', 'м', 'а'])) z' := by
  refine russianUTF8Stem_text ?_ (contains_holding _) rfl
  simp only [List.forall_mem_cons]
  exact ⟨by decide, by decide, by decide, by decide, fun _ h => absurd h List.not_mem_nil⟩

-- A character of four bytes is read as one of three: U+10C00 begins like `а`.
example : stemBytes (utf8 [Char.ofNat 0x10C00, 'в', 'а']) ≠
    utf8 (stem [Char.ofNat 0x10C00, 'в', 'а']) := by decide +kernel

/-- On any bytes whatever the stemmer comes to an end without a fault, and leaves a beginning
of the word that is not shorter than the part before the first mark. -/
theorem russianUTF8Stem_any (h : Contains w z) (hc : z.c = 0) :
    ∃ stem z', russianUTF8Stem z = .ok (1, z') ∧ Contains stem z' ∧ stem <+: w ∧
      w.take (marks w).1 <+: stem := by
  obtain ⟨z', hrun, hz'⟩ := russianUTF8Stem_bytes h hc
  exact ⟨stemBytes w, z', hrun, hz', (stemBytes_begins w).2, (stemBytes_begins w).1⟩

theorem russianUTF8Stem_any_sample :
    ∃ stem z', russianUTF8Stem (holding [0xFF, 0xD0, 0xB0, 0xD0]) = .ok (1, z') ∧
      Contains stem z' ∧ stem <+: [0xFF, 0xD0, 0xB0, 0xD0] ∧
      List.take (marks [0xFF, 0xD0, 0xB0, 0xD0]).1 [0xFF, 0xD0, 0xB0, 0xD0] <+: stem :=
  russianUTF8Stem_any (contains_holding _) rfl

end SearchTools.Stemmer2.Russian
