/-
# The question marks of a word

What becomes of the `?` of a word whose segments are all converted. `strtok` skips
the empty pieces between them, and the loop writes one `?` for each piece that is
left, so a `?` at the start and all but one of several in a row are lost.
-/

import SearchTools.Conv2.TryConvert
import SearchTools.Library.Pieces

namespace SearchTools.Conv2

open SearchTools.Library

variable {glib : Glib}

/-- What a piece between two `?` becomes. Nothing is converted where there is
nothing. -/
def convertedPiece (glib : Glib) (w : Bytes) : Bytes :=
  if w = [] then [] else (convertSegment glib w).getD []

/-- The word with every piece converted and every `?` in its place. -/
def keepingMarks (glib : Glib) (word : Bytes) : Bytes :=
  [63].intercalate ((word.splitOn 63).map (convertedPiece glib))

/-- What the loop writes for pieces: each of them converted, with a `?` behind it. -/
def written (glib : Glib) (ws : List Bytes) : Bytes :=
  ws.flatMap fun w => convertedPiece glib w ++ [63]

theorem written_append (ws ws' : List Bytes) :
    written glib (ws ++ ws') = written glib ws ++ written glib ws' := List.flatMap_append

theorem written_singleton (w : Bytes) : written glib [w] = convertedPiece glib w ++ [63] :=
  List.flatMap_singleton _ _

/-- The word with every `?` in its place is written from all of its pieces. -/
theorem keepingMarks_concat (word : Bytes) :
    keepingMarks glib word ++ [63] = written glib (word.splitOn 63) := by
  have hne : (word.splitOn 63).map (convertedPiece glib) ≠ [] := by
    intro hnil
    exact List.splitOn_ne_nil 63 word (List.map_eq_nil_iff.mp hnil)
  rw [keepingMarks, intercalate_concat 63 hne, List.flatMap_map, written]

/-- No `?` stands behind the last piece. -/
theorem keepingMarks_of_pieces {word q : Bytes} {qs : List Bytes}
    (hpieces : word.splitOn 63 = qs ++ [q]) :
    keepingMarks glib word = written glib qs ++ convertedPiece glib q := by
  have hjoined := @keepingMarks_concat glib word
  rw [hpieces, written_append, written_singleton, ← List.append_assoc] at hjoined
  exact List.append_cancel_right hjoined

/-- The loop over a word whose segments are all converted writes its tokens. -/
theorem convertLoop_built (hsized : glib.Sized) {size fuel : ℕ} {st : Strtok} {buf : Bytes}
    (hroom : HasRoom size st buf) (hfuel : st.rest.length < fuel)
    (hconverted : ∀ w ∈ Strtok.tokens isQuestion st.rest, convertSegment glib w ≠ none) :
    convertLoop glib size fuel st buf =
      .ok (.built (buf ++ written glib (Strtok.tokens isQuestion st.rest))) := by
  induction fuel generalizing st buf with
  | zero => exact absurd hfuel (Nat.not_lt_zero _)
  | succ fuel ih =>
      cases hnext : st.next isQuestion with
      | none =>
          rw [convertLoop, hnext, Strtok.tokens_of_next_eq_none hnext, written, List.flatMap_nil,
            List.append_nil]
      | some found =>
          rcases found with ⟨w, st'⟩
          rcases Strtok.length_of_next hnext with ⟨hne, hshorter⟩
          have hpos : 0 < w.length := List.length_pos_iff.mpr hne
          rw [Strtok.tokens_of_next hnext] at hconverted ⊢
          rcases List.forall_mem_cons.mp hconverted with ⟨hw, hrest⟩
          cases hans : convertSegment glib w with
          | none => exact absurd hans hw
          | some ans =>
              have hpiece : convertedPiece glib w = ans := by
                rw [convertedPiece, if_neg hne, hans]
                rfl
              rcases convertLoop_step fuel hroom hnext hans (convertSegment_length hsized hans) with
                ⟨hroom', hstep⟩
              rw [hstep, ih hroom' (by omega) hrest, written, written, List.flatMap_cons, hpiece]
              simp only [List.append_assoc]

/-- The loop and the trim after it. What they build is the word with every `?` in
its place if and only if no piece before the last one is empty. -/
theorem convertWord_built (hsized : glib.Sized) {word : Bytes} (hne : word ≠ []) (hzero : 0 ∉ word)
    (hconverted : ∀ w ∈ Strtok.tokens isQuestion word, convertSegment glib w ≠ none) :
    ∃ buf, convertWord glib word (word.getLast? == some 63) = .ok (.built buf) ∧
      (buf = keepingMarks glib word ↔ ∀ p ∈ (word.splitOn 63).dropLast, p ≠ []) := by
  have hstart : (Strtok.start word).rest = word := cstr_eq_self hzero
  have hloop := @convertLoop_built glib hsized _ (word.length + 1) (Strtok.start word) []
    (hasRoom_start word) (by rw [hstart]; exact Nat.lt_succ_self _) (by rwa [hstart])
  rw [hstart, List.nil_append] at hloop
  have htokens : Strtok.tokens isQuestion word = (word.splitOn 63).filter (· ≠ []) := rfl
  rw [convertWord, hloop]
  rcases List.eq_nil_or_concat' word with hnil | ⟨init, b, hword⟩
  · exact absurd hnil hne
  have hlast : word.getLast? = some b := by rw [hword, List.getLast?_concat]
  by_cases hb : b = 63
  · -- The last piece is empty: it is not written, and there is no trim.
    have hpieces : word.splitOn 63 = init.splitOn 63 ++ [[]] := by
      rw [hword, hb]
      exact List.splitOnP_append_cons _ [] (by simp)
    have hkept : keepingMarks glib word = written glib (init.splitOn 63) := by
      rw [keepingMarks_of_pieces hpieces, convertedPiece, if_pos rfl, List.append_nil]
    have hfilter : (init.splitOn 63 ++ [[]]).filter (· ≠ []) =
        (init.splitOn 63).filter (· ≠ []) := by
      rw [List.filter_append]
      exact List.append_nil _
    rw [htokens, hpieces, List.dropLast_concat, hkept, hlast, hb, hfilter]
    exact ⟨_, rfl, flatMap_filter_eq_iff (convertedPiece glib) 63 (init.splitOn 63)⟩
  · rcases splitOn_concat_of_ne hb init with ⟨qs, q, -, hpieces⟩
    rw [← hword] at hpieces
    have hkept := @keepingMarks_of_pieces glib _ _ _ hpieces
    have hfilter : (qs ++ [q ++ [b]]).filter (· ≠ []) = qs.filter (· ≠ []) ++ [q ++ [b]] := by
      have hlong : ∀ w ∈ [q ++ [b]], decide (w ≠ []) = true := by simp
      rw [List.filter_append, List.filter_eq_self.mpr hlong]
    have hmark : (some b == some (63 : UInt8)) = false := by simpa using hb
    have hbuilt : written glib (qs.filter (· ≠ []) ++ [q ++ [b]]) =
        written glib (qs.filter (· ≠ [])) ++ convertedPiece glib (q ++ [b]) ++ [63] := by
      rw [written_append, written_singleton, List.append_assoc]
    rw [htokens, hpieces, List.dropLast_concat, hkept, hlast, hfilter, hmark, hbuilt]
    refine ⟨written glib (qs.filter (· ≠ [])) ++ convertedPiece glib (q ++ [b]), ?_, ?_⟩
    · show Attempt.built <$> trim _ = _
      rw [trim, if_neg (by simp), List.dropLast_concat]
      rfl
    · rw [List.append_cancel_right_eq]
      exact flatMap_filter_eq_iff (convertedPiece glib) 63 qs

/-- Let a word be rejected and its segments converted. Then `try_convert` passes on to
`check` the word with every `?` in its place if and only if the word does not begin
with a `?`, and no two `?` stand side by side in it. -/
theorem tryConvert_keepsMarks_iff (hsized : glib.Sized) {h : Hunhandle} {word : Bytes}
    (hne : word ≠ []) (hzero : 0 ∉ word) (hspell : h.spell word = false)
    (hconverted : ∀ w ∈ Strtok.tokens isQuestion word, convertSegment glib w ≠ none) :
    ∃ buf, convertWord glib word (word.getLast? == some 63) = .ok (.built buf) ∧
      tryConvert glib h word = check h buf ∧
      (buf = keepingMarks glib word ↔ word.head? ≠ some 63 ∧ ¬ [63, 63] <:+: word) := by
  rcases convertWord_built hsized hne hzero hconverted with ⟨buf, hbuf, hkeeps⟩
  refine ⟨buf, hbuf, ?_, ?_⟩
  · have hlast := List.getLast?_eq_some_getLast hne
    rw [hlast] at hbuf
    rw [tryConvert, hlast]
    simp only [hspell, Bool.false_eq_true, if_false]
    show (convertWord glib word (some (word.getLast hne) == some 63) >>= _) = _
    rw [hbuf]
    rfl
  · rw [hkeeps]
    exact (splitOn_dropLast_iff 63 word).1

/-- The word `a?b?`. -/
theorem tryConvert_keepsMarks_sample :
    ∃ buf, convertWord Conv2.glib [97, 63, 98, 63]
        (([97, 63, 98, 63] : Bytes).getLast? == some 63) = .ok (.built buf) ∧
      tryConvert Conv2.glib rejecting [97, 63, 98, 63] = check rejecting buf ∧
      buf = keepingMarks Conv2.glib [97, 63, 98, 63] := by
  rcases @tryConvert_keepsMarks_iff Conv2.glib glib_sized rejecting [97, 63, 98, 63] (by decide)
    (by decide) rfl (by decide +kernel) with ⟨buf, hbuf, hcheck, hkeeps⟩
  exact ⟨buf, hbuf, hcheck, hkeeps.mpr (by decide)⟩

/-- The word `??` loses both of its `?`. -/
theorem tryConvert_loses_mark :
    (∀ w ∈ Strtok.tokens isQuestion [63, 63], convertSegment Conv2.glib w ≠ none) ∧
      tryConvert Conv2.glib rejecting [63, 63] = check rejecting [] ∧
      ¬ ∃ buf, convertWord Conv2.glib [63, 63] true = .ok (.built buf) ∧
        buf = keepingMarks Conv2.glib [63, 63] := by
  have hword : convertWord Conv2.glib [63, 63] true = .ok (.built []) := by decide +kernel
  have hkeeping : keepingMarks Conv2.glib [63, 63] = [63, 63] := by decide +kernel
  refine ⟨by decide +kernel, by decide +kernel, ?_⟩
  rintro ⟨buf, hbuf, hkeeps⟩
  obtain rfl := Attempt.built.inj (Except.ok.inj (hword.symm.trans hbuf))
  rw [hkeeping] at hkeeps
  exact absurd hkeeps (by decide)

end SearchTools.Conv2
