/-
# Comments

A comment line is to have no effect. `config_load` decides what a buffer is by its
first byte, and a comment that does not fit into the buffer is read in pieces, so
that the later pieces of it pass for lines. A comment is harmless, whatever stands
around it, if and only if none of these pieces is a header or has a key and a value.
-/

import SearchTools.Common.MyConfig
import SearchTools.Library.Stdio

namespace SearchTools.Common

open SearchTools.Library

/-- The file without its comment lines. -/
def removeComments (file : Bytes) : Bytes := filterLines (fun line => !decide (IsComment line)) file

/-- `config_load` over the buffers of one line. -/
def readLine (st : ConfigData × Option Bytes) (line : Bytes) : ConfigData × Option Bytes :=
  (readLines bufSz line).foldl configLine st

/-- What is read after the first 4095 bytes of a line changes nothing. -/
def QuietTail (line : Bytes) : Prop := ∀ piece ∈ (readLines bufSz line).tail, Quiet piece

variable {st : ConfigData × Option Bytes} {line file : Bytes}

theorem configLoad_filterLines (p : Bytes → Bool) (file : Bytes) :
    configLoad (filterLines p file) =
      (((splitLines file).filter p).foldl readLine (∅, none)).1 := by
  rw [configLoad, readLines_filterLines (by decide), List.foldl_flatMap]
  rfl

theorem configLoad_eq_foldl_readLine (file : Bytes) :
    configLoad file = ((splitLines file).foldl readLine (∅, none)).1 := by
  rw [configLoad, readLines_eq_flatMap (by decide), List.foldl_flatMap]
  rfl

/-! ## Harmless comments -/

theorem foldl_configLine_of_quiet {bufs : List Bytes} (hquiet : ∀ buf ∈ bufs, Quiet buf)
    (st : ConfigData × Option Bytes) : bufs.foldl configLine st = st := by
  induction bufs with
  | nil => rfl
  | cons buf bufs ih =>
      rw [List.foldl_cons, configLine_of_quiet (hquiet buf List.mem_cons_self)]
      exact ih fun other hmem => hquiet other (List.mem_cons_of_mem _ hmem)

theorem exists_readLines_comment (hcomment : IsComment line) :
    ∃ buf, readLines bufSz line = buf :: (readLines bufSz line).tail ∧ IsComment buf := by
  cases line with
  | nil =>
      rcases hcomment with h | h
      · cases h
      · cases h
  | cons c line =>
      rcases exists_readLines_cons (show 2 ≤ bufSz by decide) c line with ⟨piece, pieces, hread⟩
      exact ⟨c :: piece, by rw [hread]; rfl, hcomment⟩

theorem readLine_comment (hcomment : IsComment line) (hquiet : QuietTail line)
    (st : ConfigData × Option Bytes) : readLine st line = st := by
  rcases exists_readLines_comment hcomment with ⟨buf, hread, hbuf⟩
  rw [readLine, hread, List.foldl_cons, configLine_comment hbuf]
  exact foldl_configLine_of_quiet hquiet st

/-- Comments with nothing in their later pieces can be removed. -/
theorem configLoad_removeComments
    (hquiet : ∀ line ∈ splitLines file, IsComment line → QuietTail line) :
    configLoad (removeComments file) = configLoad file := by
  rw [removeComments, configLoad_filterLines, configLoad_eq_foldl_readLine, List.foldl_filter]
  congr 1
  apply List.foldl_ext
  intro st line hline
  by_cases hcomment : IsComment line
  · simp only [hcomment, decide_true, Bool.not_true, Bool.false_eq_true, if_false]
    exact (readLine_comment hcomment (hquiet line hline hcomment) st).symm
  · simp only [hcomment, decide_false, Bool.not_false, if_true]

/-! ## Comments that are read as something else -/

theorem configLine_snd {buf : Bytes} (hscan : scanHeader buf = none)
    (st : ConfigData × Option Bytes) : (configLine st buf).2 = st.2 := by
  simp only [configLine, hscan]
  split
  · rfl
  split
  · split
    · next hcur _ _ _ _ _ => exact hcur.symm
    · rfl
  · rfl

/-- A buffer that is neither quiet nor a header assigns to a key. -/
theorem exists_configLine_assign {buf : Bytes} (hscan : scanHeader buf = none)
    (hquiet : ¬ Quiet buf) :
    ∃ k v, ∀ r cur, configLine (r, some cur) buf = (assign r cur k v, some cur) := by
  have hloud : ¬ IsComment buf ∧ ¬ (Strtok.tokens isSep (cstr buf)).length < 2 := by
    rw [← not_or]
    exact fun h => hquiet ⟨hscan, h⟩
  have hrest : (Strtok.start buf).rest = cstr buf := rfl
  cases hk : (Strtok.start buf).next isSep with
  | none =>
      have htokens := Strtok.tokens_of_next_eq_none hk
      rw [← hrest, htokens] at hloud
      exact absurd (by decide) hloud.2
  | some found =>
      rcases found with ⟨k, saved⟩
      have htokens := Strtok.tokens_of_next hk
      cases hv : saved.next isSep with
      | none =>
          rw [Strtok.tokens_of_next_eq_none hv] at htokens
          rw [← hrest, htokens] at hloud
          exact absurd (by simp) hloud.2
      | some found =>
          refine ⟨k, found.1, ?_⟩
          intro r cur
          have hcomment := hloud.1
          rw [IsComment] at hcomment
          simp only [configLine, hscan, if_neg hcomment, hk, hv]

theorem mem_configLine {name : Bytes} (h : name ∈ st.1) (buf : Bytes) :
    name ∈ (configLine st buf).1 := by
  unfold configLine
  split
  · exact mem_touch.mpr (Or.inr h)
  split
  · exact h
  split
  · split
    · exact mem_assign.mpr (Or.inr h)
    · exact h
  · exact h

theorem isSome_entry_assign {r : ConfigData} {name key : Bytes} (h : (entry r name key).isSome)
    (other k v : Bytes) : (entry (assign r other k v) name key).isSome := by
  by_cases hsame : name = other ∧ key = k
  · rw [hsame.1, hsame.2, entry_assign]
    rfl
  · rwa [entry_assign_of_ne _ _ hsame]

theorem isSome_entry_configLine {name key : Bytes} (h : (entry st.1 name key).isSome) (buf : Bytes) :
    (entry (configLine st buf).1 name key).isSome := by
  unfold configLine
  split
  · rwa [entry_touch]
  split
  · exact h
  split
  · split
    · exact isSome_entry_assign h _ _ _
    · exact h
  · exact h

/-- A section, once read, stays. -/
theorem mem_foldl_configLine {name : Bytes} (h : name ∈ st.1) (bufs : List Bytes) :
    name ∈ (bufs.foldl configLine st).1 := by
  induction bufs generalizing st with
  | nil => exact h
  | cons buf bufs ih => exact ih (mem_configLine h buf)

/-- An entry, once read, stays. -/
theorem isSome_entry_foldl_configLine {name key : Bytes} (h : (entry st.1 name key).isSome)
    (bufs : List Bytes) : (entry (bufs.foldl configLine st).1 name key).isSome := by
  induction bufs generalizing st with
  | nil => exact h
  | cons buf bufs ih => exact ih (isSome_entry_configLine h buf)

theorem mem_foldl_of_header {bufs : List Bytes} {buf word : Bytes} (hbuf : buf ∈ bufs)
    (hscan : scanHeader buf = some word) (st : ConfigData × Option Bytes) :
    word.dropLast ∈ (bufs.foldl configLine st).1 := by
  rcases List.append_of_mem hbuf with ⟨before, after, rfl⟩
  rw [List.foldl_append, List.foldl_cons]
  apply mem_foldl_configLine
  simp only [configLine, hscan]
  exact mem_touch.mpr (Or.inl rfl)

/-- A buffer that is not quiet leaves an entry in the open section. -/
theorem isSome_entry_foldl {bufs : List Bytes} (hscan : ∀ buf ∈ bufs, scanHeader buf = none)
    {buf cur : Bytes} (hbuf : buf ∈ bufs) (hquiet : ¬ Quiet buf) (hcur : st.2 = some cur) :
    ∃ key, (entry (bufs.foldl configLine st).1 cur key).isSome := by
  induction bufs generalizing st with
  | nil => cases hbuf
  | cons first bufs ih =>
      have hscanFirst := hscan first List.mem_cons_self
      rcases List.mem_cons.mp hbuf with rfl | hrest
      · rcases exists_configLine_assign hscanFirst hquiet with ⟨k, v, hassign⟩
        have hassigned := hassign st.1 cur
        rw [show (st.1, some cur) = st from Prod.ext rfl hcur.symm] at hassigned
        refine ⟨k, isSome_entry_foldl_configLine ?_ bufs⟩
        rw [hassigned, entry_assign]
        rfl
      · apply ih (fun other hmem => hscan other (List.mem_cons_of_mem _ hmem)) hrest
        rw [configLine_snd hscanFirst, hcur]

/-- A comment with a header in it adds a section to an empty configuration. -/
theorem configLoad_ne_of_header (hline : splitLines line = [line]) (hcomment : IsComment line)
    {buf word : Bytes} (hbuf : buf ∈ readLines bufSz line) (hscan : scanHeader buf = some word) :
    configLoad (removeComments line) ≠ configLoad line := by
  intro heq
  have hmem : word.dropLast ∈ configLoad line := mem_foldl_of_header hbuf hscan (∅, none)
  rw [← heq, removeComments, configLoad_filterLines, hline,
    List.filter_cons_of_neg (by simp [hcomment]), List.filter_nil] at hmem
  exact Finmap.notMem_empty hmem

/-- One with a key and a value adds an entry to a section that is open. -/
theorem configLoad_ne_of_entry (hline : splitLines line = [line]) (hcomment : IsComment line)
    (hnone : ∀ buf ∈ readLines bufSz line, scanHeader buf = none) {buf : Bytes}
    (hbuf : buf ∈ readLines bufSz line) (hquiet : ¬ Quiet buf) :
    splitLines ([91, 93, 10] ++ line) = [[91, 93, 10], line] ∧
      configLoad (removeComments ([91, 93, 10] ++ line)) ≠ configLoad ([91, 93, 10] ++ line) := by
  have hread : readLines bufSz [91, 93, 10] = [[91, 93, 10]] := by decide
  have hheader : readLine (∅, none) [91, 93, 10] = (touch ∅ [], some []) := by
    rw [readLine, hread]
    exact configLine_header (fun b hb => absurd hb List.not_mem_nil) isLineEnd_newline (∅, none)
  have hsplit : splitLines ([91, 93, 10] ++ line) = [[91, 93, 10], line] := by
    have hfirst : (10 : UInt8) ∉ [91, 93] := by decide
    exact (splitLines_line hfirst line).trans (by rw [hline]; rfl)
  refine ⟨hsplit, ?_⟩
  intro heq
  rcases @isSome_entry_foldl (touch ∅ [], some []) _ hnone _ [] hbuf hquiet rfl with ⟨key, hkey⟩
  rw [removeComments, configLoad_filterLines, configLoad_eq_foldl_readLine, hsplit,
    List.filter_cons_of_pos (by decide), List.filter_cons_of_neg (by simp [hcomment]),
    List.filter_nil, List.foldl_cons, List.foldl_nil, List.foldl_cons, List.foldl_cons,
    List.foldl_nil, hheader] at heq
  rw [← readLine, ← heq, entry_touch, entry_empty] at hkey
  cases hkey

/-- A comment that is not harmless changes the configuration of some file. -/
theorem exists_file_of_not_quietTail (hzero : 0 ∉ line) (hline : splitLines line = [line])
    (hcomment : IsComment line) (hquiet : ¬ QuietTail line) :
    ∃ file, 0 ∉ file ∧ (∀ other ∈ splitLines file, IsComment other → other = line) ∧
      configLoad (removeComments file) ≠ configLoad file := by
  by_cases hscan : ∃ buf ∈ readLines bufSz line, ∃ word, scanHeader buf = some word
  · rcases hscan with ⟨buf, hbuf, word, hword⟩
    exact ⟨line, hzero, fun other hmem _ => List.mem_singleton.mp (hline ▸ hmem),
      configLoad_ne_of_header hline hcomment hbuf hword⟩
  · have hnone : ∀ buf ∈ readLines bufSz line, scanHeader buf = none := by
      intro buf hbuf
      cases hbufScan : scanHeader buf with
      | none => rfl
      | some word => exact absurd ⟨buf, hbuf, word, hbufScan⟩ hscan
    rw [QuietTail, not_forall] at hquiet
    rcases hquiet with ⟨piece, hpiece⟩
    rw [Classical.not_imp] at hpiece
    rcases configLoad_ne_of_entry hline hcomment hnone (List.mem_of_mem_tail hpiece.1) hpiece.2 with
      ⟨hsplit, hne⟩
    refine ⟨[91, 93, 10] ++ line, by simp [hzero], ?_, hne⟩
    intro other hmem hother
    rw [hsplit, List.mem_pair] at hmem
    rcases hmem with rfl | rfl
    · exact absurd hother (by decide)
    · rfl

/-- Removing the comments of any file whose comments are of some kind changes nothing
if and only if no comment of that kind has, after its first 4095 bytes, a piece that
is read as a header or as a key and a value. -/
theorem configLoad_removeComments_iff (C : Set Bytes) :
    (∀ file, 0 ∉ file → (∀ line ∈ splitLines file, IsComment line → line ∈ C) →
      configLoad (removeComments file) = configLoad file) ↔
    ∀ line ∈ C, 0 ∉ line → splitLines line = [line] → IsComment line → QuietTail line := by
  constructor
  · intro hremoved line hC hzero hline hcomment
    by_contra hquiet
    rcases exists_file_of_not_quietTail hzero hline hcomment hquiet with
      ⟨file, hfile, hlines, hne⟩
    apply hne
    apply hremoved file hfile
    intro other hmem hother
    rw [hlines other hmem hother]
    exact hC
  · intro hquiet file hfile hlines
    apply configLoad_removeComments
    intro line hmem hcomment
    have hzero : 0 ∉ line := by
      intro hnul
      apply hfile
      rw [← flatten_splitLines file]
      exact List.mem_flatten_of_mem hmem hnul
    exact hquiet line (hlines line hmem hcomment) hzero (splitLines_of_mem hmem) hcomment

/-- Behind a piece of a comment that fills the buffer, the text `k v` is read as an
entry of the section. -/
theorem configLoad_ne_of_full_piece {piece : Bytes} (hnewline : 10 ∉ piece)
    (hlength : piece.length = bufSz - 1) (hcomment : IsComment piece) :
    configLoad (removeComments ([91, 115, 93, 10] ++ (piece ++ [107, 32, 118, 10]))) ≠
      configLoad ([91, 115, 93, 10] ++ (piece ++ [107, 32, 118, 10])) := by
  have hsplit : splitLines ([91, 115, 93, 10] ++ (piece ++ [107, 32, 118, 10])) =
      [[91, 115, 93, 10], piece ++ [107, 32, 118, 10]] := by
    have hfirst : (10 : UInt8) ∉ [91, 115, 93] := by decide
    have hsecond : 10 ∉ piece ++ [107, 32, 118] := by simp [hnewline]
    have hline := splitLines_line hsecond []
    rw [List.append_assoc] at hline
    exact (splitLines_line hfirst _).trans (congrArg _ hline)
  have hread : readLines bufSz (piece ++ [107, 32, 118, 10]) = [piece, [107, 32, 118, 10]] := by
    rw [readLines_full (by decide) hnewline hlength]
    rfl
  have hline : ∀ st, readLine st (piece ++ [107, 32, 118, 10]) = configLine st [107, 32, 118, 10] := by
    intro st
    rw [readLine, hread, List.foldl_cons, configLine_comment hcomment]
    rfl
  have hdropped := hcomment.append [107, 32, 118, 10]
  intro heq
  rw [removeComments, configLoad_filterLines, configLoad_eq_foldl_readLine, hsplit,
    List.filter_cons_of_pos (by decide), List.filter_cons_of_neg (by simp [hdropped]),
    List.filter_nil, List.foldl_cons, List.foldl_nil, List.foldl_cons, List.foldl_cons,
    List.foldl_nil, hline] at heq
  have hentry := congrArg (fun r => entry r [115] [107]) heq
  revert hentry
  decide

/-- A section with a comment that has the text `k v` behind its first 4095 bytes. -/
def longComment : Bytes :=
  [91, 115, 93, 10] ++ (35 :: List.replicate 4094 45 ++ [107, 32, 118, 10])

theorem configLoad_longComment :
    0 ∉ longComment ∧ configLoad (removeComments longComment) ≠ configLoad longComment := by
  have hmem : ∀ b ∈ 35 :: List.replicate 4094 (45 : UInt8), b = 35 ∨ b = 45 := by
    intro b hb
    rcases List.mem_cons.mp hb with h | h
    · exact Or.inl h
    · exact Or.inr (List.eq_of_mem_replicate h)
  have hlength : (35 :: List.replicate 4094 (45 : UInt8)).length = bufSz - 1 := by
    rw [List.length_cons, List.length_replicate]
    rfl
  have hnewline : 10 ∉ 35 :: List.replicate 4094 (45 : UInt8) :=
    fun h => absurd (hmem 10 h) (by decide)
  have hcomment : IsComment (35 :: List.replicate 4094 45) := Or.inl rfl
  rw [longComment]
  constructor
  · intro h
    rcases List.mem_append.mp h with h | h
    · exact absurd h (by decide)
    rcases List.mem_append.mp h with h | h
    · exact absurd (hmem 0 h) (by decide)
    · exact absurd h (by decide)
  · exact configLoad_ne_of_full_piece hnewline hlength hcomment

end SearchTools.Common
