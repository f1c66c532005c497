/-
# Integer settings

What a configuration file says, apart from how it is read: a header opens a block,
an assignment belongs to the block it stands in, and of several assignments of one
key in blocks of one section the last one counts. `config_try_set_int` gives just
that for files of lines that fit into the buffer, with either kind of line end. A
carriage return, and a newline that no longer fits, change nothing: the first is
part of the value and ends the numeral, the second is read as a line of its own.
-/

import SearchTools.Common.MyConfig
import SearchTools.Library.Numeral

namespace SearchTools.Common

open SearchTools.Library

/-! ## Lines -/

/-- A header `[name]`. -/
structure Header where
  name : Bytes
  name_ok : ∀ b ∈ name, isspace b = false ∧ b ≠ 91 ∧ b ≠ 93

structure Comment where
  text : Bytes
  isComment : IsComment text

structure Blank where
  text : Bytes
  blank : ∀ b ∈ text, isblank b

/-- An assignment of an integer: what stands between the key and the integer is made
of spaces, tabs and `=`. -/
structure Assignment where
  lead : Bytes
  key : Bytes
  gap : Bytes
  numeral : Numeral
  lead_blank : ∀ b ∈ lead, isblank b
  key_ne_nil : key ≠ []
  key_ok : ∀ b ∈ key, isspace b = false ∧ b ≠ 61
  gap_ne_nil : gap ≠ []
  gap_ok : ∀ b ∈ gap, isSep b
  in_range : -2147483648 ≤ numeral.value ∧ numeral.value ≤ 2147483647
  head_ok : ∀ b ∈ (lead ++ key).head?, b ≠ 35 ∧ b ≠ 59 ∧ b ≠ 91

inductive Line
  | header (h : Header)
  | comment (c : Comment)
  | blank (b : Blank)
  | assignment (a : Assignment)

def Header.text (h : Header) : Bytes := 91 :: (h.name ++ [93])

def Assignment.text (a : Assignment) : Bytes := a.lead ++ (a.key ++ (a.gap ++ a.numeral.text))

def Line.text : Line → Bytes
  | header h => h.text
  | comment c => c.text
  | blank b => b.text
  | assignment a => a.text

/-- How a line ends. -/
inductive Newline
  | lf
  | crlf

def Newline.bytes : Newline → Bytes
  | lf => [10]
  | crlf => [13, 10]

/-- A file of lines that fit, the last one possibly ended by the end of the file. -/
structure SettingsFile where
  ended : List (Line × Newline)
  last : Option Line

namespace SettingsFile

def lines (f : SettingsFile) : List Line := f.ended.map Prod.fst ++ f.last.toList

def render (f : SettingsFile) : Bytes :=
  f.ended.flatMap (fun l => l.1.text ++ l.2.bytes) ++ f.last.toList.flatMap Line.text

/-- Its lines are texts of one line, without NULs and shorter than 4095 bytes. -/
def Fits (f : SettingsFile) : Prop :=
  ∀ l ∈ f.lines, 0 ∉ l.text ∧ 10 ∉ l.text ∧ l.text.length < 4095

end SettingsFile

/-! ## What a file says -/

def Line.name? : Line → Option Bytes
  | header h => some h.name
  | _ => none

/-- The section whose block the lines end in. -/
def blockOf (ls : List Line) : Option Bytes := (ls.filterMap Line.name?).getLast?

/-- Line `i` assigns `n` to the key, in a block of the section. -/
def AssignedAt (ls : List Line) (name key : Bytes) (i : ℕ) (n : ℤ) : Prop :=
  ∃ a : Assignment, ls[i]? = some (.assignment a) ∧ a.key = key ∧ a.numeral.value = n ∧
    blockOf (ls.take i) = some name

/-- The last assignment to the key in a block of the section. -/
def LastAssigned (ls : List Line) (name key : Bytes) (n : ℤ) : Prop :=
  ∃ i, AssignedAt ls name key i n ∧ ∀ j m, i < j → ¬ AssignedAt ls name key j m

variable {ls : List Line} {l : Line} {name key : Bytes}

theorem blockOf_concat_header (h : Header) : blockOf (ls ++ [.header h]) = some h.name := by
  simp [blockOf, Line.name?]

theorem blockOf_concat (hl : l.name? = none) : blockOf (ls ++ [l]) = blockOf ls := by
  simp [blockOf, hl]

theorem assignedAt_lt {i : ℕ} {n : ℤ} (h : AssignedAt ls name key i n) : i < ls.length := by
  rcases h with ⟨a, hline, -⟩
  exact (List.getElem?_eq_some_iff.mp hline).1

/-- A further line adds its own assignment, and leaves those before it. -/
theorem assignedAt_concat {i : ℕ} {n : ℤ} :
    AssignedAt (ls ++ [l]) name key i n ↔ AssignedAt ls name key i n ∨
      i = ls.length ∧ blockOf ls = some name ∧
        ∃ a : Assignment, l = .assignment a ∧ a.key = key ∧ a.numeral.value = n := by
  rcases Nat.lt_trichotomy i ls.length with hlt | heq | hgt
  · have hne : i ≠ ls.length := Nat.ne_of_lt hlt
    simp only [AssignedAt, List.getElem?_append_left hlt,
      List.take_append_of_le_length (Nat.le_of_lt hlt), hne, false_and, or_false]
  · have hnot : ¬ AssignedAt ls name key i n := fun h => absurd (assignedAt_lt h) (by omega)
    rw [or_iff_right hnot, and_iff_right heq, heq]
    simp only [AssignedAt, List.getElem?_concat_length, List.take_left, Option.some.injEq]
    constructor
    · rintro ⟨a, hline, hkey, hvalue, hblock⟩
      exact ⟨hblock, a, hline, hkey, hvalue⟩
    · rintro ⟨hblock, a, hline, hkey, hvalue⟩
      exact ⟨a, hline, hkey, hvalue, hblock⟩
  · have hnot : ¬ AssignedAt ls name key i n := fun h => absurd (assignedAt_lt h) (by omega)
    have hnot' : ¬ AssignedAt (ls ++ [l]) name key i n := by
      intro h
      have hlt := assignedAt_lt h
      rw [List.length_append, List.length_singleton] at hlt
      omega
    exact iff_of_false hnot' (not_or.mpr ⟨hnot, fun h => absurd h.1 (by omega)⟩)

theorem LastAssigned.unique {m n : ℤ} (h : LastAssigned ls name key m)
    (h' : LastAssigned ls name key n) : m = n := by
  rcases h with ⟨i, hi, hlast⟩
  rcases h' with ⟨j, hj, hlast'⟩
  have heq : i = j := by
    rcases Nat.lt_trichotomy i j with hlt | heq | hgt
    · exact absurd hj (hlast j _ hlt)
    · exact heq
    · exact absurd hi (hlast' i _ hgt)
  subst heq
  rcases hi with ⟨a, hline, -, hvalue, -⟩
  rcases hj with ⟨a', hline', -, hvalue', -⟩
  rw [hline] at hline'
  rw [← hvalue, Line.assignment.inj (Option.some.inj hline'), hvalue']

/-- What the loop holds after some lines: the block they end in, and for every key
the value of its last assignment. -/
structure Reflects (ls : List Line) (st : ConfigData × Option Bytes) : Prop where
  cur : st.2 = blockOf ls
  stored : ∀ name key v, entry st.1 name key = some v → LastAssigned ls name key (atoi v)
  absent : ∀ name key, entry st.1 name key = none → ∀ i n, ¬ AssignedAt ls name key i n

namespace Reflects

variable {st : ConfigData × Option Bytes}

theorem nil : Reflects [] (∅, none) where
  cur := rfl
  stored := by
    intro name key v h
    rw [entry_empty] at h
    cases h
  absent := fun name key _ i n h => absurd (assignedAt_lt h) (Nat.not_lt_zero i)

/-- A line without an assignment to a key leaves the last one. -/
theorem lastAssigned_concat {n : ℤ} (h : LastAssigned ls name key n)
    (hl : ∀ m, ¬ (blockOf ls = some name ∧
      ∃ a : Assignment, l = .assignment a ∧ a.key = key ∧ a.numeral.value = m)) :
    LastAssigned (ls ++ [l]) name key n := by
  rcases h with ⟨i, hi, hlast⟩
  refine ⟨i, assignedAt_concat.mpr (Or.inl hi), ?_⟩
  intro j m hj hassigned
  rcases assignedAt_concat.mp hassigned with hold | ⟨-, hnew⟩
  · exact hlast j m hj hold
  · exact hl m hnew

/-- A line that assigns nothing leaves what is stored. -/
theorem concat {r : ConfigData} {cur : Option Bytes} (h : Reflects ls st)
    (hcur : cur = blockOf (ls ++ [l])) (hentry : ∀ name key, entry r name key = entry st.1 name key)
    (hl : ∀ name, blockOf ls = some name → ∀ a, l ≠ .assignment a) :
    Reflects (ls ++ [l]) (r, cur) where
  cur := hcur
  stored := by
    intro name key v hv
    apply lastAssigned_concat (h.stored name key v (hentry name key ▸ hv))
    rintro m ⟨hblock, a, ha, -⟩
    exact hl name hblock a ha
  absent := by
    intro name key hnone i n hassigned
    rcases assignedAt_concat.mp hassigned with hold | ⟨-, hblock, a, ha, -⟩
    · exact h.absent name key (hentry name key ▸ hnone) i n hold
    · exact hl name hblock a ha

theorem skip (h : Reflects ls st) (hname : l.name? = none)
    (hl : ∀ name, blockOf ls = some name → ∀ a, l ≠ .assignment a) : Reflects (ls ++ [l]) st :=
  h.concat (h.cur.trans (blockOf_concat hname).symm) (fun _ _ => rfl) hl

/-- An assignment overrides what was stored for its key, and nothing else. -/
theorem assign (h : Reflects ls st) {cur v : Bytes} {a : Assignment} (hcur : st.2 = some cur)
    (hv : atoi v = a.numeral.value) :
    Reflects (ls ++ [.assignment a]) (assign st.1 cur a.key v, some cur) where
  cur := by rw [blockOf_concat rfl, ← h.cur, hcur]
  stored := by
    intro name key u hu
    by_cases hsame : name = cur ∧ key = a.key
    · rcases hsame with ⟨rfl, rfl⟩
      rw [entry_assign] at hu
      refine ⟨ls.length, assignedAt_concat.mpr (Or.inr ⟨rfl, ?_, a, rfl, rfl, ?_⟩), ?_⟩
      · rw [← h.cur, hcur]
      · rw [← hv, Option.some.inj hu]
      · intro j m hj hassigned
        have hlt := assignedAt_lt hassigned
        rw [List.length_append, List.length_singleton] at hlt
        omega
    · rw [entry_assign_of_ne _ _ hsame] at hu
      apply lastAssigned_concat (h.stored name key u hu)
      rintro m ⟨hblock, a', ha, hkey, -⟩
      rw [← h.cur, hcur] at hblock
      exact hsame ⟨(Option.some.inj hblock).symm, by rw [← hkey, Line.assignment.inj ha]⟩
  absent := by
    intro name key hnone i n hassigned
    by_cases hsame : name = cur ∧ key = a.key
    · rcases hsame with ⟨rfl, rfl⟩
      rw [entry_assign] at hnone
      cases hnone
    · rw [entry_assign_of_ne _ _ hsame] at hnone
      rcases assignedAt_concat.mp hassigned with hold | ⟨-, hblock, a', ha, hkey, -⟩
      · exact h.absent name key hnone i n hold
      · rw [← h.cur, hcur] at hblock
        exact hsame ⟨(Option.some.inj hblock).symm, by rw [← hkey, Line.assignment.inj ha]⟩

end Reflects

/-! ## Reading one line -/

section Reading

variable {st : ConfigData × Option Bytes} {text tail : Bytes}

/-- Before the first header a line can only name a section. -/
theorem configLine_none {buf : Bytes} (hscan : scanHeader buf = none) (hst : st.2 = none) :
    configLine st buf = st := by
  simp only [configLine, hscan, hst]
  exact ite_self st

theorem quiet_blank (htext : ∀ b ∈ text, isblank b) (hzero : 0 ∉ text) (htail : IsLineEnd tail) :
    Quiet (text ++ tail) := by
  have hblank : ∀ b : UInt8, isblank b → isSep b ∧ b ≠ 91 := forall_byte (by decide +kernel)
  have htail' : ∀ b ∈ tail, isSep b = false ∧ b ≠ 91 := by
    intro b hb
    rcases htail b hb with rfl | rfl
    · decide
    · decide
  have hclean : 0 ∉ text ++ tail := by simp [hzero, htail.zero_notMem]
  have htokens : Strtok.tokens isSep (text ++ tail) = [tail].filter (· ≠ []) := by
    rw [Strtok.tokens_skipped fun b hb => (hblank b (htext b hb)).1, Strtok.tokens,
      List.splitOnP_eq_singleton fun b hb => (htail' b hb).1]
  refine ⟨scanHeader_eq_none ?_, Or.inr ?_⟩
  · intro b hb
    rcases List.mem_append.mp (List.mem_of_mem_head? hb) with h | h
    · exact (hblank b (htext b h)).2
    · exact (htail' b h).2
  · rw [cstr_eq_self hclean, htokens]
    exact Nat.lt_succ_of_le (List.length_filter_le _ _)

theorem Assignment.head_text (a : Assignment) (tail : Bytes) :
    (a.text ++ tail).head? = (a.lead ++ a.key).head? := by
  have hne : a.lead ++ a.key ≠ [] := List.append_ne_nil_of_right_ne_nil _ a.key_ne_nil
  have htext : a.text ++ tail = (a.lead ++ a.key) ++ (a.gap ++ a.numeral.text ++ tail) := by
    simp [Assignment.text]
  rw [htext, List.head?_append_of_ne_nil _ hne]

theorem Assignment.scanHeader_text (a : Assignment) (tail : Bytes) :
    scanHeader (a.text ++ tail) = none := by
  apply scanHeader_eq_none
  intro b hb
  rw [a.head_text] at hb
  exact (a.head_ok b hb).2.2

/-- The end of the line ends the numeral. -/
theorem Assignment.atoi_text (a : Assignment) (htail : IsLineEnd tail) :
    atoi (a.numeral.text ++ tail) = a.numeral.value := by
  apply a.numeral.atoi_append a.in_range.1 a.in_range.2 htail.zero_notMem
  intro b hb
  rcases htail b (List.mem_of_mem_head? hb) with rfl | rfl
  · rfl
  · rfl

/-- An assignment stores its numeral, with the end of the line behind it. -/
theorem configLine_assignment {a : Assignment} (hzero : 0 ∉ a.text) (htail : IsLineEnd tail)
    {r : ConfigData} {cur : Bytes} :
    configLine (r, some cur) (a.text ++ tail) =
      (assign r cur a.key (a.numeral.text ++ tail), some cur) := by
  have hcomment : ¬ IsComment (a.text ++ tail) := by
    rintro (h | h)
    · exact (a.head_ok 35 (a.head_text tail ▸ h)).1 rfl
    · exact (a.head_ok 59 (a.head_text tail ▸ h)).2.1 rfl
  have hblank : ∀ b : UInt8, isblank b → isSep b := forall_byte (by decide +kernel)
  have hplain : ∀ b : UInt8, isspace b = false ∧ b ≠ 61 → isSep b = false :=
    forall_byte (by decide +kernel)
  have hclean : 0 ∉ a.text ++ tail := by
    intro hmem
    rcases List.mem_append.mp hmem with h | h
    · exact hzero h
    · exact htail.zero_notMem h
  rcases List.exists_cons_of_ne_nil a.gap_ne_nil with ⟨d, gap, hgap⟩
  have hgapOk : ∀ b ∈ d :: gap, isSep b := hgap ▸ a.gap_ok
  have hvalue : ∀ b ∈ a.numeral.text ++ tail, isSep b = false := by
    intro b hb
    rcases List.mem_append.mp hb with h | h
    · have hnumeral := a.numeral.text_plain h
      exact hplain b ⟨hnumeral.1, hnumeral.2.2⟩
    · rcases htail b h with rfl | rfl
      · rfl
      · rfl
  have hstart : Strtok.start (a.text ++ tail) =
      ⟨[], a.lead ++ (a.key ++ d :: (gap ++ (a.numeral.text ++ tail)))⟩ := by
    rw [Strtok.start, cstr_eq_self hclean, Assignment.text, hgap]
    simp
  have hkey := @Strtok.next_token isSep [] a.lead a.key (d :: (gap ++ (a.numeral.text ++ tail)))
    (fun b hb => hblank b (a.lead_blank b hb)) (fun b hb => hplain b (a.key_ok b hb)) a.key_ne_nil
    (fun b hb => Option.some.inj hb ▸ hgapOk d List.mem_cons_self)
  have hnumeral := @Strtok.next_token isSep ([] ++ a.lead ++ a.key ++ [0]) gap
    (a.numeral.text ++ tail) [] (fun b hb => hgapOk b (List.mem_cons_of_mem _ hb)) hvalue
    (List.append_ne_nil_of_left_ne_nil a.numeral.text_ne_nil _) (fun b hb => by cases hb)
  rw [List.append_nil (a.numeral.text ++ tail)] at hnumeral
  rw [IsComment] at hcomment
  simp only [configLine, a.scanHeader_text, if_neg hcomment, hstart, hkey, Strtok.cut, hnumeral]

/-- A line that fits is read with one line end or another behind its text. -/
theorem exists_lineEnd (hnewline : 10 ∉ text) (hlen : text.length < 4095) (newline : Newline) :
    ∃ tail, IsLineEnd tail ∧ ∀ rest st,
      (readLines bufSz (text ++ newline.bytes ++ rest)).foldl configLine st =
        (readLines bufSz rest).foldl configLine (configLine st (text ++ tail)) := by
  cases newline with
  | lf =>
      refine ⟨[10], isLineEnd_newline, ?_⟩
      intro rest st
      have hfile : text ++ Newline.lf.bytes ++ rest = text ++ 10 :: rest := by
        simp [Newline.bytes]
      rw [hfile, readLines_line hnewline (by unfold bufSz; omega), List.foldl_cons]
  | crlf =>
      have hcr : 10 ∉ text ++ [13] := by simp [hnewline]
      have hfile : ∀ rest, text ++ Newline.crlf.bytes ++ rest = text ++ [13] ++ 10 :: rest := by
        simp [Newline.bytes]
      by_cases hfits : text.length = 4094
      · -- The newline does not fit and is read by itself.
        refine ⟨[13], fun b hb => Or.inl (List.mem_singleton.mp hb), ?_⟩
        intro rest st
        have hquiet : Quiet [10] := by decide
        have hpiece : (text ++ [13]).length = bufSz - 1 := by
          rw [List.length_append, hfits]
          rfl
        have hnext : readLines bufSz (10 :: rest) = [10] :: readLines bufSz rest :=
          readLines_line List.not_mem_nil (by decide)
        rw [hfile, readLines_full (by decide) hcr hpiece, hnext, List.foldl_cons, List.foldl_cons,
          configLine_of_quiet hquiet]
      · refine ⟨[13, 10], ?_, ?_⟩
        · intro b hb
          simpa using hb
        · intro rest st
          have hline : (text ++ [13]).length + 1 < bufSz := by
            rw [List.length_append, List.length_singleton]
            unfold bufSz
            omega
          have htail : text ++ [13] ++ [10] = text ++ [13, 10] := by simp
          rw [hfile, readLines_line hcr hline, List.foldl_cons, htail]

/-- A last line may end with the file. -/
theorem foldl_lastLine (hnewline : 10 ∉ text) (hlen : text.length < 4095) :
    (readLines bufSz text).foldl configLine st = configLine st (text ++ []) := by
  rw [List.append_nil]
  by_cases hnil : text = []
  · have hquiet : Quiet [] := by decide
    rw [hnil, configLine_of_quiet hquiet]
    rfl
  · have htake : takeLine (bufSz - 1) text = (text, []) :=
      takeLine_end hnewline (by unfold bufSz; omega)
    rw [readLines_of_takeLine (by decide) hnil htake]
    rfl

end Reading

/-! ## Reading a file -/

/-- One line: it opens a block, or assigns to a key, or changes nothing. -/
theorem Reflects.line {st : ConfigData × Option Bytes} {tail : Bytes} (h : Reflects ls st)
    (hzero : 0 ∉ l.text) (htail : IsLineEnd tail) :
    Reflects (ls ++ [l]) (configLine st (l.text ++ tail)) := by
  cases l with
  | header header =>
      have hword : IsWord header.name := by
        intro b hb
        refine ⟨(header.name_ok b hb).1, ?_⟩
        rintro rfl
        exact hzero (List.mem_cons_of_mem _ (List.mem_append_left _ hb))
      rw [show (Line.header header).text ++ tail = 91 :: (header.name ++ [93]) ++ tail from rfl,
        configLine_header hword htail]
      refine h.concat (blockOf_concat_header header).symm (entry_touch st.1 header.name) ?_
      intro name _ a heq
      cases heq
  | comment comment =>
      rw [show (Line.comment comment).text = comment.text from rfl,
        configLine_comment (comment.isComment.append tail)]
      exact h.skip rfl fun _ _ a heq => by cases heq
  | blank blank =>
      rw [show (Line.blank blank).text = blank.text from rfl,
        configLine_of_quiet (quiet_blank blank.blank hzero htail)]
      exact h.skip rfl fun _ _ a heq => by cases heq
  | assignment a =>
      rw [show (Line.assignment a).text = a.text from rfl]
      cases hcur : st.2 with
      | none =>
          rw [configLine_none (a.scanHeader_text tail) hcur]
          apply h.skip rfl
          intro name hblock
          rw [← h.cur, hcur] at hblock
          cases hblock
      | some cur =>
          have hst : st = (st.1, some cur) := Prod.ext rfl hcur
          rw [hst, configLine_assignment hzero htail]
          exact h.assign hcur (a.atoi_text htail)

/-- A line outside any block changes nothing unless it is a header. -/
theorem configLine_of_name?_eq_none {st : ConfigData × Option Bytes} {tail : Bytes}
    (hname : l.name? = none) (hst : st.2 = none) (hzero : 0 ∉ l.text) (htail : IsLineEnd tail) :
    configLine st (l.text ++ tail) = st := by
  cases l with
  | header header => cases hname
  | comment comment => exact configLine_comment (comment.isComment.append tail) st
  | blank blank => exact configLine_of_quiet (quiet_blank blank.blank hzero htail) st
  | assignment a => exact configLine_none (a.scanHeader_text tail) hst

namespace SettingsFile

/-- Lines with their ends, one after the other. -/
theorem reflects_ended {ended : List (Line × Newline)}
    (hfits : ∀ l ∈ ended, 0 ∉ l.1.text ∧ 10 ∉ l.1.text ∧ l.1.text.length < 4095)
    {st : ConfigData × Option Bytes} (h : Reflects ls st) (rest : Bytes) :
    ∃ st', Reflects (ls ++ ended.map Prod.fst) st' ∧
      (readLines bufSz (ended.flatMap (fun l => l.1.text ++ l.2.bytes) ++ rest)).foldl configLine st =
        (readLines bufSz rest).foldl configLine st' := by
  induction ended generalizing ls st with
  | nil => exact ⟨st, by rwa [List.map_nil, List.append_nil], rfl⟩
  | cons l ended ih =>
      rcases hfits l List.mem_cons_self with ⟨hzero, hnewline, hlen⟩
      rcases exists_lineEnd hnewline hlen l.2 with ⟨tail, htail, hread⟩
      rcases ih (fun l hl => hfits l (List.mem_cons_of_mem _ hl)) (h.line hzero htail) with
        ⟨st', hreflects, hrest⟩
      refine ⟨st', ?_, ?_⟩
      · rwa [List.map_cons, List.append_cons]
      · rw [List.flatMap_cons, List.append_assoc, hread, hrest]

/-- Lines without a header, at the beginning of a file. -/
theorem skip_ended {ended : List (Line × Newline)}
    (hfits : ∀ l ∈ ended, 0 ∉ l.1.text ∧ 10 ∉ l.1.text ∧ l.1.text.length < 4095)
    (hname : ∀ l ∈ ended, l.1.name? = none) {st : ConfigData × Option Bytes} (hst : st.2 = none)
    (rest : Bytes) :
    (readLines bufSz (ended.flatMap (fun l => l.1.text ++ l.2.bytes) ++ rest)).foldl configLine st =
      (readLines bufSz rest).foldl configLine st := by
  induction ended with
  | nil => rfl
  | cons l ended ih =>
      rcases hfits l List.mem_cons_self with ⟨hzero, hnewline, hlen⟩
      rcases exists_lineEnd hnewline hlen l.2 with ⟨tail, htail, hread⟩
      have hrest := ih (fun l hl => hfits l (List.mem_cons_of_mem _ hl))
        (fun l hl => hname l (List.mem_cons_of_mem _ hl))
      rw [List.flatMap_cons, List.append_assoc, hread,
        configLine_of_name?_eq_none (hname l List.mem_cons_self) hst hzero htail, hrest]

variable {f : SettingsFile}

theorem Fits.ended (hf : f.Fits) :
    ∀ l ∈ f.ended, 0 ∉ l.1.text ∧ 10 ∉ l.1.text ∧ l.1.text.length < 4095 := by
  intro l hl
  exact hf l.1 (List.mem_append_left _ (List.mem_map_of_mem hl))

/-- The configuration of a file holds what the file says. -/
theorem reflects_configLoad (hf : f.Fits) : ∃ cur, Reflects f.lines (configLoad f.render, cur) := by
  rcases reflects_ended hf.ended Reflects.nil (f.last.toList.flatMap Line.text) with
    ⟨st, hreflects, hread⟩
  rw [configLoad, render, lines, hread]
  cases hlast : f.last with
  | none =>
      refine ⟨st.2, ?_⟩
      rwa [Option.toList_none, List.append_nil]
  | some l =>
      have hline : l ∈ f.lines := by
        rw [lines, hlast]
        exact List.mem_append_right _ List.mem_cons_self
      rcases hf l hline with ⟨hzero, hnewline, hlen⟩
      rw [Option.toList_some, List.flatMap_singleton, foldl_lastLine hnewline hlen]
      exact ⟨_, hreflects.line hzero (fun b hb => absurd hb List.not_mem_nil)⟩

end SettingsFile

/-- In a file of lines that fit, `config_try_set_int` gives the value of the last
assignment of the key in any block of the section, and the value passed in if there
is none; what stands before the first header has no effect at all. -/
theorem configTrySetInt_configLoad (f : SettingsFile) (hf : f.Fits) (name key : Bytes) (val : ℤ) :
    (∀ n, LastAssigned f.lines name key n →
      (configTrySetInt (configLoad f.render) name key val).2 = n) ∧
    ((∀ i n, ¬ AssignedAt f.lines name key i n) →
      (configTrySetInt (configLoad f.render) name key val).2 = val) ∧
    configLoad (SettingsFile.mk (f.ended.dropWhile (·.1.name?.isNone)) f.last).render =
      configLoad f.render := by
  rcases SettingsFile.reflects_configLoad hf with ⟨cur, h⟩
  rw [configTrySetInt, configTrySet_eq]
  refine ⟨?_, ?_, ?_⟩
  · intro n hlast
    cases hentry : entry (configLoad f.render) name key with
    | none =>
        rcases hlast with ⟨i, hi, -⟩
        exact absurd hi (h.absent name key hentry i n)
    | some v =>
        exact (h.stored name key v hentry).unique hlast
  · intro hnone
    cases hentry : entry (configLoad f.render) name key with
    | none => rfl
    | some v =>
        rcases h.stored name key v hentry with ⟨i, hi, -⟩
        exact absurd hi (hnone i _)
  · have hsplit : f.ended.takeWhile (·.1.name?.isNone) ++ f.ended.dropWhile (·.1.name?.isNone) =
        f.ended := List.takeWhile_append_dropWhile
    have hskip := @SettingsFile.skip_ended (f.ended.takeWhile (·.1.name?.isNone))
      (fun l hl => hf.ended l ((List.takeWhile_prefix _).subset hl))
      (fun l hl => by simpa using List.mem_takeWhile_imp hl) (∅, none) rfl
    have hfile : f.ended.flatMap (fun l => l.1.text ++ l.2.bytes) =
        (f.ended.takeWhile (·.1.name?.isNone)).flatMap (fun l => l.1.text ++ l.2.bytes) ++
          (f.ended.dropWhile (·.1.name?.isNone)).flatMap (fun l => l.1.text ++ l.2.bytes) := by
      rw [← List.flatMap_append, hsplit]
    rw [configLoad, configLoad, SettingsFile.render, SettingsFile.render, hfile, List.append_assoc,
      hskip]

/-- A section named by one letter. -/
def letterHeader (b : UInt8) (hb : isspace b = false ∧ b ≠ 91 ∧ b ≠ 93) : Header where
  name := [b]
  name_ok := List.forall_mem_singleton.mpr hb

/-- A sign and one digit. -/
def digitNumeral (sign : Bytes) (digit : UInt8) (hsign : sign = [] ∨ sign = [43] ∨ sign = [45])
    (hdigit : isdigit digit) : Numeral where
  sign := sign
  digits := [digit]
  sign_ok := hsign
  digits_ne_nil := List.cons_ne_nil _ _
  digits_ok := List.forall_mem_singleton.mpr hdigit

theorem digitNumeral_value {sign : Bytes} {digit : UInt8}
    (hsign : sign = [] ∨ sign = [43] ∨ sign = [45]) (hdigit : isdigit digit) :
    -2147483648 ≤ (digitNumeral sign digit hsign hdigit).value ∧
      (digitNumeral sign digit hsign hdigit).value ≤ 2147483647 := by
  have hsmall : digit.toNat - 48 < 256 := Nat.lt_of_le_of_lt (Nat.sub_le _ _) digit.toNat_lt
  simp only [Numeral.value, Numeral.magnitude, digitNumeral, List.reverse_singleton,
    List.map_singleton, Nat.ofDigits_singleton]
  split
  · omega
  · omega

/-- The letter `k` is assigned a sign and one digit. -/
def digitAssignment (sign : Bytes) (digit : UInt8) (hsign : sign = [] ∨ sign = [43] ∨ sign = [45])
    (hdigit : isdigit digit) : Assignment where
  lead := []
  key := [107]
  gap := [61]
  numeral := digitNumeral sign digit hsign hdigit
  lead_blank := fun _ hb => absurd hb List.not_mem_nil
  key_ne_nil := List.cons_ne_nil _ _
  key_ok := List.forall_mem_singleton.mpr (by decide)
  gap_ne_nil := List.cons_ne_nil _ _
  gap_ok := List.forall_mem_singleton.mpr rfl
  in_range := digitNumeral_value hsign hdigit
  head_ok := fun _ hb => Option.some.inj hb ▸ by decide

/-- The section `a` is opened twice and `k` assigned in it with either line end. -/
def reopenedFile : SettingsFile where
  ended :=
    [(.header (letterHeader 97 (by decide)), .lf),
      (.assignment (digitAssignment [] 51 (Or.inl rfl) rfl), .crlf),
      (.header (letterHeader 98 (by decide)), .lf),
      (.header (letterHeader 97 (by decide)), .crlf)]
  last := some (.assignment (digitAssignment [45] 55 (Or.inr (Or.inr rfl)) rfl))

/-- The later assignment counts. -/
theorem configTrySetInt_reopened :
    (configTrySetInt (configLoad reopenedFile.render) (bytes "a") (bytes "k") 5).2 = -7 := by
  have hfits : reopenedFile.Fits := by
    unfold SettingsFile.Fits
    decide +kernel
  apply (configTrySetInt_configLoad reopenedFile hfits (bytes "a") (bytes "k") 5).1
  refine ⟨4, ⟨_, rfl, rfl, by decide, by decide⟩, ?_⟩
  intro j m hj hassigned
  have hlt : j < 5 := assignedAt_lt hassigned
  omega

end SearchTools.Common
