/-
# Reading a configuration

`config_load` and `config_try_set_str` of `my_config.cpp`. A `std::map` is a
finite map; the pointer `cur` into the outer map is the name of the section it
points at.
-/

import SearchTools.Library.CString
import SearchTools.Library.Stdio
import SearchTools.Library.Tables

namespace SearchTools.Common

open SearchTools.Library

/-- `config_section_t`. -/
abbrev ConfigSection := Finmap fun _ : Bytes => Bytes

/-- `config_data_t`. -/
abbrev ConfigData := Finmap fun _ : Bytes => ConfigSection

/-- `BUF_SZ`. -/
def bufSz : ℕ := 4096

/-- `sep`: space, `=` and tab. -/
def isSep (b : UInt8) : Bool := b == 32 || b == 61 || b == 9

/-- `r[name]` of a `std::map`: the section is created empty when it is missing. -/
def touch (r : ConfigData) (name : Bytes) : ConfigData :=
  match r.lookup name with
  | some _ => r
  | none => r.insert name ∅

/-- `(*cur)[k] = v`. -/
def assign (r : ConfigData) (name k v : Bytes) : ConfigData :=
  r.insert name (((r.lookup name).getD ∅).insert k v)

/-- `sscanf(buf, "[%s]", section)`: the word after the bracket when one item is
read. The closing bracket of the format comes too late to undo that. -/
def scanHeader (buf : Bytes) : Option Bytes :=
  match cstr buf with
  | 91 :: tail =>
      let word := (tail.dropWhile isspace).takeWhile (!isspace ·)
      if word = [] then none else some word
  | _ => none

/-- The body of the loop of `config_load`, on the map and `cur`. -/
def configLine (st : ConfigData × Option Bytes) (buf : Bytes) : ConfigData × Option Bytes :=
  match scanHeader buf with
  | some word => (touch st.1 word.dropLast, some word.dropLast) -- `section` less its last byte
  | none =>
      if buf.head? = some 35 ∨ buf.head? = some 59 then st
      else
        match st.2, (Strtok.start buf).next isSep with
        | some cur, some (k, saved) =>
            match saved.next isSep with
            | some (v, _) => (assign st.1 cur k v, some cur)
            | none => st
        | _, _ => st

/-- `config_load` on the contents of the file. -/
def configLoad (file : Bytes) : ConfigData :=
  ((readLines bufSz file).foldl configLine (∅, none)).1

/-- `config_try_set_str`: the map after `r[section]`, and the string. -/
def configTrySetStr (r : ConfigData) (name key str : Bytes) : ConfigData × Bytes :=
  let r := touch r name
  match ((r.lookup name).getD ∅).lookup key with
  | some v => (r, v)
  | none => (r, str)

/-- The functions `config_try_set_*`: the map after `r[section]`, and the value of
the key as `read` gives it. -/
def configTrySet {α : Type} (read : Bytes → α) (r : ConfigData) (name key : Bytes) (val : α) :
    ConfigData × α :=
  let r := touch r name
  match ((r.lookup name).getD ∅).lookup key with
  | some v => (r, read v)
  | none => (r, val)

/-- `config_try_set_int`. -/
def configTrySetInt : ConfigData → Bytes → Bytes → ℤ → ConfigData × ℤ := configTrySet atoi

/-- `config_try_set_double`, for a given `atof`. -/
def configTrySetDouble {α : Type} (atof : Bytes → α) :
    ConfigData → Bytes → Bytes → α → ConfigData × α := configTrySet atof

theorem configTrySetStr_eq : configTrySetStr = configTrySet id := rfl

/-! ## Entries -/

/-- The value stored for a key of a section. -/
def entry (r : ConfigData) (name key : Bytes) : Option Bytes :=
  ((r.lookup name).getD ∅).lookup key

theorem entry_empty (name key : Bytes) : entry ∅ name key = none := by
  rw [entry, Finmap.lookup_empty]
  exact Finmap.lookup_empty key

theorem entry_touch (r : ConfigData) (name other key : Bytes) :
    entry (touch r name) other key = entry r other key := by
  unfold touch
  cases hlookup : r.lookup name with
  | some _ => rfl
  | none =>
      by_cases hother : other = name
      · subst hother
        simp [entry, hlookup]
      · simp [entry, Finmap.lookup_insert_of_ne _ hother]

theorem entry_assign (r : ConfigData) (name k v : Bytes) : entry (assign r name k v) name k = some v := by
  simp [entry, assign]

theorem entry_assign_of_ne (r : ConfigData) {name k other key : Bytes} (v : Bytes)
    (h : ¬ (other = name ∧ key = k)) : entry (assign r name k v) other key = entry r other key := by
  by_cases hother : other = name
  · have hkey : key ≠ k := fun hkey => h ⟨hother, hkey⟩
    subst hother
    simp only [entry, assign, Finmap.lookup_insert, Option.getD_some]
    exact Finmap.lookup_insert_of_ne _ hkey
  · simp [entry, assign, Finmap.lookup_insert_of_ne _ hother]

/-- A value is overridden by the entry, if there is one. -/
theorem configTrySet_eq {α : Type} (read : Bytes → α) (r : ConfigData) (name key : Bytes) (val : α) :
    configTrySet read r name key val = (touch r name, ((entry r name key).map read).getD val) := by
  have hentry : entry (touch r name) name key = entry r name key := entry_touch r name name key
  rw [← hentry, configTrySet]
  cases hlookup : entry (touch r name) name key with
  | none =>
      rw [entry] at hlookup
      rw [hlookup]
      rfl
  | some v =>
      rw [entry] at hlookup
      rw [hlookup]
      rfl

/-! ## Names of sections -/

/-- A name the header scanner reads whole. -/
def IsWord (name : Bytes) : Prop := ∀ b ∈ name, isspace b = false ∧ b ≠ 0

theorem scanHeader_isWord {buf word : Bytes} (h : scanHeader buf = some word) :
    IsWord word := by
  unfold scanHeader at h
  split at h
  · next tail htail =>
      dsimp only at h
      split at h
      · cases h
      · obtain rfl := Option.some.inj h
        intro b hb
        refine ⟨by simpa using List.mem_takeWhile_imp hb, ?_⟩
        rintro rfl
        have hmem : 0 ∈ cstr buf := by
          rw [htail]
          refine List.mem_cons_of_mem _ ?_
          exact (List.dropWhile_suffix _).subset ((List.takeWhile_prefix _).subset hb)
        exact zero_notMem_cstr buf hmem
  · cases h

/-- A line that does not start with a bracket is no header. -/
theorem scanHeader_eq_none {buf : Bytes} (h : ∀ b ∈ buf.head?, b ≠ 91) :
    scanHeader buf = none := by
  cases buf with
  | nil => rfl
  | cons b buf =>
      unfold scanHeader
      split
      · next tail htail =>
          by_cases hb : b = 0
          · simp [cstr, hb] at htail
          · have : b = 91 := by simpa [cstr, hb] using congrArg List.head? htail
            exact absurd this (h b rfl)
      · rfl

/-- What ends the text of a line: line feeds and carriage returns. -/
def IsLineEnd (tail : Bytes) : Prop := ∀ b ∈ tail, b = 13 ∨ b = 10

theorem isLineEnd_newline : IsLineEnd [10] := by
  intro b hb
  exact Or.inr (List.mem_singleton.mp hb)

theorem IsLineEnd.zero_notMem {tail : Bytes} (htail : IsLineEnd tail) : 0 ∉ tail := by
  intro hmem
  rcases htail 0 hmem with h | h
  · exact absurd h (by decide)
  · exact absurd h (by decide)

/-- A header line of a word is read as that word. -/
theorem scanHeader_header {name tail : Bytes} (hword : IsWord name) (htail : IsLineEnd tail) :
    scanHeader (91 :: (name ++ [93]) ++ tail) = some (name ++ [93]) := by
  have hzero : 0 ∉ 91 :: (name ++ [93]) ++ tail := by
    have hname : 0 ∉ name := fun h => (hword 0 h).2 rfl
    simp [hname, htail.zero_notMem]
  have hall : ∀ b ∈ name ++ [93], (!isspace b) = true := by
    intro b hb
    rcases List.mem_append.mp hb with hb | hb
    · simp [(hword b hb).1]
    · obtain rfl := List.mem_singleton.mp hb
      rfl
  have hstart : (name ++ [93] ++ tail).dropWhile isspace = name ++ [93] ++ tail := by
    cases name with
    | nil => rfl
    | cons b name => simp [(hword b List.mem_cons_self).1]
  have hend : tail.takeWhile (!isspace ·) = [] := by
    cases tail with
    | nil => rfl
    | cons b tail =>
        rcases htail b List.mem_cons_self with rfl | rfl
        · rfl
        · rfl
  have htake : (name ++ [93] ++ tail).takeWhile (!isspace ·) = name ++ [93] := by
    rw [List.takeWhile_append_of_pos hall, hend, List.append_nil]
  have hword' : name ++ [93] ≠ [] := by simp
  unfold scanHeader
  rw [cstr_eq_self hzero]
  simp only [List.cons_append, hstart, htake, hword', if_false]

theorem mem_touch {r : ConfigData} {name other : Bytes} :
    other ∈ touch r name ↔ other = name ∨ other ∈ r := by
  unfold touch
  cases hlookup : r.lookup name with
  | none => exact Finmap.mem_insert
  | some entries =>
      have hmem : name ∈ r := Finmap.mem_of_lookup_eq_some hlookup
      refine ⟨Or.inr, ?_⟩
      rintro (rfl | h)
      · exact hmem
      · exact h

theorem mem_assign {r : ConfigData} {name k v other : Bytes} :
    other ∈ assign r name k v ↔ other = name ∨ other ∈ r := Finmap.mem_insert

/-- Sections come from the header scanner, whatever the file: their names are
words. -/
theorem configLine_names {st : ConfigData × Option Bytes} (buf : Bytes)
    (hnames : ∀ name ∈ st.1, IsWord name) (hcur : ∀ cur, st.2 = some cur → IsWord cur) :
    (∀ name ∈ (configLine st buf).1, IsWord name) ∧
      ∀ cur, (configLine st buf).2 = some cur → IsWord cur := by
  unfold configLine
  split
  · next word hword =>
      have hname : IsWord word.dropLast := fun b hb =>
        scanHeader_isWord hword b (List.mem_of_mem_dropLast hb)
      refine ⟨fun name hmem => ?_, fun cur h => Option.some.inj h ▸ hname⟩
      rcases mem_touch.mp hmem with rfl | hold
      · exact hname
      · exact hnames name hold
  · split
    · exact ⟨hnames, hcur⟩
    · split
      · next cur k saved hst hk =>
          split
          · refine ⟨fun name hmem => ?_, fun cur' h => hcur cur' (hst.trans h)⟩
            rcases mem_assign.mp hmem with rfl | hold
            · exact hcur _ hst
            · exact hnames name hold
          · exact ⟨hnames, hcur⟩
      · exact ⟨hnames, hcur⟩

theorem configLoad_names (file : Bytes) : ∀ name ∈ configLoad file, IsWord name := by
  have hrun : ∀ (bufs : List Bytes) (st : ConfigData × Option Bytes),
      (∀ name ∈ st.1, IsWord name) → (∀ cur, st.2 = some cur → IsWord cur) →
      ∀ name ∈ (bufs.foldl configLine st).1, IsWord name := by
    intro bufs
    induction bufs with
    | nil => exact fun st hnames _ => hnames
    | cons buf bufs ih =>
        intro st hnames hcur
        obtain ⟨hnames', hcur'⟩ := configLine_names buf hnames hcur
        exact ih _ hnames' hcur'
  exact hrun _ _ (fun name h => absurd h Finmap.notMem_empty) (by simp)

/-! ## Lines that change nothing -/

/-- A line starts a comment. -/
def IsComment (line : Bytes) : Prop := line.head? = some 35 ∨ line.head? = some 59

instance decidableIsComment (line : Bytes) : Decidable (IsComment line) :=
  inferInstanceAs (Decidable (_ ∨ _))

theorem IsComment.append {s : Bytes} (h : IsComment s) (t : Bytes) : IsComment (s ++ t) := by
  rcases h with h | h
  · exact Or.inl (by rw [List.head?_append, h]; rfl)
  · exact Or.inr (by rw [List.head?_append, h]; rfl)

/-- What is read neither names a section nor assigns a value to a key. -/
def Quiet (buf : Bytes) : Prop :=
  scanHeader buf = none ∧ (IsComment buf ∨ (Strtok.tokens isSep (cstr buf)).length < 2)

instance decidableQuiet (buf : Bytes) : Decidable (Quiet buf) :=
  inferInstanceAs (Decidable (_ ∧ _))

theorem configLine_of_quiet {buf : Bytes} (h : Quiet buf) (st : ConfigData × Option Bytes) :
    configLine st buf = st := by
  rcases h with ⟨hscan, hquiet⟩
  simp only [configLine, hscan]
  rcases hquiet with hcomment | hfew
  · exact if_pos hcomment
  split
  · rfl
  split
  · next cur k saved _ hk =>
      cases hv : saved.next isSep with
      | none => rfl
      | some found =>
          have htokens := Strtok.tokens_of_next hk
          rw [Strtok.tokens_of_next hv] at htokens
          rw [show cstr buf = (Strtok.start buf).rest from rfl, htokens] at hfew
          simp only [List.length_cons] at hfew
          omega
  · rfl

theorem configLine_comment {buf : Bytes} (h : IsComment buf) (st : ConfigData × Option Bytes) :
    configLine st buf = st := by
  apply configLine_of_quiet
  refine ⟨scanHeader_eq_none ?_, Or.inl h⟩
  intro b hb
  rcases h with h | h
  · rw [Option.mem_def.mp hb] at h
    rw [Option.some.inj h]
    decide
  · rw [Option.mem_def.mp hb] at h
    rw [Option.some.inj h]
    decide

/-- A header line of a word selects that section. -/
theorem configLine_header {name tail : Bytes} (hword : IsWord name) (htail : IsLineEnd tail)
    (st : ConfigData × Option Bytes) :
    configLine st (91 :: (name ++ [93]) ++ tail) = (touch st.1 name, some name) := by
  have hscan := scanHeader_header hword htail
  simp only [configLine, hscan, List.dropLast_concat]

end SearchTools.Common
