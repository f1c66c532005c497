/-
# Writing a configuration and reading it back

A configuration is written as `[section]` lines, each followed by its
`key=value` lines. `config_load` keeps the line end in every value it splits
off, and its header scanner stops at white space, so it gives back only the
configurations that have neither.
-/

import SearchTools.Common.MyConfig

namespace SearchTools.Common

open SearchTools.Library

/-- Sections with their entries, in the order in which they are written. -/
abbrev Listing := List (Bytes × List (Bytes × Bytes))

/-- The line of a section and the lines of its entries, without line ends. -/
def sectionLines (s : Bytes × List (Bytes × Bytes)) : List Bytes :=
  (91 :: (s.1 ++ [93])) :: s.2.map fun e => e.1 ++ 61 :: e.2

def Listing.lines (l : Listing) : List Bytes := l.flatMap sectionLines

/-- The file: every line ended by a newline. -/
def Listing.render (l : Listing) : Bytes := l.lines.flatMap (· ++ [10])

/-- A key or a value: no space, tab, `=` or newline in it. -/
structure IsPlain (s : Bytes) : Prop where
  ne_nil : s ≠ []
  plain : ∀ b ∈ s, isSep b = false ∧ b ≠ 10

/-- A finite map from section names to finite maps from keys to values, listed
in some order, that can be written line by line. -/
structure Config where
  sections : Listing
  nodup_names : (sections.map Prod.fst).Nodup
  nodup_keys : ∀ s ∈ sections, (s.2.map Prod.fst).Nodup
  name_ok : ∀ s ∈ sections, s.1 ≠ [] ∧ 93 ∉ s.1 ∧ 10 ∉ s.1
  key_plain : ∀ s ∈ sections, ∀ e ∈ s.2, IsPlain e.1
  key_head : ∀ s ∈ sections, ∀ e ∈ s.2, ∀ b ∈ e.1.head?, b ≠ 35 ∧ b ≠ 59 ∧ b ≠ 91
  value_plain : ∀ s ∈ sections, ∀ e ∈ s.2, IsPlain e.2
  fits : ∀ line ∈ sections.lines, line.length < 4095

namespace Config

def toMap (c : Config) : ConfigData :=
  ofEntries (c.sections.map fun s => (s.1, ofEntries s.2))

variable (c : Config)

theorem lookup_toMap {s : Bytes × List (Bytes × Bytes)} (hs : s ∈ c.sections) :
    c.toMap.lookup s.1 = some (ofEntries s.2) := by
  have hnodup : ((c.sections.map fun s => (s.1, ofEntries s.2)).map Prod.fst).Nodup := by
    simpa [List.map_map, Function.comp_def] using c.nodup_names
  exact lookup_ofEntries hnodup (e := (s.1, ofEntries s.2)) (List.mem_map_of_mem hs)

theorem newline_notMem_lines {line : Bytes} (hline : line ∈ c.sections.lines) : 10 ∉ line := by
  obtain ⟨s, hs, hmem⟩ := List.mem_flatMap.mp hline
  rcases List.mem_cons.mp hmem with rfl | hentry
  · have hname := (c.name_ok s hs).2.2
    simp [hname]
  · obtain ⟨e, he, rfl⟩ := List.mem_map.mp hentry
    simp only [List.mem_append, List.mem_cons]
    rintro (hkey | heq | hvalue)
    · exact ((c.key_plain s hs e he).plain 10 hkey).2 rfl
    · exact absurd heq (by decide)
    · exact ((c.value_plain s hs e he).plain 10 hvalue).2 rfl

/-- The buffers `fgets` fills while it reads a written configuration. -/
theorem readLines_render :
    readLines bufSz c.sections.render = c.sections.lines.map (· ++ [10]) := by
  apply readLines_lines
  intro line hline
  exact ⟨c.newline_notMem_lines hline, by have := c.fits line hline; unfold bufSz; omega⟩

end Config

/-! ## Reading one line -/

/-- A NUL in the key ends the string, so that no value follows. -/
theorem strtok_key_zero {k v : Bytes} (hk : IsPlain k) (hzero : 0 ∈ k) :
    (Strtok.start (k ++ 61 :: v ++ [10])).next isSep = none ∨
      ∃ key saved, (Strtok.start (k ++ 61 :: v ++ [10])).next isSep = some (key, saved) ∧
        saved.next isSep = none := by
  have hstart : Strtok.start (k ++ 61 :: v ++ [10]) = ⟨[], [] ++ (cstr k ++ [])⟩ := by
    rw [Strtok.start, List.append_assoc, cstr_append_of_mem hzero]
    simp
  rw [hstart]
  by_cases hempty : cstr k = []
  · left
    rw [hempty, Strtok.next_of_all_sep (by simp)]
  · right
    rw [Strtok.next_token (by simp) (fun x hx => (hk.plain x (mem_of_mem_cstr hx)).1) hempty
      (by simp)]
    exact ⟨_, _, rfl, Strtok.next_of_all_sep (by simp [Strtok.cut])⟩

/-- The key is followed by the value up to its NUL, or up to the newline and with
it. -/
theorem strtok_key {k v : Bytes} (hk : IsPlain k) (hv : IsPlain v) (hzero : 0 ∉ k) :
    ∃ saved, (Strtok.start (k ++ 61 :: v ++ [10])).next isSep = some (k, saved) ∧
      (saved.next isSep = none ∨ ∃ rest, saved.next isSep = some (cstr (v ++ [10]), rest)) := by
  have hstart : Strtok.start (k ++ 61 :: v ++ [10]) =
      ⟨[], [] ++ (k ++ 61 :: cstr (v ++ [10]))⟩ := by
    have heq : k ++ 61 :: v ++ [10] = k ++ ([61] ++ (v ++ [10])) := by simp
    rw [Strtok.start, heq, cstr_append hzero, cstr_append (by decide)]
    simp
  rw [hstart, Strtok.next_token (by simp) (fun x hx => (hk.plain x hx).1) hk.ne_nil
    (by simp [isSep])]
  refine ⟨_, rfl, ?_⟩
  simp only [Strtok.cut]
  by_cases hempty : cstr (v ++ [10]) = []
  · exact Or.inl (Strtok.next_of_all_sep (by simp [hempty]))
  · right
    have hvalue : ∀ x ∈ cstr (v ++ [10]), isSep x = false := by
      intro x hx
      rcases List.mem_append.mp (mem_of_mem_cstr hx) with hx | hx
      · exact (hv.plain x hx).1
      · obtain rfl := List.mem_singleton.mp hx
        rfl
    have hlast := @Strtok.next_token isSep ([] ++ [] ++ k ++ [0]) [] (cstr (v ++ [10])) []
      (by simp) hvalue hempty (by simp)
    rw [List.append_nil (cstr (v ++ [10])), List.nil_append (cstr (v ++ [10]))] at hlast
    exact ⟨_, hlast⟩

/-- An entry line never stores the value it was written from: what follows the
separator is kept up to the newline, and the newline with it. -/
theorem configLine_entry {k v : Bytes} (hk : IsPlain k) (hv : IsPlain v)
    (hhead : ∀ b ∈ k.head?, b ≠ 35 ∧ b ≠ 59 ∧ b ≠ 91) (r : ConfigData) (cur : Bytes) :
    configLine (r, some cur) (k ++ 61 :: v ++ [10]) = (r, some cur) ∨
      ∃ u, u ≠ v ∧
        configLine (r, some cur) (k ++ 61 :: v ++ [10]) = (assign r cur k u, some cur) := by
  have hfirst : ∀ b ∈ (k ++ 61 :: v ++ [10]).head?, b ≠ 35 ∧ b ≠ 59 ∧ b ≠ 91 := by
    obtain ⟨b, k', rfl⟩ := List.exists_cons_of_ne_nil hk.ne_nil
    exact hhead
  have hscan : scanHeader (k ++ 61 :: v ++ [10]) = none :=
    scanHeader_eq_none fun b hb => (hfirst b hb).2.2
  have hcomment : ¬ ((k ++ 61 :: v ++ [10]).head? = some 35 ∨
      (k ++ 61 :: v ++ [10]).head? = some 59) := by
    rintro (hhash | hsemicolon)
    · exact (hfirst 35 hhash).1 rfl
    · exact (hfirst 59 hsemicolon).2.1 rfl
  simp only [configLine, hscan, if_neg hcomment]
  by_cases hzero : 0 ∈ k
  · left
    rcases strtok_key_zero hk hzero with hnone | ⟨key, saved, hkey, hnone⟩
    · rw [hnone]
    · rw [hkey]
      simp only [hnone]
  · obtain ⟨saved, hkey, hnone | ⟨rest, hvalue⟩⟩ := strtok_key hk hv hzero
    · left
      rw [hkey]
      simp only [hnone]
    · right
      rw [hkey]
      simp only [hvalue]
      refine ⟨cstr (v ++ [10]), ?_, rfl⟩
      intro heq
      have hvzero : 0 ∉ v := heq ▸ zero_notMem_cstr (v ++ [10])
      rw [cstr_append hvzero] at heq
      simpa [cstr] using congrArg List.length heq

/-! ## Reading a written configuration -/

/-- Every entry read so far has the section and the key of a written entry, and
another value. -/
def Altered (l : Listing) (r : ConfigData) : Prop :=
  ∀ name entries k u, r.lookup name = some entries → entries.lookup k = some u →
    ∃ s ∈ l, s.1 = name ∧ ∃ e ∈ s.2, e.1 = k ∧ u ≠ e.2

theorem altered_iff {l : Listing} {r : ConfigData} :
    Altered l r ↔ ∀ name k u, entry r name k = some u →
      ∃ s ∈ l, s.1 = name ∧ ∃ e ∈ s.2, e.1 = k ∧ u ≠ e.2 := by
  constructor
  · intro h name k u hu
    cases hlookup : r.lookup name with
    | none =>
        rw [entry, hlookup, Option.getD_none, Finmap.lookup_empty] at hu
        cases hu
    | some entries =>
        rw [entry, hlookup] at hu
        exact h name entries k u hlookup hu
  · intro h name entries k u hlookup hu
    apply h name k u
    rw [entry, hlookup]
    exact hu

theorem Altered.touch {l : Listing} {r : ConfigData} (h : Altered l r) (name : Bytes) :
    Altered l (touch r name) := by
  rw [altered_iff] at h ⊢
  intro other k u hu
  rw [entry_touch] at hu
  exact h other k u hu

theorem Altered.assign {l : Listing} {r : ConfigData} (h : Altered l r)
    {s : Bytes × List (Bytes × Bytes)} (hs : s ∈ l) {e : Bytes × Bytes} (he : e ∈ s.2)
    {u : Bytes} (hu : u ≠ e.2) : Altered l (assign r s.1 e.1 u) := by
  rw [altered_iff] at h ⊢
  intro other k u' hu'
  by_cases hsame : other = s.1 ∧ k = e.1
  · rw [hsame.1, hsame.2, entry_assign] at hu'
    rw [hsame.1, hsame.2, ← Option.some.inj hu']
    exact ⟨s, hs, rfl, e, he, rfl, hu⟩
  · rw [entry_assign_of_ne _ _ hsame] at hu'
    exact h other k u' hu'

namespace Config

variable (c : Config)

/-- The lines of some entries of a section keep everything read altered. -/
theorem altered_entries {s : Bytes × List (Bytes × Bytes)} (hs : s ∈ c.sections)
    {entries : List (Bytes × Bytes)} (hentries : ∀ e ∈ entries, e ∈ s.2) {r : ConfigData}
    (h : Altered c.sections r) :
    ∃ r', (entries.map fun e => e.1 ++ 61 :: e.2 ++ [10]).foldl configLine (r, some s.1) =
      (r', some s.1) ∧ Altered c.sections r' := by
  induction entries generalizing r with
  | nil => exact ⟨r, rfl, h⟩
  | cons e entries ih =>
      have he := hentries e List.mem_cons_self
      have hrest : ∀ e ∈ entries, e ∈ s.2 := fun e he => hentries e (List.mem_cons_of_mem _ he)
      rw [List.map_cons, List.foldl_cons]
      rcases configLine_entry (c.key_plain s hs e he) (c.value_plain s hs e he)
        (c.key_head s hs e he) r s.1 with hline | ⟨u, hu, hline⟩
      · rw [hline]
        exact ih hrest h
      · rw [hline]
        exact ih hrest (h.assign hs he hu)

/-- Reading written sections stores no value that was written. -/
theorem altered_sections (hwords : ∀ s ∈ c.sections, IsWord s.1) {l : Listing}
    (hl : ∀ s ∈ l, s ∈ c.sections) {st : ConfigData × Option Bytes}
    (h : Altered c.sections st.1) :
    Altered c.sections ((l.lines.map (· ++ [10])).foldl configLine st).1 := by
  induction l generalizing st with
  | nil => exact h
  | cons s l ih =>
      have hs := hl s List.mem_cons_self
      have hsplit : (Listing.lines (s :: l)).map (· ++ [10]) =
          (91 :: (s.1 ++ [93]) ++ [10]) :: (s.2.map fun e => e.1 ++ 61 :: e.2 ++ [10]) ++
            (Listing.lines l).map (· ++ [10]) := by
        simp [Listing.lines, sectionLines]
      rw [hsplit, List.foldl_append, List.foldl_cons,
        configLine_header (hwords s hs) isLineEnd_newline]
      obtain ⟨r', hentries, h'⟩ := c.altered_entries hs (fun _ he => he) (h.touch s.1)
      rw [hentries]
      exact ih (fun s hs => hl s (List.mem_cons_of_mem _ hs)) h'

/-- When every name is a word, no entry of the configuration read back has the
value it was written with. -/
theorem altered_configLoad (hwords : ∀ s ∈ c.sections, IsWord s.1) :
    Altered c.sections (configLoad c.sections.render) := by
  unfold configLoad
  rw [c.readLines_render]
  refine c.altered_sections hwords (fun _ hs => hs) fun name entries k u hlookup _ => ?_
  rw [Finmap.lookup_empty] at hlookup
  cases hlookup

/-- Reading sections without entries adds their names. -/
theorem lookup_bare (hbare : ∀ s ∈ c.sections, s.2 = [] ∧ IsWord s.1) {l : Listing}
    (hl : ∀ s ∈ l, s ∈ c.sections) (hnodup : (l.map Prod.fst).Nodup)
    {st : ConfigData × Option Bytes} (hfresh : ∀ s ∈ l, s.1 ∉ st.1) (name : Bytes) :
    ((l.lines.map (· ++ [10])).foldl configLine st).1.lookup name =
      if name ∈ l.map Prod.fst then some ∅ else st.1.lookup name := by
  induction l generalizing st with
  | nil => rfl
  | cons s l ih =>
      rw [List.map_cons, List.nodup_cons] at hnodup
      have hs := hl s List.mem_cons_self
      have hsplit : (Listing.lines (s :: l)).map (· ++ [10]) =
          (91 :: (s.1 ++ [93]) ++ [10]) :: (Listing.lines l).map (· ++ [10]) := by
        simp [Listing.lines, sectionLines, (hbare s hs).1]
      have htouch : Common.touch st.1 s.1 = st.1.insert s.1 ∅ := by
        simp [Common.touch, Finmap.lookup_eq_none.mpr (hfresh s List.mem_cons_self)]
      rw [hsplit, List.foldl_cons, configLine_header (hbare s hs).2 isLineEnd_newline,
        ih (fun s hs => hl s (List.mem_cons_of_mem _ hs)) hnodup.2, htouch]
      · by_cases hname : name = s.1
        · subst hname
          rw [if_neg hnodup.1, if_pos (by simp), Finmap.lookup_insert]
        · rw [Finmap.lookup_insert_of_ne _ hname]
          simp only [List.map_cons, List.mem_cons, hname, false_or]
      · intro s' hs' hmem
        rw [htouch, Finmap.mem_insert] at hmem
        rcases hmem with heq | hold
        · exact hnodup.1 (heq ▸ List.mem_map_of_mem hs')
        · exact hfresh s' (List.mem_cons_of_mem _ hs') hold

/-- Sections without entries, all named by words, are read back as they are. -/
theorem configLoad_bare (hbare : ∀ s ∈ c.sections, s.2 = [] ∧ IsWord s.1) :
    configLoad c.sections.render = c.toMap := by
  apply Finmap.ext_lookup
  intro name
  unfold configLoad
  rw [c.readLines_render, c.lookup_bare hbare (fun _ hs => hs) c.nodup_names
    (fun _ _ => Finmap.notMem_empty)]
  by_cases hname : name ∈ c.sections.map Prod.fst
  · obtain ⟨s, hs, rfl⟩ := List.mem_map.mp hname
    rw [if_pos hname, c.lookup_toMap hs, (hbare s hs).1]
    rfl
  · rw [if_neg hname, toMap, lookup_ofEntries_of_notMem]
    · rfl
    · simpa [List.map_map, Function.comp_def] using hname

end Config

/-- `config_load` gives a written configuration back, and `config_try_set_str`
every value unchanged, exactly when the configuration has no entry and every
section name is free of white space and NUL. -/
theorem configLoad_render_iff (c : Config) :
    (configLoad c.sections.render = c.toMap ∧
      ∀ s ∈ c.sections, ∀ e ∈ s.2, ∀ str,
        (configTrySetStr (configLoad c.sections.render) s.1 e.1 str).2 = e.2) ↔
    ∀ s ∈ c.sections, s.2 = [] ∧ ∀ b ∈ s.1, isspace b = false ∧ b ≠ 0 := by
  constructor
  · rintro ⟨hload, -⟩
    have hwords : ∀ s ∈ c.sections, IsWord s.1 := by
      intro s hs
      apply configLoad_names c.sections.render
      rw [hload]
      exact Finmap.mem_of_lookup_eq_some (c.lookup_toMap hs)
    have haltered := c.altered_configLoad hwords
    rw [hload] at haltered
    intro s hs
    refine ⟨List.eq_nil_iff_forall_not_mem.mpr fun e he => ?_, hwords s hs⟩
    obtain ⟨s', hs', hname, e', he', hkey, hvalue⟩ := haltered s.1 _ e.1 e.2
      (c.lookup_toMap hs) (lookup_ofEntries (c.nodup_keys s hs) he)
    have hsame : s' = s := List.inj_on_of_nodup_map c.nodup_names hs' hs hname
    subst hsame
    have heq : e' = e := List.inj_on_of_nodup_map (c.nodup_keys s' hs) he' he hkey
    exact hvalue (congrArg Prod.snd heq.symm)
  · intro hbare
    refine ⟨c.configLoad_bare hbare, fun s hs e he => ?_⟩
    rw [(hbare s hs).1] at he
    cases he

/-- The port line of `gen.ini` in its section. -/
def portConfig : Config where
  sections := [(bytes "generator", [(bytes "daemon_port", bytes "8083")])]
  nodup_names := by decide
  nodup_keys := by decide
  name_ok := by decide
  key_plain := by
    have hkey : IsPlain (bytes "daemon_port") := ⟨by decide, by decide +kernel⟩
    simpa using hkey
  key_head := by decide +kernel
  value_plain := by
    have hvalue : IsPlain (bytes "8083") := ⟨by decide, by decide +kernel⟩
    simpa using hvalue
  fits := by decide

/-- It is read back with the newline in the value. -/
theorem configLoad_render_port :
    configLoad portConfig.sections.render ≠ portConfig.toMap ∧
      (configTrySetStr (configLoad portConfig.sections.render) (bytes "generator")
        (bytes "daemon_port") []).2 = bytes "8083\n" := by
  have hread : (configTrySetStr (configLoad portConfig.sections.render) (bytes "generator")
      (bytes "daemon_port") []).2 = bytes "8083\n" := by decide
  have hwritten : (configTrySetStr portConfig.toMap (bytes "generator")
      (bytes "daemon_port") []).2 = bytes "8083" := by decide
  refine ⟨fun heq => ?_, hread⟩
  rw [heq, hwritten] at hread
  exact absurd hread (by decide)

end SearchTools.Common
