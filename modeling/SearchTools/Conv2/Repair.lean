/-
# Undoing the damage

The damage that `conv2` is written for: a text was encoded in UTF-8, shown as
cp1251 and saved in UTF-8 again, with some bytes lost to `?` on the way. A word of
two-byte characters is repaired up to its lost characters.
-/

import Mathlib.Data.Finset.Insert
import SearchTools.Conv2.TryConvert

namespace SearchTools.Conv2

open SearchTools.Library

/-! ## The damage -/

/-- The two bytes of a character, each read as a character of cp1251. The second
byte of a lost character becomes a `?`. -/
def damageChar (c : Char) (lost : Bool) : Option Bytes :=
  match String.utf8EncodeChar c with
  | [b₁, b₂] => do
      let first ← cp1251Char b₁
      if lost then return String.utf8EncodeChar first ++ [63]
      else
        let second ← cp1251Char b₂
        return String.utf8EncodeChar first ++ String.utf8EncodeChar second
  | _ => none

/-- A damaged word, when every byte that is kept has a character. -/
def damage : List (Char × Bool) → Option Bytes
  | [] => some []
  | (c, lost) :: U => do
      let w ← damageChar c lost
      let m ← damage U
      return w ++ m

/-- The characters at the positions of `D` are lost. -/
def mark (D : Finset ℕ) (U : List Char) : List (Char × Bool) :=
  U.zipIdx.map fun (c, i) => (c, decide (i ∈ D))

/-- The word with a `?` for every lost character. -/
def restored (U : List (Char × Bool)) : Bytes :=
  U.flatMap fun (c, lost) => if lost then [63] else String.utf8EncodeChar c

theorem damageChar_eq_some {c : Char} {lost : Bool} {w : Bytes} (h : damageChar c lost = some w) :
    ∃ b₁ b₂ first, String.utf8EncodeChar c = [b₁, b₂] ∧ cp1251Char b₁ = some first ∧
      if lost then w = String.utf8EncodeChar first ++ [63]
      else ∃ second, cp1251Char b₂ = some second ∧
        w = String.utf8EncodeChar first ++ String.utf8EncodeChar second := by
  unfold damageChar at h
  split at h
  · next b₁ b₂ hbytes =>
      obtain ⟨first, hfirst, h⟩ := Option.bind_eq_some_iff.mp h
      refine ⟨b₁, b₂, first, hbytes, hfirst, ?_⟩
      cases lost with
      | true => exact (Option.some.inj h).symm
      | false =>
          obtain ⟨second, hsecond, h⟩ := Option.bind_eq_some_iff.mp h
          exact ⟨second, hsecond, (Option.some.inj h).symm⟩
  · cases h

/-! ## One segment -/

/-- The characters kept since the last `?`, and the text that their bytes became. -/
structure Kept (pre text : List Char) : Prop where
  two : ∀ c ∈ pre, c.utf8Size = 2
  representable : ∃ s, IsCp1251 s pre
  read : IsCp1251 (utf8 pre) text

theorem kept_nil : Kept [] [] := ⟨nofun, ⟨[], .nil⟩, .nil⟩

theorem Kept.concat {pre text : List Char} (h : Kept pre text) {c first second : Char}
    {b b₁ b₂ : UInt8} (hbytes : String.utf8EncodeChar c = [b₁, b₂]) (hb : cp1251Char b = some c)
    (hfirst : cp1251Char b₁ = some first) (hsecond : cp1251Char b₂ = some second) :
    Kept (pre ++ [c]) (text ++ [first, second]) := by
  have htwo : c.utf8Size = 2 := by rw [← String.length_utf8EncodeChar, hbytes]; rfl
  obtain ⟨s, hs⟩ := h.representable
  refine ⟨?_, ⟨s ++ [b], ?_⟩, ?_⟩
  · intro c' hc'
    rcases List.mem_append.mp hc' with hmem | hmem
    · exact h.two c' hmem
    · exact List.mem_singleton.mp hmem ▸ htwo
  · exact List.rel_append hs (.cons hb .nil)
  · have hutf8 : utf8 (pre ++ [c]) = utf8 pre ++ [b₁, b₂] := by
      rw [utf8_append, utf8_cons, hbytes]
      rfl
    rw [hutf8]
    exact List.rel_append h.read (.cons hfirst (.cons hsecond .nil))

/-- Bytes outside ASCII become a text of bytes outside ASCII. -/
theorem le_of_mem_utf8 {s : Bytes} {text : List Char} (hs : ∀ b ∈ s, 0x80 ≤ b)
    (h : IsCp1251 s text) : ∀ b ∈ utf8 text, 0x80 ≤ b := by
  induction h with
  | nil => exact nofun
  | cons hb _ ih =>
      obtain ⟨hlow, hrest⟩ := List.forall_mem_cons.mp hs
      intro b' hb'
      rcases List.mem_append.mp hb' with hmem | hmem
      · have hsize := (utf8Size_of_cp1251Char hb).1.resolve_left (UInt8.not_lt.mpr hlow)
        exact le_of_mem_utf8EncodeChar hsize hmem
      · exact ih hrest b' hmem

theorem zero_notMem_of_le {s : Bytes} (hs : ∀ b ∈ s, 0x80 ≤ b) : 0 ∉ s :=
  fun hmem => absurd (hs 0 hmem) (by decide)

/-- A character of two bytes is not the NUL. -/
theorem zero_notMem_of_isCp1251 {s : Bytes} {pre : List Char} (htwo : ∀ c ∈ pre, c.utf8Size = 2)
    (h : IsCp1251 s pre) : 0 ∉ s := by
  induction h with
  | nil => exact List.not_mem_nil
  | @cons b c s pre hb _ ih =>
      obtain ⟨hc, hrest⟩ := List.forall_mem_cons.mp htwo
      rintro (_ | ⟨_, hmem⟩)
      · obtain rfl : c = Char.ofNat 0 := (Option.some.inj hb).symm
        exact absurd hc (by decide)
      · exact ih hrest hmem

theorem Kept.le_of_mem {pre text : List Char} (h : Kept pre text) :
    ∀ b ∈ utf8 pre, 0x80 ≤ b := by
  intro b hb
  obtain ⟨c, hc, hmem⟩ := List.mem_flatMap.mp hb
  exact le_of_mem_utf8EncodeChar (Nat.le_of_eq (h.two c hc).symm) hmem

/-- The three conversions take the text of the kept bytes back to the kept
characters, and drop the first byte of a lost one at the end. -/
theorem Kept.convertSegment {glib : Glib} (hglib : glib.Inverts) {pre text more : List Char}
    (h : Kept pre text) {tail : Bytes} (htail : IsIncomplete tail) (hhigh : ∀ b ∈ tail, 0x80 ≤ b)
    (hmore : IsCp1251 tail more) :
    convertSegment glib (utf8 (text ++ more)) = some (utf8 pre) := by
  obtain ⟨s, hs⟩ := h.representable
  have hnil : IsIncomplete [] := isIncomplete_iff.mp rfl
  have hzero : 0 ∉ s := zero_notMem_of_isCp1251 h.two hs
  have hclean : 0 ∉ utf8 pre := zero_notMem_of_le h.le_of_mem
  have hzero' : 0 ∉ utf8 pre ++ tail :=
    zero_notMem_of_le (List.forall_mem_append.mpr ⟨h.le_of_mem, hhigh⟩)
  have h1 : glib.gConvertWithFallback (utf8 (text ++ more)) .cp1251 .utf8 =
      some (utf8 pre ++ tail) := by
    have := hglib.toCp1251 (List.rel_append h.read hmore) hnil
    rwa [List.append_nil] at this
  have h2 := hglib.toCp1251 hs htail
  have h3 := hglib.fromCp1251 hs
  simp only [Conv2.convertSegment, h1, cstr_eq_self hzero', h2, cstr_eq_self hzero, h3,
    cstr_eq_self hclean, Option.bind_eq_bind, Option.bind_some, Option.pure_def]

/-- A segment is not shorter than what it is converted to, and has no `?` in it. -/
theorem Kept.segment {pre text more : List Char} (h : Kept pre text) {tail : Bytes}
    (hhigh : ∀ b ∈ tail, 0x80 ≤ b) (hmore : IsCp1251 tail more) :
    (utf8 pre).length ≤ (utf8 (text ++ more)).length ∧
      ∀ b ∈ utf8 (text ++ more), isQuestion b = false := by
  have hread := List.rel_append h.read hmore
  constructor
  · calc (utf8 pre).length
        ≤ (utf8 pre ++ tail).length := by rw [List.length_append]; exact Nat.le_add_right _ _
      _ = (text ++ more).length := hread.length_eq
      _ ≤ (utf8 (text ++ more)).length := length_le_length_utf8 _
  · intro b hb
    have hle := le_of_mem_utf8 (List.forall_mem_append.mpr ⟨h.le_of_mem, hhigh⟩) hread b hb
    have hne : b ≠ 63 := by
      rintro rfl
      exact absurd hle (by decide)
    simpa [isQuestion] using hne

/-! ## The loop -/

/-- What the loop appends to the last segment of a word: nothing when the word
ends in a `?`. -/
def closing (w : Bytes) : Bytes := if w = [] ∨ w.getLast? = some 63 then [] else [63]

theorem closing_append {w m : Bytes} : closing (w ++ 63 :: m) = closing m := by
  unfold closing
  cases m with
  | nil => simp
  | cons b m => simp [List.getLast?_append]

/-- The loop over a last segment that no `?` follows. -/
theorem convertLoop_last {glib : Glib} (hglib : glib.Inverts) {size : ℕ} {pre text : List Char}
    (hkept : Kept pre text) {passed buf : Bytes} {fuel : ℕ}
    (hroom : HasRoom size ⟨passed, utf8 text⟩ buf) (hfuel : (utf8 text).length < fuel) :
    convertLoop glib size fuel ⟨passed, utf8 text⟩ buf =
      .ok (.built (buf ++ (utf8 pre ++ closing (utf8 text)))) := by
  by_cases htext : text = []
  · subst htext
    have hread : utf8 pre = [] := List.forall₂_nil_right_iff.mp hkept.read
    have hlength := length_le_length_utf8 pre
    rw [hread, List.length_nil, Nat.le_zero] at hlength
    obtain rfl := List.length_eq_zero_iff.mp hlength
    cases fuel with
    | zero => exact absurd hfuel (Nat.not_lt_zero _)
    | succ fuel => simp [convertLoop, Strtok.next, closing, utf8]
  · have hhigh : ∀ b ∈ ([] : Bytes), 0x80 ≤ b := by simp
    obtain ⟨hlength, hclean⟩ := hkept.segment hhigh .nil
    have hans := hkept.convertSegment hglib (isIncomplete_iff.mp rfl) hhigh .nil
    rw [List.append_nil] at hlength hclean hans
    have hne : utf8 text ≠ [] := by
      obtain ⟨c, text', rfl⟩ := List.exists_cons_of_ne_nil htext
      simp [utf8]
    have hlast : (utf8 text).getLast? ≠ some 63 := by
      intro hlast
      exact absurd (hclean 63 (List.mem_of_getLast? hlast)) (by decide)
    have hnext := @Strtok.next_token isQuestion passed [] _ [] (by simp) hclean hne (by simp)
    rw [List.nil_append, List.append_nil] at hnext
    cases fuel with
    | zero => exact absurd hfuel (Nat.not_lt_zero _)
    | succ fuel =>
        obtain ⟨-, hstep⟩ := convertLoop_step fuel hroom hnext hans (by omega)
        have hpos : 0 < (utf8 text).length := List.length_pos_iff.mpr hne
        cases fuel with
        | zero => exact absurd hfuel (by omega)
        | succ fuel =>
            rw [hstep]
            simp [convertLoop, Strtok.next, Strtok.cut, closing, hne, hlast]

/-- The loop over a segment that ends in the first byte of a lost character: the
byte is dropped, and the `?` after it stays. -/
theorem convertLoop_lost {glib : Glib} (hglib : glib.Inverts) {size : ℕ} {pre text : List Char}
    (hkept : Kept pre text) {c first : Char} {b₁ b₂ : UInt8}
    (hbytes : String.utf8EncodeChar c = [b₁, b₂]) (hfirst : cp1251Char b₁ = some first)
    {passed buf m : Bytes} (fuel : ℕ)
    (hroom : HasRoom size ⟨passed, utf8 (text ++ [first]) ++ 63 :: m⟩ buf) :
    HasRoom size ⟨passed ++ utf8 (text ++ [first]) ++ [0], m⟩ (buf ++ utf8 pre ++ [63]) ∧
      convertLoop glib size (fuel + 1) ⟨passed, utf8 (text ++ [first]) ++ 63 :: m⟩ buf =
        convertLoop glib size fuel ⟨passed ++ utf8 (text ++ [first]) ++ [0], m⟩
          (buf ++ utf8 pre ++ [63]) := by
  have htail : IsIncomplete [b₁] := ⟨c, by simp [hbytes], by simp [hbytes]⟩
  have hhigh : ∀ b ∈ [b₁], 0x80 ≤ b := by
    have htwo : 2 ≤ c.utf8Size := by rw [← String.length_utf8EncodeChar, hbytes]; rfl
    intro b hb
    refine le_of_mem_utf8EncodeChar htwo ?_
    rw [hbytes, List.mem_singleton.mp hb]
    exact List.mem_cons_self
  have hmore : IsCp1251 [b₁] [first] := .cons hfirst .nil
  have hne : utf8 (text ++ [first]) ≠ [] := by
    simp [utf8]
  obtain ⟨hlength, hclean⟩ := hkept.segment hhigh hmore
  have hnext := @Strtok.next_token isQuestion passed [] _ (63 :: m) (by simp) hclean hne
    (by simp [isQuestion])
  rw [List.nil_append, List.append_nil] at hnext
  exact convertLoop_step fuel hroom hnext (hkept.convertSegment hglib htail hhigh hmore) (by omega)

/-- The loop over what is left of a damaged word, after the characters of `pre`. -/
theorem convertLoop_damage {glib : Glib} (hglib : glib.Inverts) {size : ℕ}
    {U : List (Char × Bool)} (hU : ∀ e ∈ U, ∃ b, cp1251Char b = some e.1) {m : Bytes}
    (hm : damage U = some m) {pre text : List Char} (hkept : Kept pre text) {passed buf : Bytes}
    {fuel : ℕ} (hroom : HasRoom size ⟨passed, utf8 text ++ m⟩ buf)
    (hfuel : (utf8 text ++ m).length < fuel) :
    convertLoop glib size fuel ⟨passed, utf8 text ++ m⟩ buf =
      .ok (.built (buf ++ (utf8 pre ++ (restored U ++ closing (utf8 text ++ m))))) := by
  induction U generalizing m pre text passed buf fuel with
  | nil =>
      obtain rfl : [] = m := Option.some.inj hm
      rw [List.append_nil] at hroom hfuel ⊢
      exact convertLoop_last hglib hkept hroom hfuel
  | cons e U ih =>
      obtain ⟨c, lost⟩ := e
      obtain ⟨⟨b, hb⟩, hrest⟩ := List.forall_mem_cons.mp hU
      obtain ⟨w, hw, hm⟩ := Option.bind_eq_some_iff.mp hm
      obtain ⟨m', hm', hm⟩ := Option.bind_eq_some_iff.mp hm
      obtain rfl : w ++ m' = m := Option.some.inj hm
      obtain ⟨b₁, b₂, first, hbytes, hfirst, hdamage⟩ := damageChar_eq_some hw
      cases lost with
      | false =>
          obtain ⟨second, hsecond, rfl⟩ := hdamage
          have hstring : utf8 text ++
              (String.utf8EncodeChar first ++ String.utf8EncodeChar second ++ m') =
                utf8 (text ++ [first, second]) ++ m' := by
            simp [utf8]
          have hresult : utf8 pre ++ (restored ((c, false) :: U) ++
              closing (utf8 (text ++ [first, second]) ++ m')) =
                utf8 (pre ++ [c]) ++ (restored U ++
                  closing (utf8 (text ++ [first, second]) ++ m')) := by
            simp [utf8, restored]
          rw [hstring] at hroom hfuel ⊢
          rw [hresult]
          exact ih hrest hm' (hkept.concat hbytes hb hfirst hsecond) hroom hfuel
      | true =>
          obtain rfl : w = String.utf8EncodeChar first ++ [63] := hdamage
          have hstring : utf8 text ++ (String.utf8EncodeChar first ++ [63] ++ m') =
              utf8 (text ++ [first]) ++ 63 :: m' := by
            simp [utf8]
          rw [hstring] at hroom hfuel ⊢
          cases fuel with
          | zero => exact absurd hfuel (Nat.not_lt_zero _)
          | succ fuel =>
              obtain ⟨hroom', hstep⟩ := convertLoop_lost hglib hkept hbytes hfirst fuel hroom
              have hfuel' : (utf8 [] ++ m').length < fuel := by
                simp only [List.length_append, List.length_cons] at hfuel
                simp only [utf8, List.flatMap_nil, List.nil_append]
                omega
              have hih := ih hrest hm' kept_nil hroom' hfuel'
              rw [hstep, closing_append]
              refine hih.trans ?_
              simp [utf8, restored]

/-! ## Whole words -/

/-- Apart from the `?` a damaged word has bytes outside ASCII only. -/
theorem mem_damage {U : List (Char × Bool)} {m : Bytes} (hm : damage U = some m) :
    ∀ b ∈ m, b = 63 ∨ 0x80 ≤ b := by
  induction U generalizing m with
  | nil =>
      obtain rfl : [] = m := Option.some.inj hm
      exact nofun
  | cons e U ih =>
      obtain ⟨c, lost⟩ := e
      obtain ⟨w, hw, hm⟩ := Option.bind_eq_some_iff.mp hm
      obtain ⟨m', hm', hm⟩ := Option.bind_eq_some_iff.mp hm
      obtain rfl : w ++ m' = m := Option.some.inj hm
      obtain ⟨b₁, b₂, first, hbytes, hfirst, hdamage⟩ := damageChar_eq_some hw
      have htwo : 2 ≤ c.utf8Size := by rw [← String.length_utf8EncodeChar, hbytes]; rfl
      have hread : ∀ {b' c'}, b' ∈ [b₁, b₂] → cp1251Char b' = some c' →
          ∀ b ∈ String.utf8EncodeChar c', 0x80 ≤ b := by
        intro b' c' hb' hc' b hb
        rw [← hbytes] at hb'
        have hle := le_of_mem_utf8EncodeChar htwo hb'
        exact le_of_mem_utf8EncodeChar
          ((utf8Size_of_cp1251Char hc').1.resolve_left (UInt8.not_lt.mpr hle)) hb
      have hfirst' := hread List.mem_cons_self hfirst
      intro b hb
      rcases List.mem_append.mp hb with hb | hb
      · cases lost with
        | true =>
            obtain rfl : w = String.utf8EncodeChar first ++ [63] := hdamage
            rcases List.mem_append.mp hb with hb | hb
            · exact Or.inr (hfirst' b hb)
            · exact Or.inl (List.mem_singleton.mp hb)
        | false =>
            obtain ⟨second, hsecond, rfl⟩ := hdamage
            rcases List.mem_append.mp hb with hb | hb
            · exact Or.inr (hfirst' b hb)
            · exact Or.inr (hread (List.mem_cons_of_mem _ List.mem_cons_self) hsecond b hb)
      · exact ih hm' b hb

/-- The loop and the trim after it give back a damaged word with a `?` for every
lost character. -/
theorem convertWord_damage {glib : Glib} (hglib : glib.Inverts) {U : List (Char × Bool)}
    (hU : ∀ e ∈ U, ∃ b, cp1251Char b = some e.1) {m : Bytes} (hm : damage U = some m)
    {last : UInt8} (hlast : m.getLast? = some last) :
    convertWord glib m (last == 63) = .ok (.built (restored U)) := by
  have hzero : 0 ∉ m := fun hmem => absurd (mem_damage hm 0 hmem) (by decide)
  have hstart : Strtok.start m = ⟨[], utf8 [] ++ m⟩ := by
    rw [Strtok.start, cstr_eq_self hzero]
    rfl
  have hroom := hasRoom_start m
  rw [hstart] at hroom
  have hloop := convertLoop_damage hglib hU hm kept_nil hroom (Nat.lt_succ_self _)
  have hne : m ≠ [] := by
    rintro rfl
    cases hlast
  have hbuf : [] ++ (utf8 [] ++ (restored U ++ closing (utf8 [] ++ m))) =
      if last = 63 then restored U else restored U ++ [63] := by
    by_cases hquestion : last = 63 <;> simp [utf8, closing, hne, hlast, hquestion]
  rw [hbuf] at hloop
  unfold convertWord
  rw [hstart]
  refine bind_eq_ok.mpr ⟨_, hloop, ?_⟩
  by_cases hquestion : last = 63
  · simp [hquestion]
  · simp [hquestion, trim, Functor.map, Except.map]

theorem damage_ne_nil {U : List (Char × Bool)} (hne : U ≠ []) {m : Bytes}
    (hm : damage U = some m) : m ≠ [] := by
  obtain ⟨⟨c, lost⟩, U', rfl⟩ := List.exists_cons_of_ne_nil hne
  obtain ⟨w, hw, hm⟩ := Option.bind_eq_some_iff.mp hm
  obtain ⟨m', -, hm⟩ := Option.bind_eq_some_iff.mp hm
  obtain rfl : w ++ m' = m := Option.some.inj hm
  obtain ⟨b₁, b₂, first, -, -, hdamage⟩ := damageChar_eq_some hw
  cases lost with
  | true =>
      obtain rfl : w = String.utf8EncodeChar first ++ [63] := hdamage
      simp
  | false =>
      obtain ⟨second, -, rfl⟩ := hdamage
      simp

theorem restored_mark_empty (U : List Char) : restored (mark ∅ U) = utf8 U := by
  have hmark : mark ∅ U = (U.zipIdx.map Prod.fst).map fun c => (c, false) := by
    rw [List.map_map]
    exact List.map_congr_left fun e _ => by simp
  rw [hmark, List.zipIdx_map_fst, restored, List.flatMap_map]
  rfl

/-- Let `m` be a word of characters of cp1251 that take two bytes in UTF-8, damaged
with the characters at the positions of `D` lost. If Hunspell rejects `m`,
`try_convert` passes on to `check` the word with a `?` for every lost character,
and returns the word when none is lost. -/
theorem tryConvert_damage {glib : Glib} (hglib : glib.Inverts) {h : Hunhandle} {U : List Char}
    (hne : U ≠ []) (htwo : ∀ c ∈ U, c.utf8Size = 2) (hU : ∀ c ∈ U, ∃ b, cp1251Char b = some c)
    (D : Finset ℕ) {m : Bytes} (hm : damage (mark D U) = some m) (hspell : h.spell m = false) :
    convertWord glib m (m.getLast? == some 63) = .ok (.built (restored (mark D U))) ∧
      tryConvert glib h m = check h (restored (mark D U)) ∧
      (D = ∅ → tryConvert glib h m = .ok (utf8 U)) := by
  have hmark : ∀ e ∈ mark D U, ∃ b, cp1251Char b = some e.1 := by
    intro e he
    obtain ⟨⟨c, i⟩, hmem, rfl⟩ := List.mem_map.mp he
    exact hU c (List.fst_mem_of_mem_zipIdx hmem)
  have hmarked : mark D U ≠ [] := by simpa [mark] using hne
  have hlast := List.getLast?_eq_some_getLast (damage_ne_nil hmarked hm)
  have hword := convertWord_damage hglib hmark hm hlast
  have hconvert : tryConvert glib h m = check h (restored (mark D U)) := by
    rw [tryConvert, hlast]
    simp only [hspell, Bool.false_eq_true, if_false, hword, bind, Except.bind]
  refine ⟨by rw [hlast]; exact hword, hconvert, ?_⟩
  rintro rfl
  rw [hconvert, restored_mark_empty]
  apply check_of_notMem
  intro hmem
  obtain ⟨c, hc, hmem⟩ := List.mem_flatMap.mp hmem
  exact absurd (le_of_mem_utf8EncodeChar (Nat.le_of_eq (htwo c hc).symm) hmem) (by decide)

theorem tryConvert_damage_sample :
    damage (mark {1} ['С', 'И']) = some (utf8 ['Р', 'Ў', 'Р', '?']) ∧
      convertWord glib (utf8 ['Р', 'Ў', 'Р', '?'])
        ((utf8 ['Р', 'Ў', 'Р', '?']).getLast? == some 63) =
          .ok (.built (restored (mark {1} ['С', 'И']))) ∧
      tryConvert glib rejecting (utf8 ['Р', 'Ў', 'Р', '?']) =
        check rejecting (restored (mark {1} ['С', 'И'])) ∧
      (({1} : Finset ℕ) = ∅ →
        tryConvert glib rejecting (utf8 ['Р', 'Ў', 'Р', '?']) = .ok (utf8 ['С', 'И'])) := by
  have hm : damage (mark {1} ['С', 'И']) = some (utf8 ['Р', 'Ў', 'Р', '?']) := by
    decide +kernel
  have hU : ∀ c ∈ ['С', 'И'], ∃ b, cp1251Char b = some c := by
    rintro c (_ | ⟨_, _ | ⟨_, ⟨⟩⟩⟩)
    · exact ⟨0xD1, by decide⟩
    · exact ⟨0xC8, by decide⟩
  exact ⟨hm, tryConvert_damage glib_converts.toInverts (by decide) (by simp [Char.utf8Size]) hU
    {1} hm rfl⟩

end SearchTools.Conv2
