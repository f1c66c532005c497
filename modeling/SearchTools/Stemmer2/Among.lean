/-
# Looking up endings

`find_among` and `find_among_b` find the longest string of a table that stands at the
cursor and that the routine of its item accepts. The tables of the stemmers are sorted,
and each item knows the longest other item that begins it (or, read backwards, ends it).
-/

import Mathlib.Data.List.Nodup
import SearchTools.Library.LongestMatch
import SearchTools.Stemmer2.Snowball

namespace SearchTools.Stemmer2

open SearchTools.Library

variable {read : ℕ → Except Fault (Option UInt8)} {key : Among → Bytes} {v : List Among}
  {t : Bytes}

/-- The item at `w->substring_i`. -/
def parent? (v : List Among) (w : Among) : Option Among :=
  if w.substringI < 0 then none else v[w.substringI.toNat]?

/-- The tables that the Snowball compiler writes. -/
structure IsTable (key : Among → Bytes) (v : List Among) : Prop where
  ne_nil : v ≠ []
  sorted : (v.map key).Pairwise (· < ·)
  inside : ∀ w ∈ v, w.substringI < 0 ∨ (parent? v w).isSome
  shorter : ∀ w ∈ v, ∀ p ∈ parent? v w, key p <+: key w ∧ key p ≠ key w
  longest : ∀ w ∈ v, ∀ u ∈ v, key u <+: key w → key u ≠ key w →
    ∃ p ∈ parent? v w, key u <+: key p

instance (key : Among → Bytes) (v : List Among) : Decidable (IsTable key v) :=
  decidable_of_iff
    (v ≠ [] ∧ (v.map key).Pairwise (· < ·) ∧
      (∀ w ∈ v, w.substringI < 0 ∨ (parent? v w).isSome) ∧
      (∀ w ∈ v, ∀ p ∈ parent? v w, key p <+: key w ∧ key p ≠ key w) ∧
      ∀ w ∈ v, ∀ u ∈ v, key u <+: key w → key u ≠ key w → ∃ p ∈ parent? v w, key u <+: key p)
    ⟨fun h => ⟨h.1, h.2.1, h.2.2.1, h.2.2.2.1, h.2.2.2.2⟩,
      fun h => ⟨h.ne_nil, h.sorted, h.inside, h.shorter, h.longest⟩⟩

/-- A table without routines. -/
structure IsPlainTable (key : Among → Bytes) (v : List Among) : Prop extends IsTable key v where
  plain : ∀ w ∈ v, w.function = none

instance (key : Among → Bytes) (v : List Among) : Decidable (IsPlainTable key v) :=
  decidable_of_iff (IsTable key v ∧ ∀ w ∈ v, w.function = none)
    ⟨fun h => ⟨h.1, h.2⟩, fun h => ⟨h.toIsTable, h.plain⟩⟩

/-- The items whose strings begin a text, the last one of the table first. -/
def standing (key : Among → Bytes) (v : List Among) (t : Bytes) : List Among :=
  (v.filter fun w => decide (key w <+: t)).reverse

/-- Try the items one after the other, and return the result of the first one that is
accepted. -/
def firstAccepted (place : ℕ → ℕ) : List Among → Routine
  | [], z => .ok (0, z)
  | w :: rest, z => do
      let (accepted, z) ← w.attempt (place w.s.length) z
      if accepted then return (w.result, z)
      firstAccepted place rest z

/-- The longest item that begins a text, if one does. -/
def IsLongest (key : Among → Bytes) (v : List Among) (t : Bytes) : Option Among → Prop
  | none => ∀ w ∈ v, ¬ key w <+: t
  | some w => w ∈ v ∧ key w <+: t ∧ ∀ u ∈ v, key u <+: t → (key u).length ≤ (key w).length

/-! ## The comparison -/

/-- The comparison finds the common prefix and which of the two comes first. -/
theorem compareFrom_drop (hread : ∀ n ≤ t.length, read n = .ok t[n]?) (s : Bytes) {n : ℕ}
    (hn : n ≤ lcp s t) :
    ∃ diff, compareFrom read (s.drop n) n = .ok (diff, lcp s t) ∧ (0 ≤ diff ↔ s ≤ t) := by
  generalize hrest : s.drop n = rest
  induction rest generalizing n with
  | nil =>
      have hlen : lcp s t = s.length :=
        Nat.le_antisymm (lcp_le_left s t) ((List.drop_eq_nil_iff.mp hrest).trans hn)
      have hend : n = lcp s t := by
        have := List.drop_eq_nil_iff.mp hrest
        omega
      refine ⟨0, by rw [compareFrom, hend], ?_⟩
      exact iff_of_true (Int.le_refl 0) (le_iff_parting.mpr (Or.inl hlen))
  | cons b rest ih =>
      have hb : s[n]? = some b := by
        rw [← List.head?_drop, hrest]
        rfl
      have hlt : n < s.length := (List.getElem?_eq_some_iff.mp hb).1
      rw [compareFrom, hread n (hn.trans (lcp_le_right s t))]
      cases ha : t[n]? with
      | none =>
          have hend : lcp s t = n := by
            have := lcp_le_right s t
            have := List.getElem?_eq_none_iff.mp ha
            omega
          refine ⟨-1, by rw [hend]; rfl, iff_of_false (by decide) ?_⟩
          rw [le_iff_parting, hend, ha]
          rintro (hall | ⟨_, _, _, hnone, _⟩)
          · omega
          · cases hnone
      | some a =>
          by_cases hdiff : (a.toNat : ℤ) - b.toNat = 0
          · have hab : a = b := UInt8.toNat_inj.mp (by omega)
            have hnext : n + 1 ≤ lcp s t := succ_le_lcp_iff.mpr ⟨hn, a, hab ▸ hb, ha⟩
            have hdrop : s.drop (n + 1) = rest := by
              rw [← List.tail_drop, hrest]
              rfl
            obtain ⟨diff, hcompare, hle⟩ := ih hnext hdrop
            refine ⟨diff, ?_, hle⟩
            simpa [ok_bind, hdiff] using hcompare
          · have hend : lcp s t = n := by
              by_contra hne
              obtain ⟨-, a', ha', hb'⟩ := succ_le_lcp_iff.mp (by omega : n + 1 ≤ lcp s t)
              rw [ha] at hb'
              rw [hb] at ha'
              apply hdiff
              rw [Option.some.inj hb', Option.some.inj ha']
              omega
            refine ⟨(a.toNat : ℤ) - b.toNat, ?_, ?_⟩
            · simp [ok_bind, hdiff, hend, pure, Except.pure]
            rw [le_iff_parting, hend, hb, ha]
            constructor
            · intro hle
              exact Or.inr ⟨b, a, rfl, rfl, UInt8.lt_iff_toNat_lt.mpr (by omega)⟩
            · rintro (hall | ⟨_, _, hs, ht, hlt'⟩)
              · omega
              · rw [← Option.some.inj hs, ← Option.some.inj ht, UInt8.lt_iff_toNat_lt] at hlt'
                omega

/-! ## The binary search -/

/-- What is known of the lower end of the search: it is not above the text, with the
common part known, or it has not been looked at. -/
def Low (key : Among → Bytes) (v : List Among) (t : Bytes) (i commonI : ℕ) : Prop :=
  ∃ x, (v.map key)[i]? = some x ∧ (x ≤ t ∧ commonI = lcp x t ∨ i = 0 ∧ commonI = 0)

/-- What is known of the upper end: it is above the text, or the end of the table. -/
def High (key : Among → Bytes) (v : List Among) (t : Bytes) (j commonJ : ℕ) : Prop :=
  j = v.length ∧ commonJ = 0 ∨ ∃ y, (v.map key)[j]? = some y ∧ ¬ y ≤ t ∧ commonJ ≤ lcp y t

/-- An item and a length that determine which items begin the text. -/
def Decides (key : Among → Bytes) (v : List Among) (t : Bytes) (i commonI : ℕ) : Prop :=
  ∃ w, v[i]? = some w ∧
    ∀ u ∈ v, key u <+: t ↔ key u <+: key w ∧ (key u).length ≤ commonI

theorem High.above {j commonJ : ℕ} (hv : IsTable key v) (h : High key v t j commonJ) {k : ℕ}
    {x : Bytes} (hk : (v.map key)[k]? = some x) (hjk : j ≤ k) : ¬ x ≤ t := by
  rcases h with ⟨rfl, -⟩ | ⟨y, hy, hyt, -⟩
  · have hlt := (List.getElem?_eq_some_iff.mp hk).1
    rw [List.length_map] at hlt
    omega
  · exact fun hxt => hyt (List.le_trans (le_of_sorted hv.sorted hy hk hjk) hxt)

/-- A search that is left with neighbours has found the item that decides. -/
theorem decides_of_neighbours (hv : IsTable key v) {i j commonI commonJ : ℕ} {x : Bytes}
    (hx : (v.map key)[i]? = some x)
    (hcases : x ≤ t ∧ commonI = lcp x t ∨ ¬ x ≤ t ∧ i = 0 ∧ commonI = 0)
    (hhigh : High key v t j commonJ) (hij : j ≤ i + 1) : Decides key v t i commonI := by
  have hitem := hx
  rw [List.getElem?_map] at hitem
  obtain ⟨w, hw, rfl⟩ := Option.map_eq_some_iff.mp hitem
  refine ⟨w, hw, fun u hu => ?_⟩
  have hmem : key u ∈ v.map key := List.mem_map_of_mem hu
  rcases hcases with ⟨hle, rfl⟩ | ⟨hle, rfl, rfl⟩
  · have hbelow : ∀ k y, (v.map key)[k]? = some y → (y ≤ t ↔ k ≤ i) := by
      intro k y hy
      constructor
      · intro hyt
        by_contra hki
        exact hhigh.above hv hy (by omega) hyt
      · intro hki
        exact List.le_trans (le_of_sorted hv.sorted hy hx hki) hle
    exact prefix_iff_of_last hv.sorted hx hbelow hmem
  · -- Even the first key is above the text, so none begins it.
    have habove : ∀ y ∈ v.map key, ¬ y ≤ t := by
      intro y hy hyt
      obtain ⟨k, hk⟩ := List.getElem?_of_mem hy
      exact hle (List.le_trans (le_of_sorted hv.sorted hx hk (Nat.zero_le k)) hyt)
    apply iff_of_false
    · exact fun hpre => habove _ hmem hpre.le
    · rintro ⟨-, hlen⟩
      apply habove _ hmem
      rw [List.eq_nil_of_length_eq_zero (Nat.le_zero.mp hlen)]
      exact List.nil_le t

/-- The search ends, at an item that decides. -/
theorem searchAmong_decides (hread : ∀ n ≤ t.length, read n = .ok t[n]?) (hv : IsTable key v)
    {fuel i j commonI commonJ : ℕ} {inspected : Bool} (hlow : Low key v t i commonI)
    (hhigh : High key v t j commonJ) (hij : i + 2 ≤ j ∨ i = 0 ∧ j = 1)
    (hinspected : inspected → i = 0 ∧ j = 1)
    (hfuel : j - i + (if inspected then 0 else 1) ≤ fuel) :
    ∃ i' commonI', searchAmong read key v fuel i j commonI commonJ inspected =
      .ok (i', commonI') ∧ Decides key v t i' commonI' := by
  induction fuel generalizing i j commonI commonJ inspected with
  | zero => omega
  | succ fuel ih =>
      obtain ⟨x, hx, hlow⟩ := hlow
      have hlen : j ≤ v.length := by
        rcases hhigh with ⟨rfl, -⟩ | ⟨y, hy, -⟩
        · exact Nat.le_refl _
        · have := (List.getElem?_eq_some_iff.mp hy).1
          rw [List.length_map] at this
          omega
      obtain ⟨k, hk, hik, hkj⟩ : ∃ k, i + (j - i) / 2 = k ∧ i ≤ k ∧ k < j :=
        ⟨_, rfl, by omega, by omega⟩
      obtain ⟨w, hw⟩ : ∃ w, v[k]? = some w := ⟨_, List.getElem?_eq_getElem (by omega)⟩
      have hkey : (v.map key)[k]? = some (key w) := by rw [List.getElem?_map, hw]; rfl
      -- The two ends agree with the text this far, so the item between them does.
      have hcommon : min commonI commonJ ≤ lcp (key w) t := by
        rcases hlow with ⟨hxt, rfl⟩ | ⟨-, rfl⟩
        · rcases hhigh with ⟨-, rfl⟩ | ⟨y, hy, -, hle⟩
          · rw [Nat.min_zero]
            exact Nat.zero_le _
          · have hmin := min_lcp_le (le_of_sorted hv.sorted hx hkey hik)
              (le_of_sorted hv.sorted hkey hy hkj.le) t
            omega
        · rw [Nat.zero_min]
          exact Nat.zero_le _
      obtain ⟨diff, hcompare, hdiff⟩ := compareFrom_drop hread (key w) hcommon
      rw [searchAmong, hk, show item v k = .ok w by rw [item, hw], ok_bind, hcompare, ok_bind]
      dsimp only
      by_cases hneg : diff < 0
      · have habove : ¬ key w ≤ t := fun hle => absurd (hdiff.mpr hle) (by omega)
        have hhigh' : High key v t k (lcp (key w) t) := Or.inr ⟨_, hkey, habove, Nat.le_refl _⟩
        -- Where the item is the lower end itself, that is above the text.
        have hfirst : k = i → ¬ x ≤ t := by
          rintro rfl
          rw [hx] at hkey
          rwa [Option.some.inj hkey]
        simp only [if_pos hneg]
        split_ifs with hnear hstop
        · refine ⟨i, commonI, rfl, decides_of_neighbours hv hx ?_ hhigh' (by omega)⟩
          rcases hlow with hlow | ⟨rfl, rfl⟩
          · exact Or.inl hlow
          · refine Or.inr ⟨hfirst ?_, rfl, rfl⟩
            rcases hstop with hpos | heq | hseen
            · omega
            · exact heq
            · have := hinspected hseen
              omega
        · obtain ⟨hzero, hne, hseen⟩ : i = 0 ∧ k ≠ i ∧ inspected = false := by
            simpa [not_or] using hstop
          refine ih ⟨x, hx, hlow⟩ hhigh' (by omega) (fun _ => by omega) ?_
          simp only [hseen, Bool.false_eq_true, if_false, if_true] at hfuel ⊢
          omega
        · refine ih ⟨x, hx, hlow⟩ hhigh' (by omega) (fun hseen => ?_) (by omega)
          have := hinspected hseen
          omega
      · have hbelow : key w ≤ t := hdiff.mp (by omega)
        have hlow' : Low key v t k (lcp (key w) t) := ⟨_, hkey, Or.inl ⟨hbelow, rfl⟩⟩
        simp only [if_neg hneg]
        split_ifs with hnear hstop
        · exact ⟨k, _, rfl, decides_of_neighbours hv hkey (Or.inl ⟨hbelow, rfl⟩) hhigh (by omega)⟩
        · obtain ⟨hzero, hne, hseen⟩ : k = 0 ∧ j ≠ k ∧ inspected = false := by
            simpa [not_or] using hstop
          refine ih hlow' hhigh (by omega) (fun _ => by omega) ?_
          simp only [hseen, Bool.false_eq_true, if_false, if_true] at hfuel ⊢
          omega
        · refine ih hlow' hhigh (by omega) (fun hseen => ?_) (by omega)
          have := hinspected hseen
          omega

/-! ## The walk to shorter items -/

/-- The parent of an item stands before it. -/
theorem index_parent_lt (hv : IsTable key v) {i : ℕ} {w p : Among} (hw : v[i]? = some w)
    (hp : p ∈ parent? v w) : w.substringI.toNat < i := by
  have hparent : v[w.substringI.toNat]? = some p := by
    rw [Option.mem_def, parent?] at hp
    split_ifs at hp
    exact hp
  obtain ⟨hpre, hne⟩ := hv.shorter w (List.mem_of_getElem? hw) p hp
  by_contra hle
  have hwp : key w ≤ key p := le_of_sorted hv.sorted (by rw [List.getElem?_map, hw]; rfl)
    (by rw [List.getElem?_map, hparent]; rfl) (Nat.not_lt.mp hle)
  exact hne (List.le_antisymm hpre.le hwp)

/-- The items that begin the string of an item and are not longer than `commonI`, the
last one first. -/
def below (key : Among → Bytes) (v : List Among) (w : Among) (commonI : ℕ) : List Among :=
  (v.filter fun u => decide (key u <+: key w ∧ (key u).length ≤ commonI)).reverse

/-- The items that begin a given one are those before it, and itself. -/
theorem filter_eq (hv : IsTable key v) {i : ℕ} {w : Among} (hw : v[i]? = some w)
    {f : Among → Bool} (hf : ∀ u ∈ v, f u = true → key u <+: key w) :
    (∀ u ∈ v.take i, key u ≠ key w) ∧
      v.filter f = (v.take i).filter f ++ if f w then [w] else [] := by
  have hlt := (List.getElem?_eq_some_iff.mp hw).1
  have hdrop : v.drop i = w :: v.drop (i + 1) := by
    rw [List.drop_eq_getElem_cons hlt, (List.getElem?_eq_some_iff.mp hw).2]
  have hsplit : v = v.take i ++ w :: v.drop (i + 1) := by rw [← hdrop, List.take_append_drop]
  have hsorted := hv.sorted
  rw [hsplit, List.map_append, List.map_cons, List.pairwise_append, List.pairwise_cons] at hsorted
  obtain ⟨-, ⟨hlater, -⟩, hearlier⟩ := hsorted
  constructor
  · intro u hu heq
    have hless := hearlier _ (List.mem_map_of_mem hu) (key w) List.mem_cons_self
    rw [heq] at hless
    exact List.lt_irrefl _ hless
  · have hnone : (v.drop (i + 1)).filter f = [] := by
      rw [List.filter_eq_nil_iff]
      intro u hu hfu
      have hpre := hf u (List.mem_of_mem_drop hu) hfu
      have hless := hlater _ (List.mem_map_of_mem hu)
      exact absurd hless (List.not_lt.mpr hpre.le)
    nth_rewrite 1 [hsplit]
    rw [List.filter_append, List.filter_cons, hnone]

/-- An item comes first among those that begin it, and its parent goes on. -/
theorem below_eq (hv : IsTable key v) {i : ℕ} {w : Among} (hw : v[i]? = some w) (commonI : ℕ) :
    below key v w commonI = (if (key w).length ≤ commonI then [w] else []) ++
      (match parent? v w with
        | none => []
        | some p => below key v p commonI) := by
  have hmem := List.mem_of_getElem? hw
  obtain ⟨hne, hself⟩ := @filter_eq key v hv i w hw
    (fun u => decide (key u <+: key w ∧ (key u).length ≤ commonI))
    fun u _ hu => (of_decide_eq_true hu).1
  rw [below, hself, List.reverse_append]
  congr 1
  · simp only [List.prefix_refl, true_and, decide_eq_true_eq]
    split <;> rfl
  cases hp : parent? v w with
  | none =>
      rw [List.reverse_eq_nil_iff, List.filter_eq_nil_iff]
      intro u hu hfu
      obtain ⟨p, hp', -⟩ := hv.longest w hmem u (List.mem_of_mem_take hu)
        (of_decide_eq_true hfu).1 (hne u hu)
      rw [hp] at hp'
      cases hp'
  | some p =>
      obtain ⟨hpre, hpne⟩ := hv.shorter w hmem p hp
      have hlonger : ¬ key w <+: key p := fun h =>
        hpne (hpre.eq_of_length (Nat.le_antisymm hpre.length_le h.length_le))
      obtain ⟨-, hparent⟩ := @filter_eq key v hv i w hw
        (fun u => decide (key u <+: key p ∧ (key u).length ≤ commonI))
        fun u _ hu => (of_decide_eq_true hu).1.trans hpre
      have hnot : decide (key w <+: key p ∧ (key w).length ≤ commonI) = false :=
        decide_eq_false fun h => hlonger h.1
      simp only [below, hparent, hnot, Bool.false_eq_true, if_false, List.append_nil]
      congr 1
      apply List.filter_congr
      intro u hu
      rw [decide_eq_decide]
      constructor
      · rintro ⟨hupre, hlen⟩
        obtain ⟨p', hp', hle⟩ := hv.longest w hmem u (List.mem_of_mem_take hu) hupre (hne u hu)
        rw [Option.mem_def, hp] at hp'
        exact ⟨Option.some.inj hp' ▸ hle, hlen⟩
      · rintro ⟨hupre, hlen⟩
        exact ⟨hupre.trans hpre, hlen⟩

/-- From an item that decides the walk tries the items that begin the text. -/
theorem walkAmong_eq (hkey : ∀ w, (key w).length = w.s.length) (hv : IsTable key v)
    (place : ℕ → ℕ) {fuel i commonI : ℕ} {w : Among} (hw : v[i]? = some w) (hfuel : i < fuel)
    (z : SnEnv) :
    walkAmong place v fuel i commonI z = firstAccepted place (below key v w commonI) z := by
  induction fuel generalizing i w z with
  | zero => omega
  | succ fuel ih =>
      have hrest : ∀ z, (if w.substringI < 0 then .ok (0, z)
          else walkAmong place v fuel w.substringI.toNat commonI z) =
            firstAccepted place (match parent? v w with
              | none => []
              | some p => below key v p commonI) z := by
        intro z
        by_cases hneg : w.substringI < 0
        · rw [if_pos hneg, parent?, if_pos hneg, firstAccepted]
        · obtain ⟨p, hp⟩ := Option.isSome_iff_exists.mp
            ((hv.inside w (List.mem_of_getElem? hw)).resolve_left hneg)
          have hlt := index_parent_lt hv hw hp
          have hindex : v[w.substringI.toNat]? = some p := by rwa [parent?, if_neg hneg] at hp
          rw [if_neg hneg, hp]
          exact ih hindex (by omega) z
      rw [below_eq hv hw, hkey, walkAmong, show item v i = .ok w by rw [item, hw], ok_bind]
      by_cases hlen : w.s.length ≤ commonI
      · rw [if_pos hlen, if_pos hlen, List.singleton_append, firstAccepted]
        cases w.attempt (place w.s.length) z with
        | error fault => rfl
        | ok r =>
            obtain ⟨accepted, z'⟩ := r
            cases accepted with
            | true => rfl
            | false => exact hrest z'
      · rw [if_neg hlen, if_neg hlen, List.nil_append]
        exact hrest z

/-- The lookup tries the items that begin the text. -/
theorem amongAt_eq (hread : ∀ n ≤ t.length, read n = .ok t[n]?)
    (hkey : ∀ w, (key w).length = w.s.length) (hv : IsTable key v) (place : ℕ → ℕ) (z : SnEnv) :
    amongAt read key place v z = firstAccepted place (standing key v t) z := by
  have hpos : 0 < v.length := List.length_pos_iff.mpr hv.ne_nil
  have hlow : Low key v t 0 0 :=
    ⟨key v[0], by rw [List.getElem?_map, List.getElem?_eq_getElem hpos]; rfl, Or.inr ⟨rfl, rfl⟩⟩
  obtain ⟨i, commonI, hsearch, w, hw, hiff⟩ := @searchAmong_decides _ _ _ _ hread hv
    (v.length + 2) 0 v.length 0 0 false hlow (Or.inl ⟨rfl, rfl⟩) (by omega) (by simp)
    (by simp only [Bool.false_eq_true, if_false]; omega)
  have hi : i < v.length := (List.getElem?_eq_some_iff.mp hw).1
  have hbelow : standing key v t = below key v w commonI := by
    rw [standing, below]
    congr 1
    apply List.filter_congr
    intro u hu
    rw [decide_eq_decide, hiff u hu]
  rw [amongAt, hsearch, hbelow]
  exact walkAmong_eq hkey hv place hw (by omega) z

/-! ## The items that are tried -/

theorem mem_standing {w : Among} : w ∈ standing key v t ↔ w ∈ v ∧ key w <+: t := by
  rw [standing, List.mem_reverse, List.mem_filter, decide_eq_true_eq]

/-- The longest item comes first. -/
theorem standing_pairwise (hv : IsTable key v) :
    (standing key v t).Pairwise fun w u => (key u).length < (key w).length := by
  have hsorted : (v.filter fun w => decide (key w <+: t)).Pairwise fun u w => key u < key w := by
    have hmap := hv.sorted
    rw [List.pairwise_map] at hmap
    exact hmap.sublist List.filter_sublist
  rw [standing, List.pairwise_reverse]
  refine hsorted.imp_of_mem fun {u w} hu hw hlt => ?_
  have hut := of_decide_eq_true (List.mem_filter.mp hu).2
  have hwt := of_decide_eq_true (List.mem_filter.mp hw).2
  by_contra hle
  have hpre : key w <+: key u := List.prefix_of_prefix_length_le hwt hut (Nat.not_lt.mp hle)
  exact absurd hlt (List.not_lt.mpr hpre.le)

theorem isLongest_head? (hv : IsTable key v) : IsLongest key v t (standing key v t).head? := by
  have hpairwise := standing_pairwise (t := t) hv
  cases hstanding : standing key v t with
  | nil =>
      intro w hw hpre
      have hmem := mem_standing.mpr ⟨hw, hpre⟩
      rw [hstanding] at hmem
      cases hmem
  | cons w rest =>
      have hw : w ∈ standing key v t := by
        rw [hstanding]
        exact List.mem_cons_self
      rw [hstanding, List.pairwise_cons] at hpairwise
      refine ⟨(mem_standing.mp hw).1, (mem_standing.mp hw).2, fun u hu hut => ?_⟩
      have hmem := mem_standing.mpr ⟨hu, hut⟩
      rw [hstanding, List.mem_cons] at hmem
      rcases hmem with rfl | hmem
      · exact Nat.le_refl _
      · exact Nat.le_of_lt (hpairwise.1 u hmem)

/-- Without routines the first item is accepted. -/
theorem firstAccepted_plain {l : List Among} (hplain : ∀ w ∈ l, w.function = none)
    (place : ℕ → ℕ) (z : SnEnv) :
    firstAccepted place l z = match l.head? with
      | none => .ok (0, z)
      | some w => .ok (w.result, { z with c := place w.s.length }) := by
  cases l with
  | nil => rfl
  | cons w rest =>
      rw [firstAccepted, Among.attempt, hplain w List.mem_cons_self]
      rfl

/-- The longest item whose string has a property. -/
def longest (v : List Among) (fits : Bytes → Bool) : Option Among :=
  v.find? fun w => fits w.s && v.all fun u => !fits u.s || decide (u.s.length ≤ w.s.length)

theorem longest_fits {v : List Among} {fits : Bytes → Bool} {w : Among}
    (h : longest v fits = some w) : w ∈ v ∧ fits w.s = true := by
  have hfound := List.find?_some h
  rw [Bool.and_eq_true] at hfound
  exact ⟨List.mem_of_find?_eq_some h, hfound.1⟩

/-- In a table only one item is the longest. -/
theorem longest_eq (hkey : ∀ w, (key w).length = w.s.length) (hv : IsTable key v)
    {fits : Bytes → Bool} (hfits : ∀ w, fits w.s = true ↔ key w <+: t) {found : Option Among}
    (h : IsLongest key v t found) : longest v fits = found := by
  cases found with
  | none =>
      rw [longest, List.find?_eq_none]
      intro w hw hsome
      rw [Bool.and_eq_true] at hsome
      exact h w hw ((hfits w).mp hsome.1)
  | some w =>
      obtain ⟨hw, hpre, hmax⟩ := h
      have hall : (fits w.s && v.all fun u =>
          !fits u.s || decide (u.s.length ≤ w.s.length)) = true := by
        rw [Bool.and_eq_true, List.all_eq_true]
        refine ⟨(hfits w).mpr hpre, fun u hu => ?_⟩
        by_cases hut : fits u.s = true
        · have hle := hmax u hu ((hfits u).mp hut)
          rw [hkey, hkey] at hle
          simp [hle]
        · simp [hut]
      cases hfound : longest v fits with
      | none => exact absurd hall (List.find?_eq_none.mp hfound w hw)
      | some u =>
          have hu := List.mem_of_find?_eq_some hfound
          have hp := List.find?_some hfound
          rw [Bool.and_eq_true, List.all_eq_true] at hp
          have hut : key u <+: t := (hfits u).mp hp.1
          have hle : w.s.length ≤ u.s.length := by
            have hw' := hp.2 w hw
            rw [(hfits w).mpr hpre] at hw'
            simpa using hw'
          have hge := hmax u hu hut
          have heq : key u = key w :=
            (List.prefix_of_prefix_length_le hut hpre hge).eq_of_length
              (Nat.le_antisymm hge (by rwa [hkey, hkey]))
          have hnodup : (v.map key).Nodup :=
            hv.sorted.imp fun {a b} (hlt : a < b) (heq : a = b) => List.lt_irrefl b (heq ▸ hlt)
          rw [List.inj_on_of_nodup_map hnodup hu hw heq]

namespace SnEnv

variable {z : SnEnv}

/-- The symbols that the cursor may pass over, backwards down to the limit. -/
def before (z : SnEnv) : Bytes := (z.p.take z.c).drop z.lb

/-- The symbols from the cursor on up to the limit. -/
def after (z : SnEnv) : Bytes := (z.p.take z.l).drop z.c

theorem ahead_eq (hcl : z.c ≤ z.l) (hl : z.l ≤ z.p.length) {n : ℕ} (hn : n ≤ z.after.length) :
    z.ahead n = .ok z.after[n]? := by
  rw [after, List.length_drop, List.length_take, Nat.min_eq_left hl] at hn
  rw [ahead, after, List.getElem?_drop]
  split_ifs with hend hpast
  · rw [hend, List.getElem?_take_eq_none (Nat.le_refl _)]
  · omega
  · have hlt : z.c + n < z.l := by omega
    have hsome := List.getElem?_eq_getElem (hlt.trans_le hl)
    rw [List.getElem?_take_of_lt hlt, hsome, symbol_eq hsome]
    rfl

theorem behind_eq (hlb : z.lb ≤ z.c) (hc : z.c ≤ z.p.length) {n : ℕ}
    (hn : n ≤ z.before.reverse.length) : z.behind n = .ok z.before.reverse[n]? := by
  have hlen : z.before.length = z.c - z.lb := by
    rw [before, List.length_drop, List.length_take, Nat.min_eq_left hc]
  rw [List.length_reverse, hlen] at hn
  rw [behind]
  split_ifs with hend hpast
  · rw [List.getElem?_eq_none]
    rw [List.length_reverse, hlen]
    omega
  · omega
  · have hlt : n < z.before.length := by omega
    have hsome := List.getElem?_eq_getElem (by omega : z.c - 1 - n < z.p.length)
    have hindex : z.lb + (z.c - z.lb - 1 - n) = z.c - 1 - n := by omega
    rw [List.getElem?_reverse hlt, hlen, symbol_eq hsome, before, List.getElem?_drop,
      List.getElem?_take_of_lt (by omega), hindex, hsome]
    rfl

/-- The result of a lookup without routines, which passes back over the string it has
found. -/
def passBack (z : SnEnv) : Option Among → ℤ × SnEnv
  | some w => (w.result, { z with c := z.c - w.s.length })
  | none => (0, z)

theorem findAmong_eq (hcl : z.c ≤ z.l) (hl : z.l ≤ z.p.length) (hv : IsTable Among.s v) :
    z.findAmong v = firstAccepted (z.c + ·) (standing Among.s v z.after) z :=
  amongAt_eq (fun _ hn => ahead_eq hcl hl hn) (fun _ => rfl) hv _ z

theorem findAmongB_eq (hlb : z.lb ≤ z.c) (hc : z.c ≤ z.p.length)
    (hv : IsTable (fun w => w.s.reverse) v) :
    z.findAmongB v =
      firstAccepted (z.c - ·) (standing (fun w => w.s.reverse) v z.before.reverse) z :=
  amongAt_eq (fun _ hn => behind_eq hlb hc hn) (fun _ => List.length_reverse) hv _ z

/-- Without routines `find_among_b` finds the longest string of the table before the
cursor. -/
theorem findAmongB_plain (hlb : z.lb ≤ z.c) (hc : z.c ≤ z.p.length)
    (hv : IsPlainTable (fun w => w.s.reverse) v) :
    z.findAmongB v = .ok (z.passBack (longest v (· <:+ z.before))) := by
  have hkey : ∀ w : Among, w.s.reverse.length = w.s.length := fun _ => List.length_reverse
  have hfits : ∀ w : Among, decide (w.s <:+ z.before) = true ↔
      w.s.reverse <+: z.before.reverse := by
    intro w
    rw [decide_eq_true_iff]
    exact List.reverse_prefix.symm
  rw [longest_eq hkey hv.toIsTable hfits (isLongest_head? hv.toIsTable),
    findAmongB_eq hlb hc hv.toIsTable,
    firstAccepted_plain fun w hw => hv.plain w (mem_standing.mp hw).1]
  cases (standing (fun w => w.s.reverse) v z.before.reverse).head? <;> rfl

/-- Both lookups try the strings of the table at the cursor, the longest first, and give
the result of the first one without a routine or with one that accepts it. They read
nothing past the limits. -/
theorem findAmong_longest {v u : List Among} (hlb : z.lb ≤ z.c) (hcl : z.c ≤ z.l)
    (hl : z.l ≤ z.p.length) (hv : IsTable Among.s v) (hu : IsTable (fun w => w.s.reverse) u) :
    (z.findAmong v = firstAccepted (z.c + ·) (standing Among.s v z.after) z ∧
      (standing Among.s v z.after).Pairwise fun w w' => w'.s.length < w.s.length) ∧
    z.findAmongB u =
      firstAccepted (z.c - ·) (standing (fun w => w.s.reverse) u z.before.reverse) z ∧
    (standing (fun w => w.s.reverse) u z.before.reverse).Pairwise
      fun w w' => w'.s.length < w.s.length := by
  refine ⟨⟨findAmong_eq hcl hl hv, standing_pairwise hv⟩, findAmongB_eq hlb (hcl.trans hl) hu, ?_⟩
  have hpairwise := standing_pairwise (t := z.before.reverse) hu
  simpa only [List.length_reverse] using hpairwise

/-- The cursor stands behind the `a` of `abc`, and `bc` is not accepted. -/
theorem findAmong_longest_sample :
    (SnEnv.mk [97, 98, 99] 3 1 3 0 0 0 0 0).findAmong
        [⟨[98], -1, 1, none⟩, ⟨[98, 99], 0, 2, some fun z => .ok (0, z)⟩] =
      .ok (1, SnEnv.mk [97, 98, 99] 3 2 3 0 0 0 0 0) := by
  rw [(findAmong_longest (u := [⟨[97], -1, 1, none⟩, ⟨[98, 97], 0, 2, none⟩])
    (by decide) (by decide) (by decide) (by decide) (by decide)).1.1]
  rfl

end SnEnv

end SearchTools.Stemmer2
