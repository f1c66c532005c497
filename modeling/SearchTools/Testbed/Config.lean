/-
# What the configuration settles

`load_config` of `gen_config.cpp` against its purpose: a value in the file overrides
the default. The integers do. The host of the external links is taken over in one
case only, and a wrong one; the check on the probability of external links is made on
that of internal links instead.
-/

import Mathlib.Algebra.Order.Field.Rat
import Mathlib.Algebra.Order.Floor.Ring
import Mathlib.Data.Rat.Floor
import Mathlib.Tactic.Linarith
import Mathlib.Tactic.NormNum
import SearchTools.Testbed.Draws
import SearchTools.Testbed.Server

namespace SearchTools.Testbed

open Function SearchTools.Common SearchTools.Library

/-- The value of a key in the section `generator`. -/
def given (file : Bytes) (key : String) : Option Bytes :=
  entry (configLoad file) (bytes "generator") (bytes key)

/-- An integer of the file, or the default. -/
def givenInt (file : Bytes) (key : String) (default : ℤ) : ℤ :=
  ((given file key).map atoi).getD default

/-- A string of the file, empty if there is none. -/
def givenStr (file : Bytes) (key : String) : Bytes := (given file key).getD []

/-- What comes before and after the number of an external server. -/
def defaultHost : Bytes × Bytes := (bytes "serv", bytes ".testbed.local")

/-- The host given in the file, if both of its parts are given and not empty. -/
def givenHost (file : Bytes) : Bytes × Bytes :=
  if givenStr file "extern_links_prefix" ≠ [] ∧ givenStr file "extern_links_suffix" ≠ [] then
    (givenStr file "extern_links_prefix", givenStr file "extern_links_suffix")
  else defaultHost

/-- A configuration is made of the values of the file and the defaults. -/
structure Overrides {δ : Type} (conf : GenConfig δ) (file : Bytes) : Prop where
  daemonPort : conf.daemonPort = givenInt file "daemon_port" 8083
  wordsPerPage : conf.wordsPerPage = givenInt file "words_per_page" 1000
  linksTotal : conf.linksTotal = givenInt file "links_total" 100000
  workerThreads : conf.workerThreads = givenInt file "worker_threads" 1
  externLinksServers : conf.externLinksServers = givenInt file "extern_links_servers" 1
  host : (conf.externLinksPrefix, conf.externLinksSuffix) = givenHost file

/-- A probability of the file, or the zero of a variable that is not set. -/
def givenProbability (D : Doubles) (file : Bytes) (key : String) : D.Double :=
  ((given file key).map D.atof).getD D.zero

/-- `load_config` field by field. -/
theorem loadConfig_eq (D : Doubles) (file : Bytes) :
    loadConfig D file =
      let p := checkedProbability D (givenProbability D file "intern_links_probability")
      let q := givenProbability D file "extern_links_probability"
      let tmp1 := givenStr file "extern_links_prefix"
      let tmp2 := givenStr file "extern_links_suffix"
      let renamed : Bool := tmp1 ≠ [] ∧ tmp2 = []
      { daemonPort := givenInt file "daemon_port" 8083
        wordsPerPage := givenInt file "words_per_page" 1000
        internLinks := D.scaled p
        externLinks := D.scaled q
        internLinksProbability := p
        externLinksProbability := q
        externLinksPrefix := if renamed then tmp1 else defaultHost.1
        externLinksSuffix := if renamed then tmp2 else defaultHost.2
        externLinksServers := givenInt file "extern_links_servers" 1
        linksTotal := givenInt file "links_total" 100000
        workerThreads := givenInt file "worker_threads" 1 } := by
  simp only [loadConfig, configTrySetInt, configTrySetDouble, configTrySetStr_eq, configTrySet_eq,
    entry_touch, Option.map_id, id_eq]
  rfl

/-! ## Exact numbers -/

/-- The conversion of a number to an integer. -/
def truncate (p : ℚ) : ℤ := if 0 ≤ p then ⌊p⌋ else ⌈p⌉

/-- Exact numbers, for a given `atof`. -/
@[reducible]
def rationals (atof : Bytes → ℚ) : Doubles where
  Double := ℚ
  zero := 0
  one := 1
  tenth := 1 / 10
  hundredth := 1 / 100
  le p q := p ≤ q
  lt p q := p < q
  atof := atof
  scaled p := truncate (randMax * p)

/-! ## Overridden defaults -/

theorem host_loadConfig_iff (D : Doubles) (file : Bytes) :
    ((loadConfig D file).externLinksPrefix, (loadConfig D file).externLinksSuffix) =
        givenHost file ↔ givenStr file "extern_links_prefix" = [] ∨
      (givenStr file "extern_links_prefix", givenStr file "extern_links_suffix") = defaultHost := by
  rw [loadConfig_eq]
  by_cases hpre : givenStr file "extern_links_prefix" = []
  · simp [givenHost, hpre]
  by_cases hsuf : givenStr file "extern_links_suffix" = []
  · -- The prefix is taken over, though there is no suffix.
    have hdefault : ([] : Bytes) ≠ bytes ".testbed.local" := by decide
    simp [givenHost, hpre, hsuf, defaultHost, hdefault]
  · -- The host is given, and not taken over.
    simp [givenHost, hpre, hsuf, eq_comm]

/-- The values of the file override the defaults if and only if it gives no prefix for
the host of external links, or the default host. -/
theorem overrides_iff (D : Doubles) (file : Bytes) :
    Overrides (loadConfig D file) file ↔ givenStr file "extern_links_prefix" = [] ∨
      (givenStr file "extern_links_prefix", givenStr file "extern_links_suffix") = defaultHost := by
  constructor
  · intro h
    exact (host_loadConfig_iff D file).mp h.host
  · intro h
    have heq := loadConfig_eq D file
    exact {
      daemonPort := by rw [heq]
      wordsPerPage := by rw [heq]
      linksTotal := by rw [heq]
      workerThreads := by rw [heq]
      externLinksServers := by rw [heq]
      host := (host_loadConfig_iff D file).mpr h }

/-- The host of the file is lost. -/
def hostFile : Bytes :=
  bytes "[generator]\nextern_links_prefix=web\nextern_links_suffix=.example\n"

theorem not_overrides_hostFile :
    givenHost hostFile = (bytes "web\n", bytes ".example\n") ∧
      ((loadConfig (rationals fun _ => 0) hostFile).externLinksPrefix,
        (loadConfig (rationals fun _ => 0) hostFile).externLinksSuffix) = defaultHost ∧
      ¬ Overrides (loadConfig (rationals fun _ => 0) hostFile) hostFile := by
  have hgiven : givenHost hostFile = (bytes "web\n", bytes ".example\n") := by decide +kernel
  have hloaded : ((loadConfig (rationals fun _ => 0) hostFile).externLinksPrefix,
      (loadConfig (rationals fun _ => 0) hostFile).externLinksSuffix) = defaultHost := by
    decide +kernel
  refine ⟨hgiven, hloaded, ?_⟩
  intro h
  have hhost := h.host
  rw [hgiven, hloaded] at hhost
  exact absurd hhost (by decide)

/-! ## Thresholds -/

/-- The seeds for which a draw after `n` others is below a threshold. -/
noncomputable def seedsBelow (n : ℕ) (links : ℤ) : ℕ :=
  {seed | ((myRandR (nextSeed^[n] seed)).1 : ℤ) < links}.ncard

/-- A threshold belongs to a probability: it is the probability cut down to an `int`,
and the draws of `my_rand_r` fall below it for as many seeds as the probability says,
up to the resolution of the draws. -/
structure Realises (p : ℚ) (links : ℤ) : Prop where
  probability : 0 ≤ p ∧ p < 1
  inRange : 0 ≤ links ∧ links ≤ randMax - 1
  truncated : links = truncate (randMax * p)
  share : ∀ n, |(seedsBelow n links : ℚ) / 2 ^ 32 - p| ≤ 1 / 2 ^ 30

theorem seedsBelow_eq {t : ℕ} (ht : t ≤ 2 ^ 31) (n : ℕ) : seedsBelow n t = 2 * t := by
  have hcount : Nat.count (· < t) (2 ^ 31) = t := by
    rcases Nat.exists_eq_add_of_le ht with ⟨rest, hrest⟩
    have hlow : Nat.count (· < t) t = t := Nat.count_iff_forall.mpr fun x hx => hx
    have hhigh : Nat.count (fun x => t + x < t) rest = 0 :=
      Nat.count_iff_forall_not.mpr fun x _ => by omega
    rw [hrest, Nat.count_add, hlow, hhigh, Nat.add_zero]
  have hncard := ncard_myRandR_iterate (· < t) n
  rw [hcount] at hncard
  simpa only [seedsBelow, Nat.cast_lt] using hncard

/-- Every probability below one is realised by its threshold. -/
theorem realises_of_mem {p : ℚ} (hlow : 0 ≤ p) (hhigh : p < 1) :
    Realises p (truncate (randMax * p)) := by
  have hscaled : 0 ≤ (randMax : ℚ) * p := mul_nonneg (Nat.cast_nonneg _) hlow
  have hrandMax : (randMax : ℚ) = 2147483647 := by norm_num [randMax]
  have htruncate : truncate (randMax * p) = ⌊(randMax : ℚ) * p⌋ := if_pos hscaled
  have hnonneg : 0 ≤ ⌊(randMax : ℚ) * p⌋ := Int.floor_nonneg.mpr hscaled
  have hlt : ⌊(randMax : ℚ) * p⌋ < (randMax : ℤ) := by
    rw [Int.floor_lt, Int.cast_natCast, hrandMax]
    linarith
  rcases Int.eq_ofNat_of_zero_le hnonneg with ⟨t, ht⟩
  have hroom : t ≤ 2 ^ 31 := by
    have hle : t < randMax := by rwa [ht, Nat.cast_lt] at hlt
    exact hle.le.trans (by norm_num [randMax])
  have hfloor : (t : ℚ) ≤ (randMax : ℚ) * p ∧ (randMax : ℚ) * p < t + 1 := by
    have hcast : (⌊(randMax : ℚ) * p⌋ : ℚ) = t := by rw [ht, Int.cast_natCast]
    rw [← hcast]
    exact ⟨Int.floor_le _, Int.lt_floor_add_one _⟩
  rw [hrandMax] at hfloor
  refine ⟨⟨hlow, hhigh⟩, ⟨htruncate ▸ hnonneg, ?_⟩, rfl, ?_⟩
  · rw [htruncate]
    exact Int.le_sub_one_of_lt hlt
  · intro n
    rw [htruncate, ht, seedsBelow_eq hroom, Nat.cast_mul, Nat.cast_ofNat, abs_le]
    constructor
    · linarith
    · linarith

/-- Both kinds of links are drawn with the probability of the configuration. -/
structure DrawsLinks (conf : GenConfig ℚ) : Prop where
  internLinks : Realises conf.internLinksProbability conf.internLinks
  externLinks : Realises conf.externLinksProbability conf.externLinks

variable (atof : Bytes → ℚ)

/-- The first of the two checks leaves nothing for the second. -/
theorem checkedProbability_mem (p : ℚ) :
    0 ≤ checkedProbability (rationals atof) p ∧ checkedProbability (rationals atof) p < 1 := by
  by_cases hp : p ≤ 0 ∨ 1 ≤ p
  · have hchecked : checkedProbability (rationals atof) p = (1 / 10 : ℚ) := by
      simp only [checkedProbability, rationals, Bool.or_eq_true, decide_eq_true_eq, hp, if_true]
      exact if_neg (by norm_num)
    rw [hchecked]
    norm_num
  · rcases not_or.mp hp with ⟨hpos, hlt⟩
    have hpos' : 0 < p := not_le.mp hpos
    have hlt' : p < 1 := not_le.mp hlt
    have hsecond : ¬ (p < 0 ∨ 1 ≤ p) := by
      rw [not_or]
      exact ⟨not_lt.mpr hpos'.le, hlt⟩
    have hchecked : checkedProbability (rationals atof) p = p := by
      simp only [checkedProbability, rationals, Bool.or_eq_true, decide_eq_true_eq, hp, if_false]
      exact if_neg hsecond
    rw [hchecked]
    exact ⟨hpos'.le, hlt'⟩

/-- The links are drawn with the probabilities of the configuration if and only if the
one the file gives for external links is a probability below one, or is missing. -/
theorem drawsLinks_iff (file : Bytes) :
    DrawsLinks (loadConfig (rationals atof) file) ↔
      ∀ s, given file "extern_links_probability" = some s → 0 ≤ atof s ∧ atof s < 1 := by
  have hgiven : (loadConfig (rationals atof) file).externLinksProbability =
      givenProbability (rationals atof) file "extern_links_probability" := by rw [loadConfig_eq]
  constructor
  · intro h s hs
    have hmem := h.externLinks.probability
    rw [hgiven, givenProbability, hs] at hmem
    exact hmem
  · intro h
    have hmem : (0 : ℚ) ≤ givenProbability (rationals atof) file "extern_links_probability" ∧
        givenProbability (rationals atof) file "extern_links_probability" < (1 : ℚ) := by
      rw [givenProbability]
      cases hs : given file "extern_links_probability" with
      | none => exact ⟨le_refl 0, zero_lt_one⟩
      | some s => exact h s hs
    have hchecked := checkedProbability_mem atof
      (givenProbability (rationals atof) file "intern_links_probability")
    rw [loadConfig_eq]
    exact ⟨realises_of_mem hchecked.1 hchecked.2, realises_of_mem hmem.1 hmem.2⟩

/-- Three external links for two words. -/
theorem not_drawsLinks_threeHalves :
    ¬ DrawsLinks (loadConfig (rationals fun _ => 3 / 2)
      (bytes "[generator]\nextern_links_probability=1.5\n")) := by
  intro h
  have hstored : (loadConfig (rationals fun _ => 3 / 2)
      (bytes "[generator]\nextern_links_probability=1.5\n")).externLinksProbability = (3 / 2 : ℚ) := by
    decide +kernel
  have hlt := h.externLinks.probability.2
  rw [hstored] at hlt
  norm_num at hlt

end SearchTools.Testbed
