/-
# Lexers by longest match

A lexer of `flex` is a list of rules. At every position the rule with the longest
match is taken, the earliest one among equals; a byte that no rule matches is
echoed by the default rule.
-/

import Mathlib.Data.List.TakeWhile
import SearchTools.Library.Memory

namespace SearchTools.Library

/-- A pattern: one or more bytes of a class, or a literal. -/
inductive Pattern
  | many (cls : UInt8 → Bool)
  | lit (text : Bytes)

/-- The strings of a pattern. -/
def Pattern.Matches : Pattern → Bytes → Prop
  | .many cls, s => s ≠ [] ∧ ∀ b ∈ s, cls b
  | .lit text, s => s = text

/-- How much of the beginning of a string a pattern takes, 0 when nothing. -/
def Pattern.munch : Pattern → Bytes → ℕ
  | .many cls, s => (s.takeWhile cls).length
  | .lit text, s => if text.isPrefixOf s then text.length else 0

theorem Pattern.matches_take_munch {p : Pattern} {s : Bytes} (h : 0 < p.munch s) :
    p.munch s ≤ s.length ∧ p.Matches (s.take (p.munch s)) := by
  cases p with
  | many cls =>
      have hpre : s.takeWhile cls <+: s := List.takeWhile_prefix cls
      have htake : s.take (s.takeWhile cls).length = s.takeWhile cls :=
        (List.prefix_iff_eq_take.mp hpre).symm
      refine ⟨hpre.length_le, ?_⟩
      rw [munch, htake]
      exact ⟨List.length_pos_iff.mp h, fun b hb => List.mem_takeWhile_imp hb⟩
  | lit text =>
      rw [munch] at h ⊢
      split at h
      · next hpre =>
          have hpre' : text <+: s := List.isPrefixOf_iff_prefix.mp hpre
          rw [if_pos hpre]
          exact ⟨hpre'.length_le, (List.prefix_iff_eq_take.mp hpre').symm⟩
      · exact absurd h (Nat.not_lt_zero 0)

/-- No match is longer. -/
theorem Pattern.length_le_munch {p : Pattern} {s t : Bytes} (ht : t <+: s) (h : p.Matches t) :
    t.length ≤ p.munch s := by
  cases p with
  | many cls =>
      obtain ⟨rest, rfl⟩ := ht
      rw [munch, List.takeWhile_append_of_pos h.2, List.length_append]
      exact Nat.le_add_right _ _
  | lit text =>
      obtain rfl : t = text := h
      rw [munch, if_pos (List.isPrefixOf_iff_prefix.mpr ht)]

/-- Every match has the given length at most when the longest one has. -/
theorem Pattern.munch_le {p : Pattern} {s : Bytes} {n : ℕ}
    (h : ∀ u, u <+: s → p.Matches u → u.length ≤ n) : p.munch s ≤ n := by
  rcases Nat.eq_zero_or_pos (p.munch s) with hzero | hpos
  · exact hzero ▸ Nat.zero_le n
  · obtain ⟨hlength, hmatch⟩ := matches_take_munch hpos
    have hle := h _ (List.take_prefix _ _) hmatch
    rwa [List.length_take_of_le hlength] at hle

/-- A run of a class is taken whole if no byte of the class follows. -/
theorem Pattern.munch_many_append {cls : UInt8 → Bool} {t s : Bytes} (ht : ∀ b ∈ t, cls b)
    (hs : ∀ b ∈ s.head?, cls b = false) : (Pattern.many cls).munch (t ++ s) = t.length := by
  rw [munch, List.takeWhile_append_of_pos ht, List.length_append]
  cases s with
  | nil => rfl
  | cons b s =>
      rw [List.takeWhile_cons_of_neg (ne_true_of_eq_false (hs b rfl))]
      rfl

/-- A run of a class stops before the first byte outside it. -/
theorem Pattern.munch_many_lt {cls : UInt8 → Bool} {t : Bytes} (ht : ¬ ∀ b ∈ t, cls b) (s : Bytes) :
    (Pattern.many cls).munch (t ++ s) < t.length := by
  have hle : (t.takeWhile cls).length ≤ t.length := (List.takeWhile_sublist cls).length_le
  have hne : (t.takeWhile cls).length ≠ t.length := by
    intro heq
    apply ht
    rw [← List.takeWhile_eq_self_iff]
    exact (List.takeWhile_sublist cls).eq_of_length heq
  rw [munch, List.takeWhile_append, if_neg hne]
  exact Nat.lt_of_le_of_ne hle hne

theorem Pattern.munch_many_cons {cls : UInt8 → Bool} {b : UInt8} (hb : cls b = false) (s : Bytes) :
    (Pattern.many cls).munch (b :: s) = 0 := by
  rw [munch, List.takeWhile_cons_of_neg (ne_true_of_eq_false hb)]
  rfl

/-! ## The choice of a rule -/

structure Rule (τ : Type*) where
  pattern : Pattern
  token : τ

section Rules

variable {τ : Type*}

/-- The token of the rule taken at the beginning of a string, and how long its
match is. -/
def select : List (Rule τ) → Bytes → Option (τ × ℕ)
  | [], _ => none
  | r :: rules, s =>
      match select rules s with
      | some (t, n) =>
          if r.pattern.munch s < n then some (t, n) else some (r.token, r.pattern.munch s)
      | none => if r.pattern.munch s = 0 then none else some (r.token, r.pattern.munch s)

/-- The longest match, by the earliest rule that has one of that length. -/
def Selects (rules : List (Rule τ)) (s : Bytes) (t : τ) (n : ℕ) : Prop :=
  0 < n ∧ n ≤ s.length ∧ ∃ earlier r later, rules = earlier ++ r :: later ∧ r.token = t ∧
    r.pattern.Matches (s.take n) ∧
    (∀ r' ∈ earlier, ∀ u, u <+: s → r'.pattern.Matches u → u.length < n) ∧
    ∀ r' ∈ r :: later, ∀ u, u <+: s → r'.pattern.Matches u → u.length ≤ n

theorem select_eq_none_iff {rules : List (Rule τ)} {s : Bytes} :
    select rules s = none ↔ ∀ r ∈ rules, r.pattern.munch s = 0 := by
  induction rules with
  | nil => simp [select]
  | cons r rules ih =>
      rw [List.forall_mem_cons, ← ih, select]
      cases hrest : select rules s with
      | none => simp
      | some found =>
          obtain ⟨t, n⟩ := found
          dsimp only
          split <;> simp

theorem select_eq_some {rules : List (Rule τ)} {s : Bytes} {t : τ} {n : ℕ}
    (h : select rules s = some (t, n)) :
    0 < n ∧ ∃ earlier r later, rules = earlier ++ r :: later ∧ r.token = t ∧
      r.pattern.munch s = n ∧ (∀ r' ∈ earlier, r'.pattern.munch s < n) ∧
      ∀ r' ∈ later, r'.pattern.munch s ≤ n := by
  induction rules generalizing t n with
  | nil => cases h
  | cons r rules ih =>
      rw [select] at h
      cases hrest : select rules s with
      | none =>
          have hnone := select_eq_none_iff.mp hrest
          simp only [hrest] at h
          split at h
          · cases h
          · next hpos =>
              obtain ⟨rfl, rfl⟩ := Prod.mk.inj (Option.some.inj h)
              refine ⟨Nat.pos_of_ne_zero hpos, [], r, rules, rfl, rfl, rfl, nofun, ?_⟩
              exact fun r' hr' => by simp [hnone r' hr']
      | some found =>
          obtain ⟨t', n'⟩ := found
          obtain ⟨hpos, earlier, r', later, rfl, rfl, hmunch, hearlier, hlater⟩ := ih hrest
          simp only [hrest] at h
          split at h
          · next hlt =>
              obtain ⟨rfl, rfl⟩ := Prod.mk.inj (Option.some.inj h)
              exact ⟨hpos, r :: earlier, r', later, rfl, rfl, hmunch,
                List.forall_mem_cons.mpr ⟨hlt, hearlier⟩, hlater⟩
          · next hge =>
              obtain ⟨rfl, rfl⟩ := Prod.mk.inj (Option.some.inj h)
              refine ⟨by omega, [], r, earlier ++ r' :: later, rfl, rfl, rfl, nofun, ?_⟩
              intro r'' hr''
              rcases List.mem_append.mp hr'' with hmem | hmem
              · have := hearlier r'' hmem
                omega
              · rcases List.mem_cons.mp hmem with rfl | hmem
                · omega
                · have := hlater r'' hmem
                  omega

theorem selects_of_select {rules : List (Rule τ)} {s : Bytes} {t : τ} {n : ℕ}
    (h : select rules s = some (t, n)) : Selects rules s t n := by
  obtain ⟨hpos, earlier, r, later, hrules, htoken, rfl, hearlier, hlater⟩ := select_eq_some h
  obtain ⟨hlength, hmatch⟩ := Pattern.matches_take_munch hpos
  refine ⟨hpos, hlength, earlier, r, later, hrules, htoken, hmatch, ?_, ?_⟩
  · intro r' hr' u hu hmatch'
    exact Nat.lt_of_le_of_lt (Pattern.length_le_munch hu hmatch') (hearlier r' hr')
  · intro r' hr' u hu hmatch'
    refine Nat.le_trans (Pattern.length_le_munch hu hmatch') ?_
    rcases List.mem_cons.mp hr' with rfl | hmem
    · exact Nat.le_refl _
    · exact hlater r' hmem

theorem select_of_munch {rules earlier later : List (Rule τ)} {r : Rule τ} {s : Bytes}
    (hrules : rules = earlier ++ r :: later) (hpos : 0 < r.pattern.munch s)
    (hearlier : ∀ r' ∈ earlier, r'.pattern.munch s < r.pattern.munch s)
    (hlater : ∀ r' ∈ later, r'.pattern.munch s ≤ r.pattern.munch s) :
    select rules s = some (r.token, r.pattern.munch s) := by
  subst hrules
  induction earlier with
  | nil =>
      rw [List.nil_append, select]
      cases hrest : select later s with
      | none => exact if_neg (Nat.pos_iff_ne_zero.mp hpos)
      | some found =>
          obtain ⟨t, n⟩ := found
          obtain ⟨-, before, r', after, rfl, -, rfl, -⟩ := select_eq_some hrest
          have hle := hlater r' (List.mem_append_right _ List.mem_cons_self)
          exact if_neg (Nat.not_lt.mpr hle)
  | cons r' earlier ih =>
      obtain ⟨hlt, hearlier⟩ := List.forall_mem_cons.mp hearlier
      rw [List.cons_append, select, ih hearlier]
      exact if_pos hlt

/-- The rules are chosen as declared. -/
theorem select_eq_some_iff {rules : List (Rule τ)} {s : Bytes} {t : τ} {n : ℕ} :
    select rules s = some (t, n) ↔ Selects rules s t n := by
  refine ⟨selects_of_select, ?_⟩
  rintro ⟨hpos, hlength, earlier, r, later, hrules, rfl, hmatch, hearlier, hlater⟩
  have hn : r.pattern.munch s = n := by
    apply Nat.le_antisymm
    · exact Pattern.munch_le (hlater r List.mem_cons_self)
    · have hle := Pattern.length_le_munch (List.take_prefix n s) hmatch
      rwa [List.length_take_of_le hlength] at hle
  subst hn
  apply select_of_munch hrules hpos
  · intro r' hr'
    refine Nat.lt_of_le_of_lt (Pattern.munch_le fun u hu hu' => ?_) (Nat.sub_one_lt_of_lt hpos)
    exact Nat.le_sub_one_of_lt (hearlier r' hr' u hu hu')
  · exact fun r' hr' => Pattern.munch_le (hlater r' (List.mem_cons_of_mem _ hr'))

/-! ## Lexing a whole string -/

/-- A token with its text, or a byte that the default rule echoes. -/
inductive Piece (τ : Type*)
  | token (t : τ) (text : Bytes)
  | echo (b : UInt8)

def Piece.text : Piece τ → Bytes
  | token _ text => text
  | echo b => [b]

/-- The pieces of a string, from the left. -/
inductive Lexes (rules : List (Rule τ)) : Bytes → List (Piece τ) → Prop
  | nil : Lexes rules [] []
  | token {s t n pieces} : Selects rules s t n → Lexes rules (s.drop n) pieces →
      Lexes rules s (.token t (s.take n) :: pieces)
  | echo {b s pieces} : (∀ t n, ¬ Selects rules (b :: s) t n) → Lexes rules s pieces →
      Lexes rules (b :: s) (.echo b :: pieces)

variable {rules : List (Rule τ)}

/-- Every string has pieces. -/
theorem exists_lexes (rules : List (Rule τ)) (s : Bytes) : ∃ pieces, Lexes rules s pieces := by
  induction hlength : s.length using Nat.strong_induction_on generalizing s with
  | _ length ih =>
      match s with
      | [] => exact ⟨[], .nil⟩
      | b :: s =>
          cases hsel : select rules (b :: s) with
          | some found =>
              obtain ⟨t, n⟩ := found
              have hselects := selects_of_select hsel
              have hpos := hselects.1
              have hshorter : ((b :: s).drop n).length < length := by
                rw [List.length_drop, hlength]
                rw [List.length_cons] at hlength
                omega
              obtain ⟨pieces, hpieces⟩ := ih _ hshorter _ rfl
              exact ⟨_, .token hselects hpieces⟩
          | none =>
              have hshorter : s.length < length := by
                rw [List.length_cons] at hlength
                omega
              obtain ⟨pieces, hpieces⟩ := ih _ hshorter _ rfl
              refine ⟨_, .echo (fun t n hselects => ?_) hpieces⟩
              rw [select_eq_some_iff.mpr hselects] at hsel
              cases hsel

/-- Nothing is lost, duplicated or moved. -/
theorem Lexes.flatMap_text {s : Bytes} {pieces : List (Piece τ)} (h : Lexes rules s pieces) :
    pieces.flatMap Piece.text = s := by
  induction h with
  | nil => rfl
  | token _ _ ih => rw [List.flatMap_cons, ih, Piece.text, List.take_append_drop]
  | echo _ _ ih =>
      rw [List.flatMap_cons, ih]
      rfl

/-- No token is empty. -/
theorem Lexes.text_ne_nil {s : Bytes} {pieces : List (Piece τ)} (h : Lexes rules s pieces)
    {t : τ} {text : Bytes} (hmem : .token t text ∈ pieces) : text ≠ [] := by
  induction h with
  | nil => cases hmem
  | token hsel _ ih =>
      rcases List.mem_cons.mp hmem with heq | hmem
      · obtain ⟨rfl, rfl⟩ := Piece.token.inj heq
        have hpos := hsel.1
        have hle := hsel.2.1
        exact List.ne_nil_of_length_pos (by rwa [List.length_take_of_le hle])
      · exact ih hmem
  | echo _ _ ih =>
      rcases List.mem_cons.mp hmem with heq | hmem
      · cases heq
      · exact ih hmem

/-- A string has its pieces in one way only. -/
theorem Lexes.unique {s : Bytes} {pieces pieces' : List (Piece τ)} (h : Lexes rules s pieces)
    (h' : Lexes rules s pieces') : pieces = pieces' := by
  induction h generalizing pieces' with
  | nil =>
      cases h' with
      | nil => rfl
      | token hsel _ => exact absurd hsel.2.1 (Nat.not_le.mpr hsel.1)
  | token hsel _ ih =>
      cases h' with
      | nil => exact absurd hsel.2.1 (Nat.not_le.mpr hsel.1)
      | token hsel' hrest =>
          have heq := (select_eq_some_iff.mpr hsel).symm.trans (select_eq_some_iff.mpr hsel')
          obtain ⟨rfl, rfl⟩ := Prod.mk.inj (Option.some.inj heq)
          rw [ih hrest]
      | echo hnone _ => exact absurd hsel (hnone _ _)
  | echo hnone _ ih =>
      cases h' with
      | token hsel _ => exact absurd hsel (hnone _ _)
      | echo _ hrest => rw [ih hrest]

/-- One call of `yylex`: the bytes echoed before the token, and the token with its
text and the rest of the input, or nothing at the end of the input. -/
def yylex (rules : List (Rule τ)) : Bytes → Bytes × Option (τ × Bytes × Bytes)
  | [] => ([], none)
  | b :: s =>
      match select rules (b :: s) with
      | some (t, n) => ([], some (t, (b :: s).take n, (b :: s).drop n))
      | none => (b :: (yylex rules s).1, (yylex rules s).2)

/-- A call of `yylex` reads the first pieces: some echoed bytes, and a token. -/
theorem yylex_spec (s : Bytes) :
    match (yylex rules s).2 with
    | none => Lexes rules s ((yylex rules s).1.map .echo)
    | some (t, text, rest) => s = (yylex rules s).1 ++ (text ++ rest) ∧ text ≠ [] ∧
        ∀ pieces, Lexes rules rest pieces →
          Lexes rules s ((yylex rules s).1.map .echo ++ .token t text :: pieces) := by
  induction s with
  | nil => exact .nil
  | cons b s ih =>
      rw [yylex]
      cases hsel : select rules (b :: s) with
      | some found =>
          obtain ⟨t, n⟩ := found
          have hselects := selects_of_select hsel
          have hpos := hselects.1
          refine ⟨(List.take_append_drop n (b :: s)).symm, ?_,
            fun pieces hpieces => .token hselects hpieces⟩
          exact List.ne_nil_of_length_pos (by rw [List.length_take, List.length_cons]; omega)
      | none =>
          have hnone : ∀ t n, ¬ Selects rules (b :: s) t n := by
            intro t n hselects
            rw [select_eq_some_iff.mpr hselects] at hsel
            cases hsel
          dsimp only
          cases hrest : (yylex rules s).2 with
          | none =>
              rw [hrest] at ih
              exact .echo hnone ih
          | some found =>
              obtain ⟨t, text, rest⟩ := found
              rw [hrest] at ih
              obtain ⟨hs, hne, hpieces⟩ := ih
              exact ⟨congrArg (b :: ·) hs, hne, fun pieces h => .echo hnone (hpieces pieces h)⟩

end Rules

end SearchTools.Library
