/-
# Cutting endings

What the commands of a stemmer in backward mode do to the part of the word behind
its limit, the zone: a routine is matched by a function on zones that tells whether
it succeeds and what it leaves.
-/

import SearchTools.Library.Coding
import SearchTools.Stemmer2.Among

namespace SearchTools.Stemmer2

open SearchTools.Library SnEnv

variable {front before mid after zone : Bytes} {p2 : ℕ} {z : SnEnv}

/-- The buffer holds the part before the limit, the zone, and one symbol more. -/
structure Holds (front : Bytes) (p2 : ℕ) (zone : Bytes) (z : SnEnv) : Prop where
  p : ∃ junk, z.p = front ++ zone ++ [junk]
  l : z.l = front.length + zone.length
  lb : z.lb = front.length
  I1 : z.I1 = p2

/-- Cutting a slice out of the buffer behind the cursor. -/
theorem replaceS_nil {bra ket : ℕ} (hle : bra ≤ ket) (hket : ket ≤ z.p.length) (hc : z.c ≤ bra) :
    ∃ z', z.replaceS bra ket [] = .ok z' ∧ z'.p = z.p.take bra ++ z.p.drop ket ∧
      z'.l = z.l - (ket - bra) ∧ z'.lb = z.lb ∧ z'.I1 = z.I1 ∧ z'.c = z.c := by
  rw [replaceS, if_pos ⟨hle, hket⟩, List.append_nil, List.length_nil]
  by_cases hzero : ((0 : ℕ) : ℤ) - ((ket : ℤ) - bra) = 0
  · simp only [if_pos hzero]
    exact ⟨_, rfl, rfl, by dsimp only; omega, rfl, rfl, rfl⟩
  · simp only [if_neg hzero]
    refine ⟨_, rfl, rfl, by dsimp only; omega, rfl, rfl, ?_⟩
    dsimp only
    rw [if_neg (by omega), if_neg (by omega)]

namespace Holds

theorem with_c (h : Holds front p2 zone z) (c : ℕ) : Holds front p2 zone { z with c := c } :=
  ⟨h.p, h.l, h.lb, h.I1⟩

theorem with_ket (h : Holds front p2 zone z) (ket : ℕ) :
    Holds front p2 zone { z with ket := ket } := ⟨h.p, h.l, h.lb, h.I1⟩

theorem length_p (h : Holds front p2 zone z) : z.p.length = z.l + 1 := by
  obtain ⟨junk, hp⟩ := h.p
  rw [hp, h.l]
  simp only [List.length_append, List.length_singleton]

/-- The part of the zone that the cursor has before it. -/
theorem before_eq (h : Holds front p2 (before ++ after) z)
    (hc : z.c = front.length + before.length) : z.before = before := by
  obtain ⟨junk, hp⟩ := h.p
  have hsplit : z.p = front ++ (before ++ (after ++ [junk])) := by
    rw [hp]
    simp only [List.append_assoc]
  rw [SnEnv.before, hsplit, hc, h.lb, List.take_length_add_append, List.drop_left,
    List.take_left]

/-- The last symbol before the cursor. -/
theorem symbol_last (h : Holds front p2 zone z) {b : UInt8} (hb : zone.getLast? = some b)
    {i : ℕ} (hi : i = z.l - 1) : z.symbol i = .ok b := by
  subst hi
  obtain ⟨junk, hp⟩ := h.p
  obtain ⟨init, rfl⟩ := List.getLast?_eq_some_iff.mp hb
  apply symbol_eq
  have hindex : z.l - 1 = (front ++ init).length := by
    rw [h.l]
    simp only [List.length_append, List.length_singleton]
    omega
  have hsplit : z.p = (front ++ init) ++ (b :: [junk]) := by
    rw [hp]
    simp only [List.append_assoc, List.singleton_append]
  rw [hindex, hsplit, List.getElem?_append_right (Nat.le_refl _), Nat.sub_self]
  rfl

theorem findAmongB_eq {v : List Among} (hv : IsPlainTable (fun w => w.s.reverse) v)
    (h : Holds front p2 (before ++ after) z) (hc : z.c = front.length + before.length) :
    z.findAmongB v = .ok (z.passBack (longest v (· <:+ before))) := by
  have hlen := h.length_p
  have hl := h.l
  have hlb := h.lb
  rw [List.length_append] at hl
  rw [SnEnv.findAmongB_plain (by omega) (by omega) hv, h.before_eq hc]

/-- `eq_s_b` looks for the string right before the cursor. -/
theorem eqSB_eq (s : Bytes) (h : Holds front p2 (before ++ after) z)
    (hc : z.c = front.length + before.length) :
    z.eqSB s = .ok (if s <:+ before then (true, { z with c := z.c - s.length }) else (false, z)) := by
  rw [eqSB, h.lb, hc]
  by_cases hlen : front.length + before.length < front.length + s.length
  · have hnot : ¬ s <:+ before := fun hs => by
      have := hs.length_le
      omega
    rw [if_pos hlen, if_neg hnot]
  · have hle : s.length ≤ before.length := by omega
    have hblock : z.block (front.length + before.length - s.length) s.length =
        .ok (before.drop (before.length - s.length)) := by
      have hsize := h.length_p
      have hl := h.l
      rw [List.length_append] at hl
      rw [block, if_pos (by omega)]
      have hbefore := h.before_eq hc
      rw [SnEnv.before, h.lb, hc, List.drop_take, Nat.add_sub_cancel_left] at hbefore
      have hdrop := congrArg (List.drop (before.length - s.length)) hbefore
      rw [List.drop_take, List.drop_drop] at hdrop
      rw [show front.length + before.length - s.length =
        front.length + (before.length - s.length) by omega]
      rw [show before.length - (before.length - s.length) = s.length by omega] at hdrop
      rw [hdrop]
    rw [if_neg hlen, hblock, ok_bind]
    by_cases hs : s <:+ before
    · rw [if_pos hs, ← List.suffix_iff_eq_drop.mp hs, if_neg (fun hne => hne rfl)]
      rfl
    · rw [if_neg hs, if_pos fun heq => hs (List.suffix_iff_eq_drop.mpr heq.symm)]
      rfl

/-- Deleting a slice behind the cursor closes the gap. -/
theorem delete_eq (h : Holds front p2 (before ++ mid ++ after) z)
    (hbra : z.bra = front.length + before.length)
    (hket : z.ket = front.length + before.length + mid.length) (hc : z.c ≤ z.bra) :
    ∃ z', delete z = .ok (1, z') ∧ Holds front p2 (before ++ after) z' ∧ z'.c = z.c := by
  obtain ⟨junk, hp⟩ := h.p
  have hsize := h.length_p
  have hl := h.l
  simp only [List.length_append] at hl
  have hp' : z.p.take z.bra ++ [] ++ z.p.drop z.ket = front ++ (before ++ after) ++ [junk] := by
    have hsplit : z.p = (front ++ before) ++ (mid ++ (after ++ [junk])) := by
      rw [hp]
      simp only [List.append_assoc]
    have hlen : z.bra = (front ++ before).length := by rw [hbra, List.length_append]
    rw [hsplit, hket, ← hbra, hlen, List.take_left, List.drop_length_add_append, List.drop_left]
    simp only [List.append_assoc, List.append_nil]
  obtain ⟨z', hreplace, hz', hl', hlb, hI1, hc'⟩ :=
    @replaceS_nil z z.bra z.ket (by omega) (by omega) hc
  have hslice : z.sliceDel = .ok (0, z') := by
    rw [sliceDel, sliceFromS, if_neg (by omega), hreplace]
    rfl
  refine ⟨z', by rw [delete, hslice]; rfl, ⟨⟨junk, by rw [hz', ← hp', List.append_nil]⟩, ?_, ?_, ?_⟩, hc'⟩
  · rw [hl', List.length_append]
    omega
  · rw [hlb, h.lb]
  · rw [hI1, h.I1]

end Holds

/-! ## Routines -/

/-- A rule of a stemming algorithm: whether it applies to a word, and what it leaves. -/
abbrev StemRule (α : Type) := List α → Bool × List α

namespace StemRule

variable {α : Type} {f : StemRule α} {word : List α}

/-- A rule that is passed over when it does not apply. -/
def attempt (f : StemRule α) : StemRule α := fun word => (true, (f word).2)

def orElse (f g : StemRule α) : StemRule α := fun word => if (f word).1 then f word else g (f word).2

theorem orElse_of_true (h : (f word).1 = true) (g : StemRule α) : f.orElse g word = f word := if_pos h

theorem orElse_of_false (h : (f word).1 = false) (g : StemRule α) : f.orElse g word = g (f word).2 :=
  if_neg (Bool.eq_false_iff.mp h)

def andThen (f g : StemRule α) : StemRule α := fun word => if (f word).1 then g (f word).2 else f word

theorem andThen_of_true (h : (f word).1 = true) (g : StemRule α) : f.andThen g word = g (f word).2 :=
  if_pos h

theorem andThen_of_false (h : (f word).1 = false) (g : StemRule α) : f.andThen g word = f word :=
  if_neg (Bool.eq_false_iff.mp h)

/-- What a rule leaves begins the word. -/
def Cuts (f : StemRule α) : Prop := ∀ word, (f word).2 <+: word

variable {g : StemRule α}

theorem Cuts.attempt (hf : f.Cuts) : f.attempt.Cuts := hf

theorem Cuts.orElse (hf : f.Cuts) (hg : g.Cuts) : (f.orElse g).Cuts := by
  intro word
  cases hok : (f word).1 with
  | true => exact orElse_of_true hok g ▸ hf word
  | false => exact orElse_of_false hok g ▸ (hg _).trans (hf word)

theorem Cuts.andThen (hf : f.Cuts) (hg : g.Cuts) : (f.andThen g).Cuts := by
  intro word
  cases hok : (f word).1 with
  | true => exact andThen_of_true hok g ▸ (hg _).trans (hf word)
  | false => exact andThen_of_false hok g ▸ hf word

end StemRule

/-- A routine does to the zone, which is a word in some code, what a rule says. `stays`
tells that it leaves the cursor at the end when it succeeds. -/
def Acts {α : Type} (φ : List α → Bytes) (front : Bytes) (p2 : ℕ) (stays : Bool) (r : Routine)
    (f : StemRule α) : Prop :=
  ∀ word z, Holds front p2 (φ word) z → z.c = z.l →
    ∃ z', r z = .ok (if (f word).1 then 1 else 0, z') ∧ Holds front p2 (φ (f word).2) z' ∧
      (stays → (f word).1 → z'.c = z'.l)

variable {α : Type} {φ : List α → Bytes} {stays : Bool} {r s : Routine} {f g : StemRule α}

theorem Acts.forget (hr : Acts φ front p2 stays r f) : Acts φ front p2 false r f := by
  intro word z h hc
  obtain ⟨z', hz', h', -⟩ := hr word z h hc
  exact ⟨z', hz', h', (absurd · Bool.false_ne_true)⟩

/-- `do` succeeds in any case. -/
theorem Acts.doBackward (hr : Acts φ front p2 stays r f) :
    Acts φ front p2 true (doBackward r) f.attempt := by
  intro word z h hc
  obtain ⟨z', hz', h', -⟩ := hr word z h hc
  refine ⟨{ z' with c := z'.l }, ?_, h'.with_c _, fun _ _ => rfl⟩
  rw [SnEnv.doBackward, hz', ok_bind, hc, Nat.sub_self]
  cases (f word).1 <;> rfl

/-- So does `try`. -/
theorem Acts.tryBackward (hr : Acts φ front p2 stays r f) :
    Acts φ front p2 stays (tryBackward r) f.attempt := by
  intro word z h hc
  obtain ⟨z', hz', h', hstays⟩ := hr word z h hc
  cases hok : (f word).1 with
  | true =>
      refine ⟨z', ?_, h', fun hs _ => hstays hs hok⟩
      rw [SnEnv.tryBackward, hz', hok]
      rfl
  | false =>
      refine ⟨{ z' with c := z'.l }, ?_, h'.with_c _, fun _ _ => rfl⟩
      rw [SnEnv.tryBackward, hz', hok, hc, Nat.sub_self]
      rfl

/-- `or` goes on with what a first command that failed has left. -/
theorem Acts.orBackward (hr : Acts φ front p2 false r f) (hs : Acts φ front p2 false s g) :
    Acts φ front p2 false (orBackward r s) (f.orElse g) := by
  intro word z h hc
  obtain ⟨z', hz', h', -⟩ := hr word z h hc
  cases hok : (f word).1 with
  | true =>
      rw [StemRule.orElse_of_true hok]
      refine ⟨z', ?_, h', (absurd · Bool.false_ne_true)⟩
      rw [SnEnv.orBackward, hz', hok]
      rfl
  | false =>
      obtain ⟨z'', hz'', h'', -⟩ := hs (f word).2 { z' with c := z'.l } (h'.with_c _) rfl
      rw [StemRule.orElse_of_false hok]
      refine ⟨z'', ?_, h'', (absurd · Bool.false_ne_true)⟩
      rw [SnEnv.orBackward, hz', hok, hc, Nat.sub_self]
      exact hz''

/-- A sequence ends at the first command that fails. -/
theorem Acts.andThen (hr : Acts φ front p2 true r f) (hs : Acts φ front p2 stays s g) :
    Acts φ front p2 stays (andThen r s) (f.andThen g) := by
  intro word z h hc
  obtain ⟨z', hz', h', hstays⟩ := hr word z h hc
  cases hok : (f word).1 with
  | true =>
      obtain ⟨z'', hz'', h'', hstays'⟩ := hs (f word).2 z' h' (hstays rfl hok)
      rw [StemRule.andThen_of_true hok]
      refine ⟨z'', ?_, h'', hstays'⟩
      rw [SnEnv.andThen, hz', hok]
      exact hz''
  | false =>
      rw [StemRule.andThen_of_false hok]
      refine ⟨z', ?_, h', fun _ htrue => absurd htrue (Bool.eq_false_iff.mp hok)⟩
      rw [SnEnv.andThen, hz', hok]
      rfl

/-! ## Slices -/

variable {word rest e : List α}

/-- The ending found is the slice of the buffer, with the cursor before it or further to
the left. -/
structure Sliced (φ : List α → Bytes) (front : Bytes) (p2 : ℕ) (rest e : List α) (z : SnEnv) :
    Prop where
  holds : Holds front p2 (φ (rest ++ e)) z
  bra : z.bra = front.length + (φ rest).length
  ket : z.ket = z.l
  c : z.c ≤ z.bra

/-- The slice is deleted. -/
theorem Sliced.delete_eq (hφ : Coding φ) (h : Sliced φ front p2 rest e z) :
    ∃ z', delete z = .ok (1, z') ∧ Holds front p2 (φ rest) z' ∧ z'.c = z.c := by
  have hzone : Holds front p2 (φ rest ++ φ e ++ []) z := by
    rw [List.append_nil, ← hφ.append]
    exact h.holds
  have hl := h.holds.l
  rw [hφ.append, List.length_append] at hl
  have hdelete := hzone.delete_eq h.bra (by rw [h.ket, hl, Nat.add_assoc]) h.c
  rwa [List.append_nil] at hdelete

/-! ## Lookups -/

variable {v : List Among} {V : List (List α × ℤ)}

/-- The strings of a table are the codes of the endings in a list. -/
def Codes (φ : List α → Bytes) (v : List Among) (V : List (List α × ℤ)) : Prop :=
  v.map (fun w => (w.s, w.result)) = V.map fun e => (φ e.1, e.2)

/-- What holds of the results of a table holds of the groups of its endings. -/
theorem Codes.forall_group (hV : Codes φ v V) {P : ℤ → Prop} (h : ∀ w ∈ v, P w.result) :
    ∀ e ∈ V, P e.2 := by
  intro e he
  have hmem := List.mem_map_of_mem (f := fun e => (φ e.1, e.2)) he
  rw [← hV] at hmem
  obtain ⟨w, hw, heq⟩ := List.mem_map.mp hmem
  exact (Prod.mk.inj heq).2 ▸ h w hw

section Lookups

variable [DecidableEq α]

/-- What a rule does to a word with one of the endings: the rest of the word and the
ending decide. -/
def atEnding (V : List (List α × ℤ)) (f : List α → List α × ℤ → Bool × List α) : StemRule α :=
  fun word =>
    match ending V word with
    | some e => f (word.take (word.length - e.1.length)) e
    | none => (false, word)

theorem StemRule.cuts_atEnding {f : List α → List α × ℤ → Bool × List α}
    (hf : ∀ rest e, (f rest e).2 <+: rest ++ e.1) : (atEnding V f).Cuts := by
  intro word
  rw [atEnding]
  cases hending : ending V word with
  | none => exact List.prefix_refl _
  | some e =>
      obtain ⟨-, rest, rfl⟩ := ending_some hending
      simpa using hf rest e

theorem longest_coded (hφ : Coding φ) (hV : Codes φ v V) (word : List α) :
    (longest v (· <:+ φ word)).map (fun w => (w.s, w.result)) =
      (ending V word).map fun e => (φ e.1, e.2) := by
  rw [← ending_map hφ, ← hV, ending, List.find?_map, longest]
  refine congrArg (fun test => (v.find? test).map fun w => (w.s, w.result)) (funext fun w => ?_)
  simp only [Function.comp_apply, isEnding, List.all_map]
  rfl

/-- The lookup slices off the longest ending. -/
theorem substring_eq (hφ : Coding φ) (hv : IsPlainTable (fun w => w.s.reverse) v) (hV : Codes φ v V)
    (hnonzero : ∀ w ∈ v, w.result ≠ 0) (next : ℤ → Routine) (h : Holds front p2 (φ word) z)
    (hc : z.c = z.l) :
    (ending V word = none ∧ substring v next z = .ok (0, { z with ket := z.c })) ∨
    ∃ e ∈ ending V word, ∃ rest z', word = rest ++ e.1 ∧ substring v next z = next e.2 z' ∧
      Sliced φ front p2 rest e.1 z' ∧ z'.c = z'.bra := by
  have hzone : Holds front p2 (φ word ++ []) { z with ket := z.c } := by
    rw [List.append_nil]
    exact h.with_ket _
  have hfind := hzone.findAmongB_eq hv (hc.trans h.l)
  have hcoded := longest_coded hφ hV word
  cases hending : ending V word with
  | none =>
      rw [hending, Option.map_none, Option.map_eq_none_iff] at hcoded
      refine Or.inl ⟨rfl, ?_⟩
      rw [substring, hfind, hcoded]
      rfl
  | some e =>
      obtain ⟨w, hw, hwe⟩ := Option.map_eq_some_iff.mp (hcoded.trans (congrArg _ hending))
      obtain ⟨hs, hresult⟩ := Prod.mk.inj hwe
      obtain ⟨hmem, rest, rfl⟩ := ending_some hending
      have hl := h.l
      rw [hφ.append, List.length_append] at hl
      refine Or.inr ⟨e, rfl, rest,
        { z with ket := z.c, c := z.c - w.s.length, bra := z.c - w.s.length }, rfl, ?_, ?_, rfl⟩
      · rw [substring, hfind, hw, ok_bind]
        exact (if_neg (hnonzero w (longest_fits hw).1)).trans (congrArg (next · _) hresult)
      · refine ⟨⟨h.p, h.l, h.lb, h.I1⟩, ?_, hc, Nat.le_refl _⟩
        rw [hs, hc, hl]
        dsimp only
        omega

/-- A rule of a table acts as its cases do. -/
theorem Acts.substring (hφ : Coding φ) (hv : IsPlainTable (fun w => w.s.reverse) v) (hV : Codes φ v V)
    (hnonzero : ∀ w ∈ v, w.result ≠ 0) {next : ℤ → Routine} {f : List α → List α × ℤ → Bool × List α}
    (hnext : ∀ e ∈ V, ∀ rest z, Sliced φ front p2 rest e.1 z → z.c = z.bra →
      ∃ z', next e.2 z = .ok (if (f rest e).1 then 1 else 0, z') ∧
        Holds front p2 (φ (f rest e).2) z' ∧ (stays → (f rest e).1 → z'.c = z'.l)) :
    Acts φ front p2 stays (substring v next) (atEnding V f) := by
  intro word z h hc
  rcases substring_eq hφ hv hV hnonzero next h hc with
    ⟨hnone, hrun⟩ | ⟨e, he, rest, z', rfl, hrun, hsliced, hc'⟩
  · have hrule : atEnding V f word = (false, word) := by rw [atEnding, hnone]
    rw [hrun, hrule]
    exact ⟨_, rfl, h.with_ket _, fun _ => (absurd · Bool.false_ne_true)⟩
  · obtain ⟨z'', hz'', h'', hstays⟩ := hnext e (ending_some he).1 rest z' hsliced hc'
    have hrule : atEnding V f (rest ++ e.1) = f rest e := by
      rw [atEnding, Option.mem_def.mp he]
      simp
    rw [hrun, hrule]
    exact ⟨z'', hz'', h'', hstays⟩

/-- The look at the last symbol changes nothing. -/
theorem Acts.precheck {n : ℕ} {lasts : List UInt8} {next : ℤ → Routine}
    {f : List α → List α × ℤ → Bool × List α} (hφ : Coding φ) (hV : Codes φ v V)
    (hlasts : ∀ w ∈ v, n < w.s.length ∧ ∃ b ∈ lasts, w.s.getLast? = some b)
    (hacts : Acts φ front p2 stays (SnEnv.substring v next) (atEnding V f)) :
    Acts φ front p2 stays (precheck n lasts (SnEnv.substring v next)) (atEnding V f) := by
  intro word z h hc
  have hnone : (∀ w ∈ v, ¬ w.s <:+ φ word) → atEnding V f word = (false, word) := by
    intro hfits
    have hcoded := longest_coded hφ hV word
    have hlongest : longest v (· <:+ φ word) = none := by
      rw [longest, List.find?_eq_none]
      intro w hw
      simp [hfits w hw]
    rw [hlongest, Option.map_none, eq_comm, Option.map_eq_none_iff] at hcoded
    rw [atEnding, hcoded]
  have hl := h.l
  have hlb := h.lb
  rw [SnEnv.precheck]
  dsimp only
  by_cases hshort : z.c ≤ z.lb + n
  · rw [if_pos hshort, hnone fun w hw hfits => by
      have := (hlasts w hw).1
      have := hfits.length_le
      omega]
    exact ⟨_, rfl, h.with_ket _, fun _ => (absurd · Bool.false_ne_true)⟩
  rw [if_neg hshort]
  cases hlast : (φ word).getLast? with
  | none =>
      rw [List.getLast?_eq_none_iff.mp hlast, List.length_nil] at hl
      omega
  | some b =>
      rw [(h.with_ket z.c).symbol_last hlast (congrArg (· - 1) hc), ok_bind]
      by_cases hb : b ∉ lasts
      · rw [if_pos hb, hnone fun w hw hfits => by
          obtain ⟨-, b', hb', hlast'⟩ := hlasts w hw
          obtain ⟨pre, hpre⟩ := hfits
          rw [← hpre, List.getLast?_append, hlast'] at hlast
          exact hb (Option.some.inj hlast ▸ hb')]
        exact ⟨_, rfl, h.with_ket _, fun _ => (absurd · Bool.false_ne_true)⟩
      · rw [if_neg hb]
        exact hacts word _ (h.with_ket _) hc

namespace Sliced

/-- A literal is looked for right before the slice, and the cursor moves if it is there. -/
theorem literal_eq (hφ : Coding φ) (h : Sliced φ front p2 rest e z) (hc : z.c = z.bra)
    (a : List α) :
    ∃ z', literal (φ a) z = .ok (if a <:+ rest then 1 else 0, z') ∧ Sliced φ front p2 rest e z' ∧
      (¬ a <:+ rest → z' = z) := by
  have hzone : Holds front p2 (φ rest ++ φ e) z := hφ.append rest e ▸ h.holds
  have heq := hzone.eqSB_eq (φ a) (hc.trans h.bra)
  rw [literal, heq]
  by_cases ha : a <:+ rest
  · rw [if_pos (hφ.suffix_iff.mpr ha), if_pos ha]
    refine ⟨{ z with c := z.c - (φ a).length }, rfl, ⟨h.holds.with_c _, h.bra, h.ket, ?_⟩,
      fun hnot => absurd ha hnot⟩
    have := h.c
    dsimp only
    omega
  · rw [if_neg (fun hs => ha (hφ.suffix_iff.mp hs)), if_neg ha]
    exact ⟨z, rfl, h, fun _ => rfl⟩

/-- An ending deleted only behind a literal. -/
theorem literal_delete (hφ : Coding φ) (h : Sliced φ front p2 rest e z) (hc : z.c = z.bra)
    (a : List α) :
    ∃ z', andThen (literal (φ a)) delete z = .ok (if a <:+ rest then 1 else 0, z') ∧
      Holds front p2 (φ (if a <:+ rest then rest else rest ++ e)) z' := by
  obtain ⟨z', hliteral, h', hsame⟩ := h.literal_eq hφ hc a
  rw [andThen, hliteral, ok_bind]
  by_cases ha : a <:+ rest
  · obtain ⟨z'', hdelete, h'', -⟩ := h'.delete_eq hφ
    rw [if_pos ha, if_pos ha]
    exact ⟨z'', hdelete, h''⟩
  · rw [if_neg ha, if_neg ha]
    exact ⟨z', rfl, h'.holds⟩

/-- An ending deleted only behind one of two literals. -/
theorem literals_delete (hφ : Coding φ) (h : Sliced φ front p2 rest e z) (hc : z.c = z.bra)
    (a b : List α) :
    ∃ z', andThen (orBackward (literal (φ a)) (literal (φ b))) delete z =
        .ok (if a <:+ rest ∨ b <:+ rest then 1 else 0, z') ∧
      Holds front p2 (φ (if a <:+ rest ∨ b <:+ rest then rest else rest ++ e)) z' := by
  obtain ⟨z', hliteral, h', hsame⟩ := h.literal_eq hφ hc a
  by_cases ha : a <:+ rest
  · obtain ⟨z'', hdelete, h'', -⟩ := h'.delete_eq hφ
    have hor : orBackward (literal (φ a)) (literal (φ b)) z = .ok (1, z') := by
      rw [orBackward, hliteral, if_pos ha]
      rfl
    rw [andThen, hor, if_pos (Or.inl ha), if_pos (Or.inl ha)]
    exact ⟨z'', hdelete, h''⟩
  · -- The cursor goes back to where the first literal was looked for.
    have hor : orBackward (literal (φ a)) (literal (φ b)) z = literal (φ b) z := by
      have hcl : z.l - (z.l - z.c) = z.c := by
        have := h.c
        have := h.bra
        have := h.holds.l
        rw [hφ.append, List.length_append] at this
        omega
      rw [orBackward, hliteral, if_neg ha, hsame ha, ok_bind]
      simp only [hcl]
      rfl
    have hand : andThen (orBackward (literal (φ a)) (literal (φ b))) delete z =
        andThen (literal (φ b)) delete z := by
      rw [andThen, andThen, hor]
    simp only [hand, ha, false_or]
    exact h.literal_delete hφ hc b

end Sliced

/-- A literal at the end as the slice. -/
theorem bracket_eq (hφ : Coding φ) (a : List α) (next : Routine) (h : Holds front p2 (φ word) z)
    (hc : z.c = z.l) :
    (¬ a <:+ word ∧
      andThen (literal (φ a)) (fun z => next { z with bra := z.c }) { z with ket := z.c } =
        .ok (0, { z with ket := z.c })) ∨
    ∃ rest z', word = rest ++ a ∧
      andThen (literal (φ a)) (fun z => next { z with bra := z.c }) { z with ket := z.c } = next z' ∧
      Sliced φ front p2 rest a z' ∧ z'.c = z'.bra := by
  have hzone : Holds front p2 (φ word ++ []) { z with ket := z.c } := by
    rw [List.append_nil]
    exact h.with_ket _
  have heq := hzone.eqSB_eq (φ a) (hc.trans h.l)
  by_cases ha : a <:+ word
  · rw [if_pos (hφ.suffix_iff.mpr ha)] at heq
    obtain ⟨rest, rfl⟩ := ha
    have hl := h.l
    rw [hφ.append, List.length_append] at hl
    refine Or.inr ⟨rest,
      { z with ket := z.c, c := z.c - (φ a).length, bra := z.c - (φ a).length }, rfl, ?_,
      ⟨⟨h.p, h.l, h.lb, h.I1⟩, ?_, hc, Nat.le_refl _⟩, rfl⟩
    · rw [andThen, literal, heq]
      rfl
    · dsimp only
      omega
  · rw [if_neg (fun hs => ha (hφ.suffix_iff.mp hs))] at heq
    refine Or.inl ⟨ha, ?_⟩
    rw [andThen, literal, heq]
    rfl

end Lookups

end SearchTools.Stemmer2
