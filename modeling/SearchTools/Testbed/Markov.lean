/-
# The Markov table of the page generator

The state table of `markov.c`: hashing, `lookup`, `addsuffix`, `add`,
`build_markov` and `init_file`. A word is a C string without its terminating
NUL, and `build_markov` receives the words that `fscanf` yields. A `State *` is
the number of its allocation; states are never freed, so a chain of `next`
pointers is the list of the states it visits.
-/

import Mathlib.Algebra.Group.Nat.Defs
import SearchTools.Library.Followers
import SearchTools.Library.Memory
import SearchTools.Library.Tables

namespace SearchTools.Testbed

open SearchTools.Library

abbrev Word := Bytes

/-- `const char *prefix[NPREF]` with `NPREF = 2`. -/
abbrev Prefix := Word × Word

/-- `"\n"`, which cannot appear as a real word. -/
def nonword : Word := [10]

def nhash : ℕ := 40930

/-! ## Hashing -/

/-- One step of `hash_`, in a 64-bit `unsigned long`. -/
def hashStep_ (mult h c : ℕ) : ℕ := (mult * h + c) % 2 ^ 64

def hashWord_ (mult h : ℕ) (s : Word) : ℕ :=
  hashStep_ mult (s.foldl (fun h c => hashStep_ mult h c.toNat) h) 1

/-- `hash_`: the polynomial hash of the ideal table. -/
def hash_ (s : Prefix) (size mult : ℕ) : ℕ :=
  hashWord_ mult (hashWord_ mult 0 s.1) s.2 % size

/-- One step of `hash`, in a 64-bit `unsigned long`. -/
def hashStep (h c : ℕ) : ℕ := ((h <<< 5) + h + c) % 2 ^ 64

def hashWord (h : ℕ) (s : Word) : ℕ :=
  hashStep (s.foldl (fun h c => hashStep h c.toNat) h) 1

/-- `hash`: the bucket of a prefix. -/
def hash (s : Prefix) : ℕ :=
  hashWord (hashWord 5381 s.1) s.2 % nhash

theorem hash_lt (s : Prefix) : hash s < nhash := Nat.mod_lt _ (by decide)

/-! ## The table -/

abbrev StatePtr := ℕ

structure State where
  pref : Prefix
  suf : List Word
  deriving DecidableEq, Repr

/-- `TextState` together with the states it owns: `malloc` hands out `brk`
next, and `statetab h` lists the chain of bucket `h` from its head. -/
structure TextState where
  heap : StatePtr → State
  brk : StatePtr
  statetab : ℕ → List StatePtr

/-- A table of the zero-initialised global `text_state`. -/
def TextState.empty : TextState where
  heap _ := ⟨([], []), []⟩
  brk := 0
  statetab _ := []

namespace TextState

variable (t : TextState)

/-- `malloc` a state for an absent prefix and push it on its chain. -/
def create (pref : Prefix) : TextState where
  heap := Function.update t.heap t.brk ⟨pref, []⟩
  brk := t.brk + 1
  statetab := Function.update t.statetab (hash pref) (t.brk :: t.statetab (hash pref))

/-- The loop of `lookup`: walk the chain, comparing both words by `strcmp`. -/
def search (pref : Prefix) : Option StatePtr :=
  (t.statetab (hash pref)).find? fun sp => (t.heap sp).pref = pref

/-- `addsuffix`: push a word on the suffix list of a state. -/
def addsuffix (sp : StatePtr) (suffix : Word) : TextState :=
  { t with
    heap := Function.update t.heap sp
      { t.heap sp with suf := suffix :: (t.heap sp).suf } }

end TextState

/-- `lookup`: the state of a prefix, created on a miss when requested. -/
def lookup (pref : Prefix) (t : TextState) (create : Bool) :
    Option StatePtr × TextState :=
  match t.search pref with
  | some sp => (some sp, t)
  | none => if create then (some t.brk, t.create pref) else (none, t)

/-- `add`: push the suffix on the state of the prefix and slide the prefix. -/
def add (pref : Prefix) (t : TextState) (suffix : Word) : Prefix × TextState :=
  match lookup pref t true with
  | (some sp, t') => ((pref.2, suffix), t'.addsuffix sp suffix)
  | (none, t') => ((pref.2, suffix), t') -- not taken: a creating lookup returns a state

/-- `build_markov` on the words that `fscanf` yields. -/
def buildMarkov (pref : Prefix) (t : TextState) : List Word → Prefix × TextState
  | [] => (pref, t)
  | w :: words => buildMarkov (add pref t w).1 (add pref t w).2 words

/-- `init_file` up to the optional `ideal_hashing`: the text, then `NONWORD`. -/
def initFile (t : TextState) (words : List Word) : TextState :=
  let built := buildMarkov (nonword, nonword) t words
  (add built.1 built.2 nonword).2

/-! ## The representation invariant -/

namespace TextState

/-- Every chain holds exactly the allocated states of its bucket and prefixes
are unique: the chained-index invariant at the table's own hash. -/
def Wf (t : TextState) : Prop :=
  BucketIndex hash (fun sp => (t.heap sp).pref) t.brk t.statetab

/-- What the table stores under a prefix: the suffix list of its state. -/
def suffixes (t : TextState) (pref : Prefix) : Option (List Word) :=
  (t.search pref).map fun sp => (t.heap sp).suf

variable {t : TextState} {pref : Prefix} {sp : StatePtr}

theorem wf_empty : empty.Wf := BucketIndex.empty

theorem search_eq_some_iff (hwf : t.Wf) :
    t.search pref = some sp ↔ sp < t.brk ∧ (t.heap sp).pref = pref :=
  BucketIndex.chainFind_eq_some_iff hwf

theorem search_eq_none_iff (hwf : t.Wf) :
    t.search pref = none ↔ ∀ sp < t.brk, (t.heap sp).pref ≠ pref :=
  BucketIndex.chainFind_eq_none_iff hwf

/-- A found state lies on the chain of its bucket. -/
theorem mem_statetab_of_search (hwf : t.Wf) (hfound : t.search pref = some sp) :
    sp ∈ t.statetab (hash pref) := by
  obtain ⟨hlt, hpref⟩ := (search_eq_some_iff hwf).mp hfound
  exact (hwf.mem_bucket _ _).mpr ⟨hlt, congrArg hash hpref⟩

theorem create_pref (t : TextState) (pref : Prefix) :
    (fun sp => ((t.create pref).heap sp).pref) =
      Function.update (fun sp => (t.heap sp).pref) t.brk pref := by
  funext sp
  by_cases h : sp = t.brk <;> simp [create, h]

theorem wf_create (hwf : t.Wf) (habsent : t.search pref = none) : (t.create pref).Wf := by
  unfold Wf
  rw [create_pref]
  exact BucketIndex.push hwf ((search_eq_none_iff hwf).mp habsent)

theorem search_create_self (hwf : t.Wf) (habsent : t.search pref = none) :
    (t.create pref).search pref = some t.brk := by
  rw [search_eq_some_iff (wf_create hwf habsent)]
  simp [create]

theorem search_create_of_ne (hwf : t.Wf) (habsent : t.search pref = none)
    {other : Prefix} (hne : other ≠ pref) :
    (t.create pref).search other = t.search other := by
  apply Option.ext
  intro sp
  rw [search_eq_some_iff (wf_create hwf habsent), search_eq_some_iff hwf]
  by_cases h : sp = t.brk
  · subst h
    simp [create, hne.symm]
  · have hlt : sp < t.brk + 1 ↔ sp < t.brk :=
      ⟨fun hle => Nat.lt_of_le_of_ne (Nat.le_of_lt_succ hle) h, Nat.lt_succ_of_lt⟩
    simp [create, Function.update_of_ne h, hlt]

@[simp]
theorem addsuffix_pref (t : TextState) (sp q : StatePtr) (suffix : Word) :
    ((t.addsuffix sp suffix).heap q).pref = (t.heap q).pref := by
  by_cases h : q = sp <;> simp [addsuffix, h]

theorem wf_addsuffix (hwf : t.Wf) (sp : StatePtr) (suffix : Word) :
    (t.addsuffix sp suffix).Wf := by
  unfold Wf
  simp only [addsuffix_pref]
  exact hwf

theorem search_addsuffix (t : TextState) (sp : StatePtr) (suffix : Word) (pref : Prefix) :
    (t.addsuffix sp suffix).search pref = t.search pref := by
  simp only [search, addsuffix_pref]
  rfl

end TextState

open TextState

/-! ## What `lookup` and `add` do -/

theorem lookup_false (pref : Prefix) (t : TextState) :
    lookup pref t false = (t.search pref, t) := by
  unfold lookup
  cases t.search pref <;> rfl

/-- A creating lookup returns a state of the prefix in a well-formed table and
changes what is stored only by giving an absent prefix an empty list. -/
theorem lookup_true {t : TextState} (hwf : t.Wf) (pref : Prefix) :
    ∃ sp t', lookup pref t true = (some sp, t') ∧ t'.Wf ∧
      t'.search pref = some sp ∧ (t'.heap sp).suf = (t.suffixes pref).getD [] ∧
      ∀ other ≠ pref, t'.suffixes other = t.suffixes other := by
  unfold lookup
  cases hsearch : t.search pref with
  | some sp =>
      exact ⟨sp, t, rfl, hwf, hsearch, by simp [suffixes, hsearch], fun _ _ => rfl⟩
  | none =>
      refine ⟨t.brk, t.create pref, rfl, wf_create hwf hsearch,
        search_create_self hwf hsearch, by simp [suffixes, hsearch, create], ?_⟩
      intro other hne
      unfold suffixes
      rw [search_create_of_ne hwf hsearch hne]
      cases hother : t.search other with
      | none => rfl
      | some q =>
          have hlt := ((search_eq_some_iff hwf).mp hother).1
          simp [create, Function.update_of_ne (Nat.ne_of_lt hlt)]

/-- `add` keeps the table well formed, slides the prefix, and pushes the suffix
on the list of the prefix and on no other. -/
theorem add_spec {t : TextState} (hwf : t.Wf) (pref : Prefix) (suffix : Word) :
    (add pref t suffix).1 = (pref.2, suffix) ∧ (add pref t suffix).2.Wf ∧
      ∀ other, (add pref t suffix).2.suffixes other =
        if other = pref then some (suffix :: (t.suffixes pref).getD [])
        else t.suffixes other := by
  obtain ⟨sp, t', hlookup, hwf', hfound, hsuf, hothers⟩ := lookup_true hwf pref
  have hadd : add pref t suffix = ((pref.2, suffix), t'.addsuffix sp suffix) := by
    simp [add, hlookup]
  rw [hadd]
  refine ⟨rfl, wf_addsuffix hwf' sp suffix, fun other => ?_⟩
  unfold suffixes
  rw [search_addsuffix]
  by_cases hother : other = pref
  · subst hother
    simp [hfound, addsuffix, hsuf, suffixes]
  · have hsame := hothers other hother
    unfold suffixes at hsame
    rw [if_neg hother, ← hsame]
    cases hq : t'.search other with
    | none => rfl
    | some q =>
        have hne : q ≠ sp := by
          rintro rfl
          have hpref := ((search_eq_some_iff hwf').mp hfound).2
          exact hother (((search_eq_some_iff hwf').mp hq).2.symm.trans hpref)
        simp [addsuffix, Function.update_of_ne hne]

/-! ## The table is the second-order chain of the text -/

/-- The sequence whose chain `init_file` builds. -/
def paddedText (words : List Word) : List Word :=
  nonword :: nonword :: words ++ [nonword]

/-- The table holds the chain of the sequence read so far, and the current
prefix is its last two words. -/
structure Built (read : List Word) (pref : Prefix) (t : TextState) : Prop where
  wf : t.Wf
  ends : ∃ before, read = before ++ [pref.1, pref.2]
  chain : ∀ other, t.suffixes other = chainEntry read other

theorem built_start : Built [nonword, nonword] (nonword, nonword) TextState.empty where
  wf := wf_empty
  ends := ⟨[], rfl⟩
  chain _ := rfl

/-- One `add` extends the chain by one word. -/
theorem Built.add {read : List Word} {pref : Prefix} {t : TextState}
    (built : Built read pref t) (suffix : Word) :
    Built (read ++ [suffix]) (add pref t suffix).1 (Testbed.add pref t suffix).2 := by
  obtain ⟨hslide, hwf, hchain⟩ := add_spec built.wf pref suffix
  obtain ⟨before, hread⟩ := built.ends
  refine ⟨hwf, ⟨before ++ [pref.1], by simp [hslide, hread]⟩, fun other => ?_⟩
  have hstep := chainEntry_concat before pref.1 pref.2 suffix other
  rw [← hread, ← built.chain] at hstep
  rw [hchain, hstep]
  by_cases h : other = pref
  · subst h
    simp
  · rw [if_neg h, if_neg (show other ≠ (pref.1, pref.2) from h)]

/-- Reading words one after the other extends the chain by all of them. -/
theorem Built.buildMarkov {read : List Word} {pref : Prefix} {t : TextState}
    (built : Built read pref t) (words : List Word) :
    Built (read ++ words) (buildMarkov pref t words).1
      (Testbed.buildMarkov pref t words).2 := by
  induction words generalizing read pref t with
  | nil => simpa [Testbed.buildMarkov] using built
  | cons w words ih =>
      simpa [Testbed.buildMarkov, List.append_assoc] using ih (built.add w)

/-- The table that `init_file` leaves is well formed. -/
theorem wf_initFile (words : List Word) : (initFile .empty words).Wf :=
  ((built_start.buildMarkov words).add nonword).wf

/-- The stored suffix lists are the chain of the padded text. -/
theorem suffixes_initFile (words : List Word) (pref : Prefix) :
    (initFile .empty words).suffixes pref = chainEntry (paddedText words) pref := by
  simpa [paddedText, initFile] using
    ((built_start.buildMarkov words).add nonword).chain pref

theorem isSome_lookup_iff (words : List Word) (a b : Word) :
    (lookup (a, b) (initFile .empty words) false).1.isSome ↔
      ∃ c, [a, b, c] <:+: paddedText words := by
  rw [lookup_false, ← chainEntry_isSome_iff (paddedText words) (a, b), ← suffixes_initFile]
  simp [suffixes]

theorem suf_of_lookup {words : List Word} {a b : Word} {sp : StatePtr}
    (hfound : (lookup (a, b) (initFile .empty words) false).1 = some sp) :
    ((initFile .empty words).heap sp).suf = (followers a b (paddedText words)).reverse := by
  rw [lookup_false] at hfound
  dsimp only at hfound
  have hentry : chainEntry (paddedText words) (a, b) =
      some ((initFile .empty words).heap sp).suf := by
    rw [← suffixes_initFile]
    simp [suffixes, hfound]
  exact (chainEntry_eq_some_iff.mp hentry).1

/-- `init_file` builds exactly the second-order chain of the text: a prefix has
a state iff it occurs with a further word after it, and the state's suffix list
holds the words following it, the last occurrence first. -/
theorem lookup_initFile (words : List Word) (a b : Word) :
    ((lookup (a, b) (initFile .empty words) false).1.isSome ↔
      ∃ c, [a, b, c] <:+: paddedText words) ∧
    ∀ sp, (lookup (a, b) (initFile .empty words) false).1 = some sp →
      ((initFile .empty words).heap sp).suf =
        (followers a b (paddedText words)).reverse :=
  ⟨isSome_lookup_iff words a b, fun _ hfound => suf_of_lookup hfound⟩

end SearchTools.Testbed
