/-
# The walk of the generator stays on the text

Whatever the draws, the prefix at the head of an iteration occurs in the text
with a further word after it. The lookup of either build therefore succeeds,
the suffix loop assigns the word, and the words written form a path of the
text. Both builds read the same states, so they write the same bytes.
-/

import SearchTools.Testbed.Generate

namespace SearchTools.Testbed

open SearchTools.Library

variable {a : GenArgs} {find : Prefix → Except Fault (Option State)}

/-! ## What one iteration can do -/

/-- Non-zero divisors are all a word needs to be written. -/
theorem writeWord_ok (hlinks : a.linksTotal ≠ 0) (hservers : a.extServers ≠ 0)
    (intLink extLink : Bool) (w : Word) (g : GenState) :
    ∃ g', writeWord a intLink extLink w g = .ok g' := by
  unfold writeWord
  split
  · exact ⟨_, bind_eq_ok.mpr ⟨_, cmod_of_ne_zero hlinks, rfl⟩⟩
  · split
    · exact ⟨_, bind_eq_ok.mpr ⟨_, cmod_of_ne_zero hservers,
        bind_eq_ok.mpr ⟨_, cmod_of_ne_zero hlinks, rfl⟩⟩⟩
    · exact ⟨_, rfl⟩

theorem emitWord_frame {w : Word} {g g' : GenState} (h : emitWord a w g = .ok g') :
    g'.pref = (g.pref.2, w) ∧ g'.written = g.written ++ [w] := by
  obtain ⟨sent, -, hsent⟩ := bind_eq_ok.mp h
  obtain rfl := Except.ok.inj hsent
  exact ⟨rfl, rfl⟩

theorem emitWord_ok (hlinks : a.linksTotal ≠ 0) (hservers : a.extServers ≠ 0)
    (w : Word) (g : GenState) : ∃ g', emitWord a w g = .ok g' := by
  obtain ⟨sent, hsent⟩ := writeWord_ok hlinks hservers _ _ w _
  exact ⟨_, bind_eq_ok.mpr ⟨sent, hsent, rfl⟩⟩

/-- An iteration that draws a word leaves the loop on `NONWORD` or writes the word. -/
theorem generateBody_eq {g : GenState} {sp : State} {w : Word}
    (hfind : find g.pref = .ok (some sp)) (hchoice : (suffixLoop sp.suf g.w g.seed).1 = some w) :
    generateBody a find g =
      if w = nonword then
        .ok ({ g with w := some w, seed := (suffixLoop sp.suf g.w g.seed).2 }, true)
      else emitWord a w { g with w := some w, seed := (suffixLoop sp.suf g.w g.seed).2 } >>=
        fun g' => .ok (g', false) := by
  rw [generateBody, hfind]
  simp only [bind, Except.bind, hchoice]
  rfl

/-- How an iteration that does not fault went: it drew a word from the state of
its prefix, and either left the loop on `NONWORD` or went on to write the word. -/
theorem generateBody_eq_ok {g g' : GenState} {stop : Bool}
    (h : generateBody a find g = .ok (g', stop)) :
    ∃ sp w, find g.pref = .ok (some sp) ∧ (suffixLoop sp.suf g.w g.seed).1 = some w ∧
      ((stop = true ∧ w = nonword ∧
          g' = { g with w := some w, seed := (suffixLoop sp.suf g.w g.seed).2 }) ∨
        (stop = false ∧ w ≠ nonword ∧
          emitWord a w { g with w := some w, seed := (suffixLoop sp.suf g.w g.seed).2 } =
            .ok g')) := by
  obtain ⟨found, hfind, hfound⟩ := bind_eq_ok.mp h
  cases found with
  | none => cases hfound
  | some sp =>
      cases hchoice : (suffixLoop sp.suf g.w g.seed).1 with
      | none =>
          simp only [hchoice] at hfound
          cases hfound
      | some w =>
          refine ⟨sp, w, hfind, hchoice, ?_⟩
          rw [generateBody_eq hfind hchoice] at h
          by_cases hw : w = nonword
          · rw [if_pos hw] at h
            obtain ⟨rfl, rfl⟩ := Prod.mk.inj (Except.ok.inj h)
            exact Or.inl ⟨rfl, hw, rfl⟩
          · rw [if_neg hw] at h
            obtain ⟨sent, hsent, hreturn⟩ := bind_eq_ok.mp h
            obtain ⟨rfl, rfl⟩ := Prod.mk.inj (Except.ok.inj hreturn)
            exact Or.inr ⟨rfl, hw, hsent⟩

/-- It wrote nothing when it left the loop, and else the word, and slid the
prefix. -/
theorem generateBody_cases {g g' : GenState} {stop : Bool}
    (h : generateBody a find g = .ok (g', stop)) :
    ∃ sp w, find g.pref = .ok (some sp) ∧ (suffixLoop sp.suf g.w g.seed).1 = some w ∧
      ((stop = true ∧ w = nonword ∧ g'.w = some nonword ∧ g'.written = g.written) ∨
        (stop = false ∧ w ≠ nonword ∧ g'.pref = (g.pref.2, w) ∧
          g'.written = g.written ++ [w])) := by
  obtain ⟨sp, w, hfind, hchoice, hcases⟩ := generateBody_eq_ok h
  refine ⟨sp, w, hfind, hchoice, ?_⟩
  rcases hcases with ⟨hstop, hw, rfl⟩ | ⟨hstop, hw, hsent⟩
  · exact Or.inl ⟨hstop, hw, congrArg some hw, rfl⟩
  · obtain ⟨hpref, hwritten⟩ := emitWord_frame hsent
    exact Or.inr ⟨hstop, hw, hpref, hwritten⟩

/-- An iteration that draws a word does not fault. -/
theorem generateBody_ok (hlinks : a.linksTotal ≠ 0) (hservers : a.extServers ≠ 0)
    {g : GenState} {sp : State} {w : Word} (hfind : find g.pref = .ok (some sp))
    (hchoice : (suffixLoop sp.suf g.w g.seed).1 = some w) :
    ∃ g' stop, generateBody a find g = .ok (g', stop) := by
  rw [generateBody_eq hfind hchoice]
  by_cases hw : w = nonword
  · rw [if_pos hw]
    exact ⟨_, true, rfl⟩
  · rw [if_neg hw]
    obtain ⟨sent, hsent⟩ := emitWord_ok hlinks hservers w
      { g with w := some w, seed := (suffixLoop sp.suf g.w g.seed).2 }
    exact ⟨sent, false, bind_eq_ok.mpr ⟨sent, hsent, rfl⟩⟩

/-! ## The invariant at the loop head -/

/-- The prefix occurs in the text with a further word after it, and the words
written so far, started by the two `NONWORD`s, are a path of the text that ends
in the prefix. `NONWORD` itself is never written. -/
structure OnText (T : List Word) (g : GenState) : Prop where
  stored : ∃ c, [g.pref.1, g.pref.2, c] <:+: T
  path : ∀ x y z, [x, y, z] <:+: nonword :: nonword :: g.written → [x, y, z] <:+: T
  ends : ∃ before, nonword :: nonword :: g.written = before ++ [g.pref.1, g.pref.2]
  fresh : nonword ∉ g.written

/-- A lookup that answers every prefix of the text with its followers. -/
def Answers (T : List Word) (find : Prefix → Except Fault (Option State)) : Prop :=
  ∀ pref : Prefix, (∃ c, [pref.1, pref.2, c] <:+: T) →
    ∃ sp, find pref = .ok (some sp) ∧ sp.suf = (followers pref.1 pref.2 T).reverse

theorem onText_start (words : List Word) (seed : UInt32) (buf : Bytes) :
    OnText (paddedText words) (.start seed buf) where
  stored := by
    match words with
    | [] => exact ⟨nonword, [], [], rfl⟩
    | w :: words => exact ⟨w, [], words ++ [nonword], rfl⟩
  path x y z hwindow := by
    have hlen := hwindow.length_le
    simp [GenState.start] at hlen
  ends := ⟨[], rfl⟩
  fresh := List.not_mem_nil

/-- The word drawn on a prefix of the text: the state is found, its list is not
empty and the suffix loop assigns one of the followers. -/
theorem OnText.draws {T : List Word} {g : GenState} (on : OnText T g)
    (answers : Answers T find) :
    ∃ sp v, find g.pref = .ok (some sp) ∧ sp.suf ≠ [] ∧ v ∈ sp.suf ∧
      [g.pref.1, g.pref.2, v] <:+: T ∧
      ∀ w, (suffixLoop sp.suf w g.seed).1 = some v := by
  obtain ⟨sp, hfind, hsuf⟩ := answers g.pref on.stored
  obtain ⟨c, hc⟩ := on.stored
  have hne : sp.suf ≠ [] := by
    have hmem : c ∈ sp.suf := by
      rw [hsuf, List.mem_reverse]
      exact mem_followers.mpr hc
    exact List.ne_nil_of_mem hmem
  obtain ⟨v, hv, hloop⟩ := reservoir_assigns myRandR hne g.seed
  refine ⟨sp, v, hfind, hne, hv, ?_, hloop⟩
  rw [hsuf, List.mem_reverse] at hv
  exact mem_followers.mp hv

/-- Writing a drawn word and sliding the prefix stays on the text: the word is
not the last of the text, since that is `NONWORD`. -/
theorem OnText.slide {words : List Word} {g g' : GenState} {w : Word}
    (on : OnText (paddedText words) g)
    (hdrawn : [g.pref.1, g.pref.2, w] <:+: paddedText words) (hw : w ≠ nonword)
    (hpref : g'.pref = (g.pref.2, w)) (hwritten : g'.written = g.written ++ [w]) :
    OnText (paddedText words) g' where
  stored := by
    rw [hpref]
    apply window_shift hdrawn
    rw [paddedText, List.getLast?_concat]
    exact fun hlast => hw (Option.some.inj hlast).symm
  path x y z hwindow := by
    obtain ⟨before, hends⟩ := on.ends
    have hread : nonword :: nonword :: g'.written =
        before ++ [g.pref.1, g.pref.2] ++ [w] := by
      rw [hwritten, ← hends]
      rfl
    rw [hread] at hwindow
    rcases window_concat.mp hwindow with hold | ⟨⟨rfl, rfl⟩, rfl⟩
    · exact on.path x y z (hends ▸ hold)
    · exact hdrawn
  ends := by
    obtain ⟨before, hends⟩ := on.ends
    refine ⟨before ++ [g.pref.1], ?_⟩
    rw [hwritten, hpref, ← List.cons_append, ← List.cons_append, hends]
    simp
  fresh := by
    rw [hwritten, List.mem_append, List.mem_singleton]
    rintro (hold | hlast)
    · exact on.fresh hold
    · exact hw hlast.symm

/-- One iteration that does not leave the loop keeps the invariant. -/
theorem OnText.body {words : List Word} {g g' : GenState}
    (on : OnText (paddedText words) g) (answers : Answers (paddedText words) find)
    (h : generateBody a find g = .ok (g', false)) : OnText (paddedText words) g' := by
  obtain ⟨sp, w, hfind, hchoice, hcases⟩ := generateBody_cases h
  obtain ⟨sp', v, hfind', -, -, hdrawn, hloop⟩ := on.draws answers
  have hsp : sp' = sp := Option.some.inj (Except.ok.inj (hfind'.symm.trans hfind))
  subst hsp
  have hv : v = w := Option.some.inj ((hloop g.w).symm.trans hchoice)
  subst hv
  rcases hcases with ⟨hstop, -⟩ | ⟨-, hw, hpref, hwritten⟩
  · exact absurd hstop (by simp)
  · exact on.slide hdrawn hw hpref hwritten

/-- Every word written is one of the text. -/
theorem OnText.mem_words {words : List Word} {g : GenState} (on : OnText (paddedText words) g)
    {w : Word} (hw : w ∈ g.written) : w ∈ words := by
  rcases List.append_of_mem hw with ⟨before, after, hwritten⟩
  have hpair : ∃ front x y, nonword :: nonword :: before = front ++ [x, y] := by
    rcases List.eq_nil_or_concat' before with rfl | ⟨before, y, rfl⟩
    · exact ⟨[], nonword, nonword, rfl⟩
    rcases List.eq_nil_or_concat' before with rfl | ⟨before, x, rfl⟩
    · exact ⟨[nonword], nonword, y, rfl⟩
    · exact ⟨nonword :: nonword :: before, x, y, by simp⟩
  rcases hpair with ⟨front, x, y, hfront⟩
  have hwindow : [x, y, w] <:+: nonword :: nonword :: g.written := by
    refine ⟨front, after, ?_⟩
    rw [hwritten, ← List.cons_append, ← List.cons_append, hfront]
    simp
  have hmem : w ∈ paddedText words := (on.path x y w hwindow).subset (by simp)
  have hne : w ≠ nonword := fun heq => on.fresh (heq ▸ hw)
  simpa [paddedText, hne] using hmem

/-- The words of a run that returns are words of the text. -/
theorem OnText.mem_of_generateLoop {words : List Word} (answers : Answers (paddedText words) find)
    {left : ℕ} {g g' : GenState} (on : OnText (paddedText words) g)
    (h : generateLoop a find left g = .ok g') : ∀ w ∈ g'.written, w ∈ words := by
  induction left generalizing g with
  | zero =>
      cases h
      exact fun w hw => on.mem_words hw
  | succ left ih =>
      rcases bind_eq_ok.mp h with ⟨⟨g₁, stop⟩, hbody, hrest⟩
      cases stop with
      | false => exact ih (on.body answers hbody) hrest
      | true =>
          cases hrest
          rcases generateBody_cases hbody with ⟨_, _, -, -, ⟨-, -, -, hwritten⟩ | ⟨hstop, -⟩⟩
          · rw [hwritten]
            exact fun w hw => on.mem_words hw
          · cases hstop

/-- The invariant holds at the head of every iteration. -/
theorem LoopHead.onText {words : List Word} (answers : Answers (paddedText words) find)
    {seed : UInt32} {buf : Bytes} {i : ℕ} {g : GenState}
    (head : LoopHead a find seed buf i g) : OnText (paddedText words) g := by
  induction head with
  | start => exact onText_start words seed buf
  | next _ _ body ih => exact ih.body answers body

/-- The word loop from a state on the text, when no divisor is zero: it returns,
stays on the text, writes at most one word an iteration, and fewer only after
drawing `NONWORD`. -/
theorem OnText.loop (hlinks : a.linksTotal ≠ 0) (hservers : a.extServers ≠ 0)
    {words : List Word} (answers : Answers (paddedText words) find) (left : ℕ)
    {g : GenState} (on : OnText (paddedText words) g) :
    ∃ g', generateLoop a find left g = .ok g' ∧
      (∀ x y z, [x, y, z] <:+: nonword :: nonword :: g'.written →
        [x, y, z] <:+: paddedText words) ∧ nonword ∉ g'.written ∧
      g'.written.length ≤ g.written.length + left ∧
      (g'.written.length < g.written.length + left → g'.w = some nonword) := by
  induction left generalizing g with
  | zero => exact ⟨g, rfl, on.path, on.fresh, by simp, by simp⟩
  | succ left ih =>
      obtain ⟨sp, v, hfind, -, -, hdrawn, hloop⟩ := on.draws answers
      obtain ⟨g₁, stop, hbody⟩ := generateBody_ok hlinks hservers hfind (hloop g.w)
      obtain ⟨_, _, -, -, hcases⟩ := generateBody_cases hbody
      rcases hcases with ⟨rfl, -, hlast, hwritten⟩ | ⟨rfl, -, -, hwritten⟩
      · refine ⟨g₁, bind_eq_ok.mpr ⟨_, hbody, rfl⟩, ?_⟩
        rw [hwritten]
        exact ⟨on.path, on.fresh, by omega, fun _ => hlast⟩
      · obtain ⟨g', hrest, hpath, hfresh, hle, hlt⟩ := ih (on.body answers hbody)
        have hlen : g₁.written.length = g.written.length + 1 := by simp [hwritten]
        refine ⟨g', bind_eq_ok.mpr ⟨_, hbody, hrest⟩, hpath, hfresh, by omega, ?_⟩
        intro hshort
        exact hlt (by omega)

/-- Two lookups that agree on the prefixes of the text give the same run of the
word loop, faults included. -/
theorem OnText.loop_congr {words : List Word} {other : Prefix → Except Fault (Option State)}
    (answers : Answers (paddedText words) find)
    (agree : ∀ pref : Prefix, (∃ c, [pref.1, pref.2, c] <:+: paddedText words) →
      other pref = find pref) (left : ℕ) {g : GenState}
    (on : OnText (paddedText words) g) :
    generateLoop a other left g = generateLoop a find left g := by
  induction left generalizing g with
  | zero => rfl
  | succ left ih =>
      have hbody : generateBody a other g = generateBody a find g := by
        unfold generateBody
        rw [agree g.pref on.stored]
      unfold generateLoop
      rw [hbody]
      cases hrun : generateBody a find g with
      | error fault => rfl
      | ok r =>
          obtain ⟨g₁, stop⟩ := r
          cases stop with
          | true => rfl
          | false => exact ih (on.body answers hrun)

/-! ## Both builds answer every prefix of the text -/

theorem exists_search_of_stored {words : List Word} {pref : Prefix}
    (hstored : ∃ c, [pref.1, pref.2, c] <:+: paddedText words) :
    ∃ sp, (initFile .empty words).search pref = some sp ∧
      ((initFile .empty words).heap sp).suf =
        (followers pref.1 pref.2 (paddedText words)).reverse := by
  obtain ⟨sp, hsp⟩ := Option.isSome_iff_exists.mp
    ((isSome_lookup_iff words pref.1 pref.2).mpr hstored)
  exact ⟨sp, by simpa [lookup_false] using hsp, suf_of_lookup hsp⟩

theorem answers_plainLookup (words : List Word) :
    Answers (paddedText words) (plainLookup (initFile .empty words)) := by
  intro pref hstored
  obtain ⟨sp, hsearch, hsuf⟩ := exists_search_of_stored hstored
  exact ⟨_, by simp [plainLookup, lookup_false, hsearch], hsuf⟩

/-- On the prefixes of the text the ideal build finds the very state of the
plain build. -/
theorem idealLookup_eq_plainLookup {words : List Word} {ideal : IdealState}
    (done : idealHashing (initFile .empty words) = some ideal) {pref : Prefix}
    (hstored : ∃ c, [pref.1, pref.2, c] <:+: paddedText words) :
    idealLookup (initFile .empty words) ideal pref =
      plainLookup (initFile .empty words) pref := by
  obtain ⟨sp, hsearch, -⟩ := exists_search_of_stored hstored
  have hideal := lookupIdeal_of_search (wf_initFile words) done hsearch
  simp only [idealLookup, hideal, plainLookup, lookup_false, hsearch]
  rfl

theorem IsBuild.answers {words : List Word} (build : IsBuild (initFile .empty words) find) :
    Answers (paddedText words) find := by
  cases build with
  | plain => exact answers_plainLookup words
  | ideal done =>
      intro pref hstored
      rw [idealLookup_eq_plainLookup done hstored]
      exact answers_plainLookup words pref hstored

/-! ## The calls of `generate` -/

/-- A call of `generate` on a loaded text, in either build and with non-zero
divisors, never follows a missing pointer: at the head of every iteration the
lookup gives a state with a non-empty suffix list, and the suffix loop assigns
the word whatever it held before. The call returns; the words it writes are a
path of the text, at most `nwords` of them, and fewer only when the word drawn
after them was `NONWORD`. -/
theorem generate_on_text (words : List Word) (a : GenArgs) (hlinks : a.linksTotal ≠ 0)
    (hservers : a.extServers ≠ 0) (find : Prefix → Except Fault (Option State))
    (build : IsBuild (initFile .empty words) find) (seed : UInt32) (buf : Bytes) :
    (∀ i g, LoopHead a find seed buf i g → (i : ℤ) < a.nwords →
      ∃ sp v, find g.pref = .ok (some sp) ∧ sp.suf ≠ [] ∧ v ∈ sp.suf ∧
        ∀ w, (suffixLoop sp.suf w g.seed).1 = some v) ∧
    ∃ g, generate a find seed buf = .ok g ∧
      (∀ x y z, [x, y, z] <:+: nonword :: nonword :: g.written →
        [x, y, z] <:+: paddedText words) ∧
      nonword ∉ g.written ∧
      (g.written.length : ℤ) ≤ max a.nwords 0 ∧
      ((g.written.length : ℤ) < a.nwords → g.w = some nonword) := by
  have answers := build.answers
  refine ⟨fun i g head _ => ?_, ?_⟩
  · obtain ⟨sp, v, hfind, hne, hv, -, hloop⟩ := (head.onText answers).draws answers
    exact ⟨sp, v, hfind, hne, hv, hloop⟩
  · obtain ⟨g, hloop, hpath, hfresh, hle, hlt⟩ :=
      (onText_start words seed buf).loop hlinks hservers answers a.nwords.toNat
    simp only [GenState.start, List.length_nil, Nat.zero_add] at hle hlt
    refine ⟨g.close, bind_eq_ok.mpr ⟨g, hloop, rfl⟩, ?_⟩
    rw [GenState.written_close, GenState.w_close]
    exact ⟨hpath, hfresh, by omega, fun hshort => hlt (by omega)⟩

/-- The page arguments of the shipped `gen.ini`, with the given length. -/
def sampleArgs (nwords : ℤ) : GenArgs where
  nwords := nwords
  internLinks := 214748364
  externLinks := 42949672
  linksTotal := 10000000
  extPrefix := bytes "serv"
  extSuffix := bytes ".testbed.local"
  extServers := 2
  lastDrawFirst := true

theorem generate_on_text_sample :
    ∃ g, generate (sampleArgs 3) (plainLookup (initFile .empty [bytes "a"])) 1 [] = .ok g ∧
      nonword ∉ g.written := by
  obtain ⟨g, hrun, -, hfresh, -⟩ := (generate_on_text [bytes "a"] (sampleArgs 3)
    (by decide) (by decide) _ .plain 1 []).2
  exact ⟨g, hrun, hfresh⟩

/-- A negative `nwords` writes no word, which is more than `nwords` words. -/
theorem generate_negative_nwords :
    ∃ g, generate (sampleArgs (-1)) (plainLookup (initFile .empty [])) 1 [] = .ok g ∧
      ¬ (g.written.length : ℤ) ≤ (sampleArgs (-1)).nwords :=
  ⟨.start 1 [], rfl, by decide⟩

/-- Once `ideal_hashing` has completed on a loaded text, the ideal lookup of
every stored prefix is the chained one, and every call of `generate` gives the
same result, bytes and faults alike, in both builds. -/
theorem generate_ideal_eq_plain (words : List Word) (ideal : IdealState)
    (done : idealHashing (initFile .empty words) = some ideal) :
    (∀ pref sp, (lookup pref (initFile .empty words) false).1 = some sp →
      lookupIdeal pref ideal = .ok (some sp)) ∧
    ∀ a seed buf, generate a (idealLookup (initFile .empty words) ideal) seed buf =
      generate a (plainLookup (initFile .empty words)) seed buf := by
  refine ⟨fun pref sp hfound => ?_, fun a seed buf => ?_⟩
  · rw [lookup_false] at hfound
    exact lookupIdeal_of_search (wf_initFile words) done hfound
  · unfold generate
    rw [(onText_start words seed buf).loop_congr (answers_plainLookup words)
      fun pref hstored => idealLookup_eq_plainLookup done hstored]

theorem generate_ideal_eq_plain_sample :
    ∃ ideal, idealHashing (initFile .empty [bytes "a"]) = some ideal ∧
      generate (sampleArgs 3) (idealLookup (initFile .empty [bytes "a"]) ideal) 1 [] =
        generate (sampleArgs 3) (plainLookup (initFile .empty [bytes "a"])) 1 [] := by
  obtain ⟨ideal, done⟩ := Option.isSome_iff_exists.mp
    (idealHashing_isSome_of_hash_inj (wf_initFile [bytes "a"]) (by decide +kernel))
  exact ⟨ideal, done, (generate_ideal_eq_plain [bytes "a"] ideal done).2 _ _ _⟩

end SearchTools.Testbed
