/-
# Sequences of calls on the state table

Whatever `lookup` and `add` are called with, and in whatever order, the chains of
the table hold every state that was created, in the bucket of its prefix and with
this prefix, and no two states have the same one.
-/

import SearchTools.Testbed.Markov

namespace SearchTools.Testbed

open SearchTools.Library

/-- The calls that use the table: `lookup(prefix, statetab, create)` and
`add(prefix, state, suffix)`. -/
inductive TableCall
  | lookup (pref : Prefix) (create : Bool)
  | add (pref : Prefix) (suffix : Word)
  deriving DecidableEq, Repr

namespace TableCall

def run (t : TextState) : TableCall → TextState
  | lookup pref create => (Testbed.lookup pref t create).2
  | add pref suffix => (Testbed.add pref t suffix).2

/-- The prefix that the call looks up. -/
def pref : TableCall → Prefix
  | lookup pref _ => pref
  | add pref _ => pref

/-- The state that its lookup returns, found or created. -/
def state (t : TextState) : TableCall → Option StatePtr
  | lookup pref create => (Testbed.lookup pref t create).1
  | add pref _ => (Testbed.lookup pref t true).1

end TableCall

/-- The table after some calls, from one whose buckets are all NULL. -/
def tableAfter (calls : List TableCall) : TextState := calls.foldl TableCall.run .empty

/-- What the perfect hashing and the generator rely on. -/
structure TextState.Represents (t : TextState) : Prop where
  bucket : ∀ h, ∀ sp ∈ t.statetab h, hash (t.heap sp).pref = h
  once : ∀ h, (t.statetab h).Nodup
  unique : ∀ h h', ∀ sp ∈ t.statetab h, ∀ sp' ∈ t.statetab h',
    (t.heap sp).pref = (t.heap sp').pref → sp = sp'
  reachable : ∀ sp < t.brk, sp ∈ t.statetab (hash (t.heap sp).pref)

theorem TextState.Wf.represents {t : TextState} (hwf : t.Wf) : t.Represents where
  bucket h sp hsp := ((hwf.mem_bucket h sp).mp hsp).2
  once := hwf.nodup
  unique h h' sp hsp sp' hsp' heq :=
    hwf.key_inj sp sp' ((hwf.mem_bucket h sp).mp hsp).1 ((hwf.mem_bucket h' sp').mp hsp').1 heq
  reachable sp hsp := (hwf.mem_bucket _ sp).mpr ⟨hsp, rfl⟩

/-! ## What a call keeps -/

/-- The states that are there stay, with their prefixes. -/
structure TextState.Keeps (t t' : TextState) : Prop where
  le : t.brk ≤ t'.brk
  pref : ∀ sp < t.brk, (t'.heap sp).pref = (t.heap sp).pref

theorem TextState.Keeps.refl (t : TextState) : t.Keeps t := ⟨Nat.le_refl _, fun _ _ => rfl⟩

theorem TextState.Keeps.trans {t t' t'' : TextState} (h : t.Keeps t') (h' : t'.Keeps t'') :
    t.Keeps t'' where
  le := h.le.trans h'.le
  pref sp hsp := (h'.pref sp (Nat.lt_of_lt_of_le hsp h.le)).trans (h.pref sp hsp)

theorem keeps_create (t : TextState) (pref : Prefix) : t.Keeps (t.create pref) where
  le := Nat.le_succ _
  pref sp hsp := by
    show (Function.update t.heap t.brk ⟨pref, []⟩ sp).pref = _
    rw [Function.update_of_ne (Nat.ne_of_lt hsp)]

theorem keeps_addsuffix (t : TextState) (sp : StatePtr) (suffix : Word) :
    t.Keeps (t.addsuffix sp suffix) where
  le := Nat.le_refl _
  pref q _ := TextState.addsuffix_pref t sp q suffix

/-- A lookup keeps the table, and the state it returns has the prefix. -/
theorem lookup_keeps {t : TextState} (hwf : t.Wf) (pref : Prefix) (create : Bool) :
    (lookup pref t create).2.Wf ∧ t.Keeps (lookup pref t create).2 ∧
      ∀ sp ∈ (lookup pref t create).1,
        sp < (lookup pref t create).2.brk ∧ ((lookup pref t create).2.heap sp).pref = pref := by
  rw [lookup]
  cases hsearch : t.search pref with
  | some sp =>
      refine ⟨hwf, .refl t, ?_⟩
      rintro _ ⟨⟩
      exact (TextState.search_eq_some_iff hwf).mp hsearch
  | none =>
      cases create with
      | false => exact ⟨hwf, .refl t, fun sp hsp => absurd hsp (Option.not_mem_none sp)⟩
      | true =>
          have hwf' := TextState.wf_create hwf hsearch
          have hself := TextState.search_create_self hwf hsearch
          refine ⟨hwf', keeps_create t pref, ?_⟩
          rintro _ ⟨⟩
          exact (TextState.search_eq_some_iff hwf').mp hself

/-- The state that a call returns is there after it, with its prefix. -/
theorem TableCall.run_keeps {t : TextState} (hwf : t.Wf) (call : TableCall) :
    (call.run t).Wf ∧ t.Keeps (call.run t) ∧
      ∀ sp ∈ call.state t, sp < (call.run t).brk ∧ ((call.run t).heap sp).pref = call.pref := by
  cases call with
  | lookup pref create => exact lookup_keeps hwf pref create
  | add pref suffix =>
      have hlookup := lookup_keeps hwf pref true
      show (Testbed.add pref t suffix).2.Wf ∧ t.Keeps (Testbed.add pref t suffix).2 ∧
        ∀ sp ∈ (Testbed.lookup pref t true).1, sp < (Testbed.add pref t suffix).2.brk ∧
          ((Testbed.add pref t suffix).2.heap sp).pref = pref
      rw [Testbed.add]
      cases hresult : Testbed.lookup pref t true with
      | mk found t' =>
          rw [hresult] at hlookup
          rcases hlookup with ⟨hwf', hkeeps, hstate⟩
          cases found with
          | none => exact ⟨hwf', hkeeps, fun sp hsp => absurd hsp (Option.not_mem_none sp)⟩
          | some sp =>
              refine ⟨TextState.wf_addsuffix hwf' sp suffix,
                hkeeps.trans (keeps_addsuffix t' sp suffix), ?_⟩
              rintro _ ⟨⟩
              rw [TextState.addsuffix_pref]
              exact hstate sp rfl

theorem foldl_keeps {t : TextState} (hwf : t.Wf) (calls : List TableCall) :
    (calls.foldl TableCall.run t).Wf ∧ t.Keeps (calls.foldl TableCall.run t) := by
  induction calls generalizing t with
  | nil => exact ⟨hwf, .refl t⟩
  | cons call calls ih =>
      rcases call.run_keeps hwf with ⟨hwf', hkeeps, -⟩
      rcases ih hwf' with ⟨hlast, hrest⟩
      exact ⟨hlast, hkeeps.trans hrest⟩

theorem wf_tableAfter (calls : List TableCall) : (tableAfter calls).Wf :=
  (foldl_keeps TextState.wf_empty calls).1

/-- After any calls the table represents the states. Each state that a call found or
created is still in the bucket of its prefix, with this prefix, and a lookup without
`create` changed nothing. -/
theorem tableAfter_represents (calls : List TableCall) :
    (tableAfter calls).Represents ∧
      (∀ before call after, calls = before ++ call :: after →
        ∀ sp ∈ call.state (tableAfter before), sp ∈ (tableAfter calls).statetab (hash call.pref) ∧
          ((tableAfter calls).heap sp).pref = call.pref) ∧
      ∀ before pref after, calls = before ++ .lookup pref false :: after →
        tableAfter (before ++ [.lookup pref false]) = tableAfter before := by
  refine ⟨(wf_tableAfter calls).represents, ?_, ?_⟩
  · rintro before call after rfl sp hsp
    have hsplit : tableAfter (before ++ call :: after) =
        after.foldl TableCall.run (call.run (tableAfter before)) := by
      rw [tableAfter, List.foldl_append, List.foldl_cons, tableAfter]
    rcases call.run_keeps (wf_tableAfter before) with ⟨hwf, -, hstate⟩
    rcases hstate sp hsp with ⟨hlt, hpref⟩
    rcases foldl_keeps hwf after with ⟨hlast, hkeeps⟩
    rw [hsplit]
    have hsame := (hkeeps.pref sp hlt).trans hpref
    refine ⟨(hlast.mem_bucket _ sp).mpr ⟨Nat.lt_of_lt_of_le hlt hkeeps.le, ?_⟩, hsame⟩
    exact congrArg hash hsame
  · rintro before pref after -
    rw [tableAfter, List.foldl_append, List.foldl_cons, List.foldl_nil]
    exact congrArg Prod.snd (lookup_false pref (tableAfter before))

end SearchTools.Testbed
