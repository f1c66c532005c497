/-
# URIs, queries and escaped texts

The functions of `contrib/libevent/http.c` that encode and decode a URI, take a query
apart and escape a text for HTML. A string is given by its bytes before the NUL, a
buffer that is written to by the whole of its block.
-/

import SearchTools.Libevent.Headers
import SearchTools.Library.Numeral

namespace SearchTools.Libevent.Http

open SearchTools.Library

/-- `uri_chars`. -/
def uriChars : List ℕ := [
  0, 0, 0, 0, 0, 0, 0, 0,   0, 0, 0, 0, 0, 0, 0, 0,
  0, 0, 0, 0, 0, 0, 0, 0,   0, 0, 0, 0, 0, 0, 0, 0,
  0, 1, 0, 0, 1, 0, 0, 1,   1, 1, 1, 1, 1, 1, 1, 1,
  1, 1, 1, 1, 1, 1, 1, 1,   1, 1, 1, 0, 0, 1, 0, 0,
  1, 1, 1, 1, 1, 1, 1, 1,   1, 1, 1, 1, 1, 1, 1, 1,
  1, 1, 1, 1, 1, 1, 1, 1,   1, 1, 1, 0, 0, 0, 0, 1,
  0, 1, 1, 1, 1, 1, 1, 1,   1, 1, 1, 1, 1, 1, 1, 1,
  1, 1, 1, 1, 1, 1, 1, 1,   1, 1, 1, 0, 0, 0, 1, 0] ++ List.replicate 128 0

/-- `uri_chars[b]`. -/
def isUriChar (b : UInt8) : Bool := uriChars.getD b.toNat 0 != 0

def toupper (b : UInt8) : UInt8 := if 97 ≤ b && b ≤ 122 then b - 32 else b

/-- What `"%%%02X"` writes. -/
def percentText (b : UInt8) : Bytes :=
  let digits := (digitText 16 b.toNat).map toupper
  37 :: (List.replicate (2 - digits.length) 48 ++ digits)

/-- `strdup`. -/
def strdup (block : Bytes) : Except Fault Bytes :=
  if 0 ∈ block then .ok (cstr block) else .error .outOfBounds

section Encode

variable (malloc : Malloc)

/-- The loop of `evhttp_encode_uri`, which does not look at what the calls answer. -/
def encodeUriLoop : Bytes → Evbuffer Unit → Except Fault (Evbuffer Unit)
  | [], buf => .ok buf
  | p :: uri, buf => do
    let (buf, _) ← (if isUriChar p then buf.add malloc.heap [p]
      else buf.addVprintf malloc.heap (percentText p))
    encodeUriLoop uri buf

/-- `evhttp_encode_uri`. -/
def evhttpEncodeUri (uri : Bytes) : Except Fault Bytes := do
  let buf ← encodeUriLoop malloc uri {}
  let (buf, _) ← buf.add malloc.heap [0]
  strdup (buf.origBuffer.drop buf.buffer)

end Encode

def isxdigit (b : UInt8) : Bool := digitValue b < 16

def byteAt (block : Bytes) (i : ℕ) : Except Fault UInt8 :=
  match block[i]? with
  | some b => .ok b
  | none => .error .outOfBounds

/-- `(char)strtol(tmp, NULL, 16)`. -/
def hexByte (h l : UInt8) : UInt8 := UInt8.ofNat (strtoll 16 [h, l]).1.toNat

/-- The byte that a `%` at `i` stands for, if two hexadecimal digits are behind it. -/
def escapeAt (uri : Bytes) (i : ℕ) : Except Fault (Option UInt8) := do
  let h ← byteAt uri (i + 1)
  if isxdigit h then
    let l ← byteAt uri (i + 2)
    return if isxdigit l then some (hexByte h l) else none
  else return none

/-- The body of the loop of `evhttp_decode_uri_internal`: the new `c`, `i` and `in_query`. -/
def decodeUriStep (uri : Bytes) (i : ℕ) (c : UInt8) (inQuery : Bool) :
    Except Fault (UInt8 × ℕ × Bool) :=
  if c = 63 then .ok (c, i, true)
  else if c = 43 ∧ inQuery then .ok (32, i, inQuery)
  else if c = 37 then do
    match ← escapeAt uri i with
    | some b => return (b, i + 2, inQuery)
    | none => return (c, i, inQuery)
  else .ok (c, i, inQuery)

/-- The loop of `evhttp_decode_uri_internal`. -/
def decodeUriLoop (uri : Bytes) : ℕ → ℕ → ℕ → Bool → Bytes → Except Fault (Bytes × ℕ)
  | 0, _, _, _, _ => .error .outOfFuel
  | fuel + 1, i, j, inQuery, ret => do
    let c ← byteAt uri i
    if c = 0 then
      let ret ← writeBlock ret j [0]
      return (ret, j)
    else
      let (c, i, inQuery) ← decodeUriStep uri i c inQuery
      let ret ← writeBlock ret j [c]
      decodeUriLoop uri fuel (i + 1) (j + 1) inQuery ret

/-- `evhttp_decode_uri_internal`, with the NUL at the end of the string. -/
def evhttpDecodeUriInternal (uri ret : Bytes) (alwaysDecodePlus : Bool) :
    Except Fault (Bytes × ℕ) :=
  decodeUriLoop (uri ++ [0]) (uri.length + 1) 0 0 alwaysDecodePlus ret

/-- `evhttp_decode_uri`. -/
def evhttpDecodeUri (malloc : Malloc) (uri : Bytes) : Except Fault Bytes := do
  let (ret, _) ← evhttpDecodeUriInternal uri (malloc.fresh (uri.length + 1)) false
  strdup ret

/-- The loop of `evhttp_parse_query`. -/
def parseQueryLoop (malloc : Malloc) : ℕ → Headers → Option Bytes → Except Fault Headers
  | 0, _, _ => .error .outOfFuel
  | fuel + 1, headers, p =>
    match p with
    | none | some [] => .ok headers
    | some p =>
      let (argument, p) := strsep p 38
      match strsep argument 61 with
      | (_, none) => .ok headers
      | (key, some value) => do
        let (ret, _) ← evhttpDecodeUriInternal value (malloc.fresh (value.length + 1)) true
        let decodedValue ← strdup ret
        parseQueryLoop malloc fuel (evhttpAddHeaderInternal headers key decodedValue) p

/-- `evhttp_parse_query`. -/
def evhttpParseQuery (malloc : Malloc) (uri : Bytes) : Except Fault Headers :=
  match strsep uri 63 with
  | (_, none) => .ok []
  | (_, some argument) => parseQueryLoop malloc (argument.length + 2) [] (some argument)

/-- `html_replace`. -/
def htmlReplace (ch : UInt8) : Bytes :=
  if ch = 60 then bytes "&lt;"
  else if ch = 62 then bytes "&gt;"
  else if ch = 34 then bytes "&quot;"
  else if ch = 39 then bytes "&#039;"
  else if ch = 38 then bytes "&amp;"
  else [ch]

/-- The second loop of `evhttp_htmlescape`: `strcpy` and `p += strlen(replaced)`. -/
def htmlescapeLoop : Bytes → ℕ → Bytes → Except Fault (Bytes × ℕ)
  | [], p, escaped => .ok (escaped, p)
  | ch :: html, p, escaped => do
    let escaped ← writeBlock escaped p (htmlReplace ch ++ [0])
    htmlescapeLoop html (p + (htmlReplace ch).length) escaped

/-- `evhttp_htmlescape`. -/
def evhttpHtmlescape (malloc : Malloc) (html : Bytes) : Except Fault Bytes := do
  let newSize := (html.map fun ch => (htmlReplace ch).length).sum
  let (escaped, p) ← htmlescapeLoop html 0 (malloc.fresh (newSize + 1))
  let escaped ← writeBlock escaped p [0]
  strdup escaped

/-! ## What is encoded -/

/-- What `evhttp_encode_uri` writes for a byte. -/
def encodedByte (b : UInt8) : Bytes := if isUriChar b then [b] else percentText b

/-- Two digits that give the byte, and no NUL. -/
def percentReads (b : UInt8) : Bool :=
  match percentText b with
  | [c, h, l] => c == 37 && isxdigit h && isxdigit l && hexByte h l == b && h != 0 && l != 0
  | _ => false

theorem percentReads_all (b : UInt8) : percentReads b :=
  forall_byte (P := fun b => percentReads b) (by decide +kernel) b

theorem percentText_spec (b : UInt8) :
    ∃ h l, percentText b = [37, h, l] ∧ isxdigit h ∧ isxdigit l ∧ hexByte h l = b ∧
      h ≠ 0 ∧ l ≠ 0 := by
  have hreads := percentReads_all b
  unfold percentReads at hreads
  split at hreads
  · next c h l htext =>
    simp only [Bool.and_eq_true, beq_iff_eq, bne_iff_ne] at hreads
    obtain ⟨⟨⟨⟨⟨hc, hh⟩, hl⟩, hbyte⟩, hh0⟩, hl0⟩ := hreads
    exact ⟨h, l, by rw [htext, hc], hh, hl, hbyte, hh0, hl0⟩
  · cases hreads

theorem isUriChar_plain (b : UInt8) : isUriChar b → b ≠ 0 ∧ b ≠ 63 ∧ b ≠ 37 ∧ b ≠ 38 :=
  forall_byte (P := fun b => isUriChar b → b ≠ 0 ∧ b ≠ 63 ∧ b ≠ 37 ∧ b ≠ 38)
    (by decide +kernel) b

section Encode

variable (malloc : Malloc)

/-- A byte is added as it is. -/
theorem add_given {buf : Evbuffer Unit} {q : Bytes} (h : buf.Holds q) {n : ℕ}
    (hwithin : buf.Within n) (b : UInt8) (hfits : q.length + 67 ≤ n) (hn : n ≤ 2 ^ 60) :
    ∃ buf' res, buf.add malloc.heap [b] = .ok (buf', res) ∧ buf'.Holds (q ++ [b]) ∧
      buf'.Within n := by
  obtain ⟨buf', res, hadd, hwithin'⟩ := Evbuffer.add_ok malloc.heap h hwithin [b]
    (by rw [List.length_singleton]; omega) hn
  obtain ⟨-, ⟨-, hholds⟩ | ⟨-, -, hrefused⟩⟩ := Evbuffer.add_spec malloc.heap h hadd
  · exact ⟨buf', res, hadd, hholds, hwithin'⟩
  · exact absurd malloc.givesAll_heap hrefused

/-- A byte is formatted. -/
theorem addVprintf_given {buf : Evbuffer Unit} {q : Bytes} (h : buf.Holds q) {n : ℕ}
    (hwithin : buf.Within n) (b : UInt8) (hfits : q.length + 67 ≤ n) (hn : n ≤ 2 ^ 60) :
    ∃ buf' res, buf.addVprintf malloc.heap (percentText b) = .ok (buf', res) ∧
      buf'.Holds (q ++ percentText b) ∧ buf'.Within n := by
  have hlength : (percentText b).length = 3 := by
    obtain ⟨d, l, htext, -⟩ := percentText_spec b
    rw [htext]
    rfl
  obtain ⟨buf', res, hadd, hwithin'⟩ := Evbuffer.addVprintf_ok malloc.heap malloc.givesAll_heap h
    hwithin (percentText b) (by omega) (by omega) hn
  obtain ⟨-, ⟨-, hholds, -⟩ | ⟨-, -, hlong | hrefused⟩⟩ :=
    Evbuffer.addVprintf_spec malloc.heap h hadd
  · exact ⟨buf', res, hadd, hholds, hwithin'⟩
  · omega
  · exact absurd malloc.givesAll_heap hrefused

theorem length_encodedByte_le (b : UInt8) : (encodedByte b).length ≤ 3 := by
  unfold encodedByte
  split
  · exact Nat.le_add_left 1 2
  · obtain ⟨d, l, htext, -⟩ := percentText_spec b
    rw [htext]
    exact Nat.le_refl 3

theorem length_encoded_le (uri : Bytes) :
    (uri.flatMap encodedByte).length ≤ 3 * uri.length := by
  induction uri with
  | nil => exact Nat.le_refl 0
  | cons b uri ih =>
    have hlength := length_encodedByte_le b
    rw [List.flatMap_cons, List.length_append, List.length_cons]
    omega

theorem encodeUriLoop_spec (uri : Bytes) {buf : Evbuffer Unit} {q : Bytes} (h : buf.Holds q)
    {n : ℕ} (hwithin : buf.Within n) (hfits : q.length + 67 * uri.length ≤ n) (hn : n ≤ 2 ^ 60) :
    ∃ buf', encodeUriLoop malloc uri buf = .ok buf' ∧
      buf'.Holds (q ++ uri.flatMap encodedByte) ∧ buf'.Within n := by
  induction uri generalizing buf q with
  | nil => exact ⟨buf, rfl, (List.append_nil q).symm ▸ h, hwithin⟩
  | cons b uri ih =>
    rw [List.length_cons] at hfits
    obtain ⟨buf₁, res, hstep, hholds, hwithin₁⟩ : ∃ buf₁ res, (if isUriChar b then
        buf.add malloc.heap [b] else buf.addVprintf malloc.heap (percentText b)) = .ok (buf₁, res) ∧
        buf₁.Holds (q ++ encodedByte b) ∧ buf₁.Within n := by
      unfold encodedByte
      cases hchar : isUriChar b with
      | true => exact add_given malloc h hwithin b (by omega) hn
      | false => exact addVprintf_given malloc h hwithin b (by omega) hn
    have hlength := length_encodedByte_le b
    obtain ⟨buf₂, hloop, hholds₂, hwithin₂⟩ := ih hholds hwithin₁
      (by rw [List.length_append]; omega)
    refine ⟨buf₂, ?_, ?_, hwithin₂⟩
    · rw [encodeUriLoop, hstep, ok_bind]
      exact hloop
    · rwa [List.flatMap_cons, ← List.append_assoc]

theorem zero_notMem_encoded {uri : Bytes} (h : 0 ∉ uri) : 0 ∉ uri.flatMap encodedByte := by
  intro hmem
  obtain ⟨b, hb, hzero⟩ := List.mem_flatMap.mp hmem
  unfold encodedByte at hzero
  split at hzero
  · exact h (List.mem_singleton.mp hzero ▸ hb)
  · obtain ⟨d, l, htext, -, -, -, hd, hl⟩ := percentText_spec b
    rw [htext] at hzero
    rcases List.mem_cons.mp hzero with h0 | hzero
    · cases h0
    · rcases List.mem_cons.mp hzero with h0 | hzero
      · exact hd h0.symm
      · exact hl (List.mem_singleton.mp hzero).symm

theorem evhttpEncodeUri_eq {uri : Bytes} (h : 0 ∉ uri) (hlength : uri.length < 2 ^ 31) :
    evhttpEncodeUri malloc uri = .ok (uri.flatMap encodedByte) := by
  have hencoded : ([] ++ uri.flatMap encodedByte).length ≤ 3 * uri.length :=
    length_encoded_le uri
  obtain ⟨buf₁, hloop, hholds₁, hwithin₁⟩ := encodeUriLoop_spec malloc uri Evbuffer.holds_new
    (n := 67 * uri.length + 67) (Nat.zero_le _) (by rw [List.length_nil]; omega) (by omega)
  obtain ⟨buf₂, res, hadd, hholds₂, -⟩ :=
    add_given malloc hholds₁ hwithin₁ 0 (by omega) (by omega)
  -- The NUL behind the text ends it before what else is in the block.
  obtain ⟨rest, hrest⟩ : ∃ rest,
      buf₂.origBuffer.drop buf₂.buffer = uri.flatMap encodedByte ++ 0 :: rest := by
    refine ⟨(buf₂.origBuffer.drop buf₂.buffer).drop buf₂.off, ?_⟩
    have hdata := hholds₂.data_eq
    rw [slice, ← hholds₂.buffer_eq, List.nil_append] at hdata
    rw [← List.singleton_append, ← List.append_assoc, ← hdata, List.take_append_drop]
  unfold evhttpEncodeUri
  rw [hloop, ok_bind, hadd, ok_bind]
  dsimp only
  rw [hrest, strdup, if_pos (List.mem_append_right _ List.mem_cons_self),
    cstr_append (zero_notMem_encoded h)]
  exact congrArg Except.ok (List.append_nil _)

end Encode

/-! ## What is decoded -/

/-- What is written for a byte, how much of what follows it is passed over, and whether
the query has begun. -/
def decodeHead (inQuery : Bool) (c : UInt8) (rest : Bytes) : UInt8 × ℕ × Bool :=
  if c = 63 then (c, 0, true)
  else if c = 43 ∧ inQuery then (32, 0, inQuery)
  else if c = 37 then
    match rest with
    | h :: l :: _ => if isxdigit h && isxdigit l then (hexByte h l, 2, inQuery) else (c, 0, inQuery)
    | _ => (c, 0, inQuery)
  else (c, 0, inQuery)

/-- What `evhttp_decode_uri_internal` makes of a string. -/
def decodedFrom : ℕ → Bool → Bytes → Bytes
  | _, _, [] => []
  | skip + 1, inQuery, _ :: rest => decodedFrom skip inQuery rest
  | 0, inQuery, c :: rest =>
    (decodeHead inQuery c rest).1 ::
      decodedFrom (decodeHead inQuery c rest).2.1 (decodeHead inQuery c rest).2.2 rest

example : decodedFrom 0 false (bytes "a+b?c+d%21%2") = bytes "a+b?c d!%2" := by decide

theorem decodedFrom_drop (skip : ℕ) (inQuery : Bool) (s : Bytes) :
    decodedFrom skip inQuery s = decodedFrom 0 inQuery (s.drop skip) := by
  induction skip generalizing s with
  | zero => rfl
  | succ skip ih =>
    cases s with
    | nil => rfl
    | cons b s => exact ih s

theorem decodeHead_skip (inQuery : Bool) (c : UInt8) (rest : Bytes) :
    (decodeHead inQuery c rest).2.1 ≤ rest.length := by
  unfold decodeHead
  split
  · exact Nat.zero_le _
  · split
    · exact Nat.zero_le _
    · split
      · split
        · split
          · exact Nat.le_add_left 2 _
          · exact Nat.zero_le _
        · exact Nat.zero_le _
      · exact Nat.zero_le _

section Decode

variable {pre rest : Bytes} {c : UInt8}

theorem byteAt_append (pre : Bytes) (c : UInt8) (rest : Bytes) :
    byteAt (pre ++ c :: rest) pre.length = .ok c := by
  rw [byteAt, List.getElem?_append_right (Nat.le_refl _), Nat.sub_self, List.getElem?_cons_zero]

theorem isxdigit_zero : isxdigit 0 = false := by decide

/-- The second digit is looked at behind a first one only, so never behind the NUL. -/
theorem escapeAt_append (pre : Bytes) (c : UInt8) (rest : Bytes) :
    escapeAt (pre ++ c :: (rest ++ [0])) pre.length = .ok (match rest with
      | h :: l :: _ => if isxdigit h && isxdigit l then some (hexByte h l) else none
      | _ => none) := by
  have hfirst : ∀ d tail, byteAt (pre ++ c :: d :: tail) (pre.length + 1) = .ok d := by
    intro d tail
    have hbyte := byteAt_append (pre ++ [c]) d tail
    rwa [List.length_append, List.length_singleton, List.append_assoc] at hbyte
  have hsecond : ∀ d e tail, byteAt (pre ++ c :: d :: e :: tail) (pre.length + 2) = .ok e := by
    intro d e tail
    have hbyte := byteAt_append (pre ++ [c, d]) e tail
    rwa [List.length_append, List.append_assoc] at hbyte
  unfold escapeAt
  match rest with
  | [] =>
    rw [List.nil_append, hfirst, ok_bind, isxdigit_zero]
    rfl
  | [h] =>
    rw [List.singleton_append, hfirst, ok_bind]
    cases isxdigit h with
    | false => rfl
    | true =>
      rw [if_pos rfl, hsecond, ok_bind, isxdigit_zero]
      rfl
  | h :: l :: rest =>
    rw [List.cons_append, List.cons_append, hfirst, ok_bind]
    dsimp only
    cases isxdigit h with
    | false => rfl
    | true =>
      rw [if_pos rfl, hsecond, ok_bind, Bool.true_and]
      rfl

theorem decodeUriStep_append (pre : Bytes) (c : UInt8) (rest : Bytes) (inQuery : Bool) :
    decodeUriStep (pre ++ c :: (rest ++ [0])) pre.length c inQuery =
      .ok ((decodeHead inQuery c rest).1, pre.length + (decodeHead inQuery c rest).2.1,
        (decodeHead inQuery c rest).2.2) := by
  unfold decodeUriStep decodeHead
  by_cases hquery : c = 63
  · rw [if_pos hquery, if_pos hquery]
    rfl
  rw [if_neg hquery, if_neg hquery]
  by_cases hplus : c = 43 ∧ inQuery
  · rw [if_pos hplus, if_pos hplus]
    rfl
  rw [if_neg hplus, if_neg hplus]
  by_cases hpercent : c = 37
  · rw [if_pos hpercent, if_pos hpercent, escapeAt_append, ok_bind]
    match rest with
    | [] => rfl
    | [h] => rfl
    | h :: l :: rest =>
      dsimp only
      cases isxdigit h && isxdigit l with
      | false => rfl
      | true => rfl
  · rw [if_neg hpercent, if_neg hpercent]
    rfl

/-- The loop writes what the rest of the string gives, and a NUL behind it. -/
theorem decodeUriLoop_spec {uri s : Bytes} {fuel : ℕ} (pre ret : Bytes) (j : ℕ) (inQuery : Bool)
    (huri : uri = pre ++ (s ++ [0])) (hs : 0 ∉ s) (hfuel : s.length < fuel)
    (hroom : j + s.length + 1 ≤ ret.length) :
    ∃ ret', decodeUriLoop uri fuel pre.length j inQuery ret =
        .ok (ret', j + (decodedFrom 0 inQuery s).length) ∧
      slice ret' 0 (j + ((decodedFrom 0 inQuery s).length + 1)) =
        slice ret 0 j ++ (decodedFrom 0 inQuery s ++ [0]) := by
  induction fuel generalizing pre s ret j inQuery with
  | zero => exact absurd hfuel (Nat.not_lt_zero _)
  | succ fuel ih =>
    match s with
    | [] =>
      obtain ⟨ret', hwrite, -, hslice, hkept⟩ := writeBlock_spec ret j [0] hroom
      refine ⟨ret', ?_, ?_⟩
      · rw [decodeUriLoop, huri, List.nil_append, byteAt_append, ok_bind, if_pos rfl, hwrite]
        rfl
      · rw [slice_add, hkept 0 j (by omega), Nat.zero_add]
        exact congrArg (slice ret 0 j ++ ·) hslice
    | c :: rest =>
      have hc : c ≠ 0 := fun h => hs (h ▸ List.mem_cons_self)
      obtain ⟨skip, hskip⟩ : ∃ skip, skip = (decodeHead inQuery c rest).2.1 := ⟨_, rfl⟩
      have hle : skip ≤ rest.length := hskip ▸ decodeHead_skip inQuery c rest
      have hlen : (rest.drop skip).length = rest.length - skip := List.length_drop
      have hhead : (c :: rest).length = rest.length + 1 := List.length_cons
      obtain ⟨ret₁, hwrite, hlen₁, hslice, hkept⟩ :=
        writeBlock_spec ret j [(decodeHead inQuery c rest).1] (by rw [List.length_singleton]; omega)
      -- The next byte to be read stands behind what was passed over.
      have hnext : uri = pre ++ c :: rest.take skip ++ (rest.drop skip ++ [0]) := by
        rw [huri, List.append_assoc, List.cons_append, List.cons_append, ← List.append_assoc,
          List.take_append_drop]
      have hpos : (pre ++ c :: rest.take skip).length = pre.length + skip + 1 := by
        rw [List.length_append, List.length_cons, List.length_take, Nat.min_eq_left hle]
        omega
      obtain ⟨ret', hloop, hout⟩ := ih _ ret₁ (j + 1) (decodeHead inQuery c rest).2.2 hnext
        (fun h => hs (List.mem_cons_of_mem _ (List.mem_of_mem_drop h))) (by omega) (by omega)
      have hdecoded : decodedFrom 0 inQuery (c :: rest) = (decodeHead inQuery c rest).1 ::
          decodedFrom 0 (decodeHead inQuery c rest).2.2 (rest.drop skip) := by
        rw [decodedFrom, ← hskip, decodedFrom_drop]
      refine ⟨ret', ?_, ?_⟩
      · rw [decodeUriLoop, huri, List.cons_append, byteAt_append, ok_bind, if_neg hc,
          decodeUriStep_append, ok_bind]
        dsimp only
        rw [hwrite, ok_bind, ← hskip, ← hpos, ← List.cons_append, ← huri, hloop, hdecoded,
          List.length_cons]
        congr 2
        omega
      · rw [hdecoded, List.length_cons, show ∀ n, j + (n + 1 + 1) = j + 1 + (n + 1) by omega, hout,
          slice_add, hkept 0 j (by omega), Nat.zero_add]
        have hone : slice ret₁ j 1 = [(decodeHead inQuery c rest).1] := hslice
        rw [hone, List.append_assoc]
        rfl

theorem evhttpDecodeUriInternal_spec {uri ret : Bytes} (huri : 0 ∉ uri)
    (hroom : uri.length + 1 ≤ ret.length) (alwaysDecodePlus : Bool) :
    ∃ ret' j, evhttpDecodeUriInternal uri ret alwaysDecodePlus = .ok (ret', j) ∧
      strdup ret' = .ok (cstr (decodedFrom 0 alwaysDecodePlus uri)) := by
  obtain ⟨ret', hloop, hslice⟩ := decodeUriLoop_spec [] ret 0 alwaysDecodePlus rfl huri
    (Nat.lt_succ_self _) (by omega)
  refine ⟨ret', _, hloop, ?_⟩
  rw [Nat.zero_add, slice_zero, List.nil_append] at hslice
  have htext : ret' = decodedFrom 0 alwaysDecodePlus uri ++ [0] ++
      ret'.drop ((decodedFrom 0 alwaysDecodePlus uri).length + 1) := by
    rw [← hslice]
    exact (List.take_append_drop _ _).symm
  have hzero : (0 : UInt8) ∈ decodedFrom 0 alwaysDecodePlus uri ++ [0] :=
    List.mem_append_right _ (List.mem_singleton_self _)
  rw [strdup, htext, if_pos (List.mem_append_left _ hzero), cstr_append_of_mem hzero]
  by_cases hmem : 0 ∈ decodedFrom 0 alwaysDecodePlus uri
  · rw [cstr_append_of_mem hmem]
  · rw [cstr_append hmem, cstr_eq_self hmem]
    exact congrArg Except.ok (List.append_nil _)

theorem evhttpDecodeUri_eq (malloc : Malloc) {uri : Bytes} (huri : 0 ∉ uri) :
    evhttpDecodeUri malloc uri = .ok (cstr (decodedFrom 0 false uri)) := by
  obtain ⟨ret, j, hinternal, hdup⟩ := evhttpDecodeUriInternal_spec huri
    (Nat.le_of_eq (malloc.length_fresh (uri.length + 1)).symm) false
  rw [evhttpDecodeUri, hinternal, ok_bind]
  exact hdup

end Decode

/-! ## Encoded and decoded -/

/-- A plus becomes a space in a query. -/
def plusDecoded (inQuery : Bool) (b : UInt8) : UInt8 := if b = 43 ∧ inQuery then 32 else b

theorem decodedFrom_encodedByte (b : UInt8) (inQuery : Bool) (rest : Bytes) :
    decodedFrom 0 inQuery (encodedByte b ++ rest) =
      plusDecoded inQuery b :: decodedFrom 0 inQuery rest := by
  unfold encodedByte
  cases hchar : isUriChar b with
  | true =>
    obtain ⟨-, hquery, hpercent, -⟩ := isUriChar_plain b hchar
    have hhead : decodeHead inQuery b rest = (plusDecoded inQuery b, 0, inQuery) := by
      unfold decodeHead plusDecoded
      rw [if_neg hquery, if_neg hpercent]
      split <;> rfl
    rw [if_pos rfl, List.singleton_append, decodedFrom, hhead]
  | false =>
    obtain ⟨h, l, htext, hh, hl, hbyte, -, -⟩ := percentText_spec b
    have hhead : decodeHead inQuery 37 (h :: l :: rest) = (b, 2, inQuery) := by
      unfold decodeHead
      rw [if_neg (by decide), if_neg (fun h => absurd h.1 (by decide)), if_pos rfl]
      dsimp only
      rw [hh, hl, Bool.and_self, if_pos rfl, hbyte]
    have hplus : plusDecoded inQuery b = b := by
      refine if_neg fun h => ?_
      rw [h.1] at hchar
      revert hchar
      decide
    rw [if_neg Bool.false_ne_true, htext, List.cons_append, List.cons_append, List.singleton_append,
      decodedFrom, hhead, hplus]
    rfl

theorem decodedFrom_encoded (uri : Bytes) (inQuery : Bool) :
    decodedFrom 0 inQuery (uri.flatMap encodedByte) = uri.map (plusDecoded inQuery) := by
  induction uri with
  | nil => rfl
  | cons b uri ih => rw [List.flatMap_cons, decodedFrom_encodedByte, ih, List.map_cons]

theorem zero_notMem_plusDecoded {uri : Bytes} (h : 0 ∉ uri) (inQuery : Bool) :
    0 ∉ uri.map (plusDecoded inQuery) := by
  intro hmem
  obtain ⟨b, hb, hzero⟩ := List.mem_map.mp hmem
  unfold plusDecoded at hzero
  split at hzero
  · cases hzero
  · exact h (hzero ▸ hb)

/-- A string that is encoded and decoded again is the same string. -/
theorem decodeUri_encodeUri (malloc : Malloc) {uri : Bytes} (h : 0 ∉ uri)
    (hlength : uri.length < 2 ^ 31) :
    (evhttpEncodeUri malloc uri >>= evhttpDecodeUri malloc) = .ok uri := by
  have hplain : uri.map (plusDecoded false) = uri := by
    refine (List.map_congr_left fun b _ => ?_).trans (List.map_id' uri)
    exact if_neg fun h => Bool.false_ne_true h.2
  rw [evhttpEncodeUri_eq malloc h hlength, ok_bind,
    evhttpDecodeUri_eq malloc (zero_notMem_encoded h), decodedFrom_encoded, hplain, cstr_eq_self h]

theorem decodeUri_encodeUri_sample :
    (evhttpEncodeUri .zeroed (bytes "a+b? %") >>= evhttpDecodeUri .zeroed) =
      .ok (bytes "a+b? %") :=
  decodeUri_encodeUri .zeroed (by decide) (by decide)

/-! ## Queries -/

/-- The key and the value in a piece of a query. -/
def argumentOf (argument : Bytes) : Evkeyval :=
  ⟨(strsep argument 61).1, cstr (decodedFrom 0 true ((strsep argument 61).2.getD []))⟩

/-- The arguments of a query: the pieces up to the first one without a `=`. -/
def queryArguments (query : Bytes) : Headers :=
  ((query.splitOn 38).takeWhile (·.contains 61)).map argumentOf

section Query

variable (malloc : Malloc) {headers : Headers}

theorem exists_append_of_mem {del : UInt8} {s : Bytes} (h : del ∈ s) :
    ∃ first rest, s = first ++ del :: rest ∧ del ∉ first := by
  obtain ⟨first, rest, heq, hfirst⟩ := List.eq_append_cons_of_mem h
  exact ⟨first, rest, heq, hfirst⟩

/-- The loop takes the pieces one after the other. -/
theorem parseQueryLoop_spec {fuel : ℕ} {query : Bytes} (hquery : 0 ∉ query)
    (hfuel : query.length + 1 < fuel) :
    parseQueryLoop malloc fuel headers (some query) = .ok (headers ++ queryArguments query) := by
  induction fuel generalizing headers query with
  | zero => exact absurd hfuel (Nat.not_lt_zero _)
  | succ fuel ih =>
    by_cases hnil : query = []
    · subst hnil
      rw [parseQueryLoop]
      exact congrArg Except.ok (List.append_nil headers).symm
    -- The first piece, and the others behind its `&`.
    obtain ⟨argument, after, hsep, hpieces, hzero, hafter⟩ : ∃ argument after,
        strsep query 38 = (argument, after) ∧
        query.splitOn 38 = argument :: (after.map (·.splitOn 38)).getD [] ∧ 0 ∉ argument ∧
        ∀ rest, after = some rest → 0 ∉ rest ∧ rest.length < query.length := by
      by_cases hmem : 38 ∈ query
      · obtain ⟨first, rest, rfl, hfirst⟩ := exists_append_of_mem hmem
        refine ⟨first, some rest, strsep_append hfirst rest,
          List.splitOn_append_cons_self_of_not_mem hfirst rest,
          fun h => hquery (List.mem_append_left _ h), fun other hother => ?_⟩
        obtain rfl := Option.some.inj hother
        refine ⟨fun h => hquery (List.mem_append_right _ (List.mem_cons_of_mem _ h)), ?_⟩
        rw [List.length_append, List.length_cons]
        omega
      · exact ⟨query, none, strsep_of_notMem hmem, List.splitOn_eq_singleton hmem, hquery,
          fun _ h => by cases h⟩
    obtain ⟨c, tail, hcons⟩ := List.exists_cons_of_ne_nil hnil
    rw [queryArguments, hpieces]
    rw [hcons] at hsep ⊢
    rw [parseQueryLoop, hsep]
    swap
    · exact List.cons_ne_nil c tail
    dsimp only
    by_cases hequals : 61 ∈ argument
    · obtain ⟨key, value, rfl, hkey⟩ := exists_append_of_mem hequals
      have hvalue : 0 ∉ value := fun h =>
        hzero (List.mem_append_right _ (List.mem_cons_of_mem _ h))
      obtain ⟨ret, j, hinternal, hdup⟩ := evhttpDecodeUriInternal_spec hvalue
        (Nat.le_of_eq (malloc.length_fresh (value.length + 1)).symm) true
      have hargument : argumentOf (key ++ 61 :: value) = ⟨key, cstr (decodedFrom 0 true value)⟩ := by
        rw [argumentOf, strsep_append hkey]
        rfl
      have htake : ∀ pieces, (((key ++ 61 :: value) :: pieces).takeWhile fun piece : Bytes =>
          piece.contains 61) = (key ++ 61 :: value) :: pieces.takeWhile fun piece =>
          piece.contains 61 := fun pieces =>
        List.takeWhile_cons_of_pos (List.contains_iff_mem.mpr hequals)
      rw [strsep_append hkey, htake, List.map_cons, hargument]
      dsimp only
      rw [hinternal, ok_bind]
      dsimp only
      rw [hdup, ok_bind]
      match after with
      | none =>
        obtain ⟨fuel, rfl⟩ : ∃ n, fuel = n + 1 := ⟨fuel - 1, by omega⟩
        rfl
      | some rest =>
        obtain ⟨hrest, hlen⟩ := hafter rest rfl
        rw [ih hrest (by omega), evhttpAddHeaderInternal, List.append_assoc]
        rfl
    · have htake : ∀ pieces, ((argument :: pieces).takeWhile fun piece : Bytes =>
          piece.contains 61) = [] := fun pieces =>
        List.takeWhile_cons_of_neg fun h => hequals (List.contains_iff_mem.mp h)
      rw [strsep_of_notMem hequals, htake, List.map_nil, List.append_nil]

/-- No query is read past its end or decoded into too little memory, and its arguments
are those before the first piece without a `=`. -/
theorem parseQuery_eq {uri : Bytes} (huri : 0 ∉ uri) :
    evhttpParseQuery malloc uri = .ok (((strsep uri 63).2.map queryArguments).getD []) := by
  unfold evhttpParseQuery
  by_cases hmem : 63 ∈ uri
  · obtain ⟨path, query, rfl, hpath⟩ := exists_append_of_mem hmem
    rw [strsep_append hpath]
    exact parseQueryLoop_spec malloc
      (fun h => huri (List.mem_append_right _ (List.mem_cons_of_mem _ h))) (Nat.lt_succ_self _)
  · rw [strsep_of_notMem hmem]
    rfl

theorem parseQuery_eq_sample : evhttpParseQuery .zeroed (bytes "/?a=1%0&b=c=d+e&f&g=2") =
    .ok (((strsep (bytes "/?a=1%0&b=c=d+e&f&g=2") 63).2.map queryArguments).getD []) :=
  parseQuery_eq .zeroed (by decide)

/-- An argument with its value encoded. -/
def argumentText (header : Evkeyval) : Except Fault Bytes := do
  let value ← evhttpEncodeUri malloc header.value
  return header.key ++ 61 :: value

/-- A key that can stand in a query as it is. -/
def QueryKey (key : Bytes) : Prop := 38 ∉ key ∧ 61 ∉ key ∧ 0 ∉ key

theorem notMem_encoded {b : UInt8} (hchar : isUriChar b = false) (hpercent : ∀ c, b ∉ percentText c)
    (uri : Bytes) : b ∉ uri.flatMap encodedByte := by
  intro hmem
  obtain ⟨c, -, hb⟩ := List.mem_flatMap.mp hmem
  unfold encodedByte at hb
  split at hb
  · next hc =>
    rw [← List.mem_singleton.mp hb, hchar] at hc
    cases hc
  · exact hpercent c hb

theorem amp_notMem_encoded (uri : Bytes) : 38 ∉ uri.flatMap encodedByte :=
  notMem_encoded (by decide) (fun c => forall_byte (P := fun c => 38 ∉ percentText c)
    (by decide +kernel) c) uri

theorem notMem_intercalate {x b : UInt8} {ps : List Bytes} (hb : b ≠ x) (hps : ∀ p ∈ ps, b ∉ p) :
    b ∉ [x].intercalate ps := by
  induction ps with
  | nil => exact List.not_mem_nil
  | cons p ps ih =>
    obtain ⟨hp, hps⟩ := List.forall_mem_cons.mp hps
    by_cases hnil : ps = []
    · rwa [hnil, List.intercalate_singleton]
    · rw [List.intercalate_cons_of_ne_nil hnil, List.mem_append, List.mem_append]
      rintro ((h | h) | h)
      · exact hp h
      · exact hb (List.mem_singleton.mp h)
      · exact ih hps h

theorem queryArguments_encoded {hs : Headers} (hkeys : ∀ header ∈ hs, QueryKey header.key)
    (hvalues : ∀ header ∈ hs, 0 ∉ header.value) :
    queryArguments ([38].intercalate
        (hs.map fun header => header.key ++ 61 :: header.value.flatMap encodedByte)) =
      hs.map fun header => ⟨header.key, header.value.map (plusDecoded true)⟩ := by
  by_cases hnil : hs = []
  · rw [hnil]
    rfl
  have hamp : ∀ piece ∈ hs.map fun header =>
      header.key ++ 61 :: header.value.flatMap encodedByte, 38 ∉ piece := by
    intro piece hpiece
    obtain ⟨header, hmem, rfl⟩ := List.mem_map.mp hpiece
    rw [List.mem_append, List.mem_cons]
    rintro (h | h | h)
    · exact (hkeys header hmem).1 h
    · cases h
    · exact amp_notMem_encoded _ h
  have hpieces := List.splitOn_intercalate 38 hamp fun h => hnil (List.map_eq_nil_iff.mp h)
  have hall : ∀ piece ∈ hs.map fun header =>
      header.key ++ 61 :: header.value.flatMap encodedByte, piece.contains 61 := by
    intro piece hpiece
    obtain ⟨header, -, rfl⟩ := List.mem_map.mp hpiece
    exact List.contains_iff_mem.mpr (List.mem_append_right _ List.mem_cons_self)
  rw [queryArguments, hpieces, List.takeWhile_eq_self_iff.mpr hall, List.map_map]
  refine List.map_congr_left fun header hmem => ?_
  rw [Function.comp_apply, argumentOf, strsep_append (hkeys header hmem).2.1]
  dsimp only
  rw [Option.getD_some, decodedFrom_encoded,
    cstr_eq_self (zero_notMem_plusDecoded (hvalues header hmem) true)]

theorem mapM_argumentText {hs : Headers} (hvalues : ∀ header ∈ hs, 0 ∉ header.value)
    (hlengths : ∀ header ∈ hs, header.value.length < 2 ^ 31) :
    hs.mapM (argumentText malloc) =
      .ok (hs.map fun header => header.key ++ 61 :: header.value.flatMap encodedByte) := by
  induction hs with
  | nil => rfl
  | cons header hs ih =>
    obtain ⟨hvalue, hvalues⟩ := List.forall_mem_cons.mp hvalues
    obtain ⟨hlength, hlengths⟩ := List.forall_mem_cons.mp hlengths
    rw [List.mapM_cons, argumentText, evhttpEncodeUri_eq malloc hvalue hlength, ok_bind,
      ih hvalues hlengths]
    rfl

theorem map_plusDecoded_eq_iff (value : Bytes) :
    value.map (plusDecoded true) = value ↔ 43 ∉ value := by
  have hsame : value.map (plusDecoded true) = value.map id ↔
      ∀ b ∈ value, plusDecoded true b = b := List.map_inj_left
  rw [List.map_id] at hsame
  rw [hsame]
  constructor
  · intro h hmem
    exact absurd (h 43 hmem) (by decide)
  · intro h b hb
    refine if_neg fun hplus => h ?_
    rwa [← hplus.1]

/-- Arguments with encoded values are read back just when there is no plus in a value. -/
theorem parseQuery_encoded_iff {path : Bytes} {hs : Headers} (hpath : 0 ∉ path ∧ 63 ∉ path)
    (hkeys : ∀ header ∈ hs, QueryKey header.key) (hvalues : ∀ header ∈ hs, 0 ∉ header.value)
    (hlengths : ∀ header ∈ hs, header.value.length < 2 ^ 31) :
    (do
      let arguments ← hs.mapM (argumentText malloc)
      evhttpParseQuery malloc (path ++ 63 :: [38].intercalate arguments)) = .ok hs ↔
      ∀ header ∈ hs, 43 ∉ header.value := by
  have huri : 0 ∉ path ++ 63 :: [38].intercalate
      (hs.map fun header => header.key ++ 61 :: header.value.flatMap encodedByte) := by
    rw [List.mem_append, List.mem_cons]
    rintro (h | h | h)
    · exact hpath.1 h
    · cases h
    · refine notMem_intercalate (by decide) (fun piece hpiece => ?_) h
      obtain ⟨header, hmem, rfl⟩ := List.mem_map.mp hpiece
      rw [List.mem_append, List.mem_cons]
      rintro (h | h | h)
      · exact (hkeys header hmem).2.2 h
      · cases h
      · exact zero_notMem_encoded (hvalues header hmem) h
  have hsame : (hs.map fun header => (⟨header.key, header.value.map (plusDecoded true)⟩ : Evkeyval)) =
      hs.map id ↔ ∀ header ∈ hs, ⟨header.key, header.value.map (plusDecoded true)⟩ = header :=
    List.map_inj_left
  rw [List.map_id] at hsame
  rw [mapM_argumentText malloc hvalues hlengths, ok_bind, parseQuery_eq malloc huri,
    strsep_append hpath.2, Option.map_some, Option.getD_some, queryArguments_encoded hkeys hvalues,
    Except.ok.injEq, hsame]
  refine forall₂_congr fun header hmem => ?_
  rw [Evkeyval.mk.injEq, eq_self, true_and, map_plusDecoded_eq_iff]

theorem parseQuery_encoded_iff_sample :
    (do
      let arguments ← [Evkeyval.mk (bytes "q") (bytes "c++ & c")].mapM (argumentText .zeroed)
      evhttpParseQuery .zeroed (bytes "/s" ++ 63 :: [38].intercalate arguments)) =
        .ok [⟨bytes "q", bytes "c++ & c"⟩] ↔
      ∀ header ∈ [Evkeyval.mk (bytes "q") (bytes "c++ & c")], 43 ∉ header.value :=
  parseQuery_encoded_iff .zeroed ⟨by decide, by decide⟩
    (List.forall_mem_singleton.mpr ⟨by decide, by decide, by decide⟩)
    (List.forall_mem_singleton.mpr (by decide)) (List.forall_mem_singleton.mpr (by decide))

end Query

/-! ## Escaped texts -/

/-- What a browser makes of the references that `html_replace` writes, and of other bytes
than `&`. -/
structure ReadsReferences (decode : Bytes → Bytes) : Prop where
  nil : decode [] = []
  plain : ∀ b rest, b ≠ 38 → decode (b :: rest) = b :: decode rest
  lt : ∀ rest, decode (bytes "&lt;" ++ rest) = 60 :: decode rest
  gt : ∀ rest, decode (bytes "&gt;" ++ rest) = 62 :: decode rest
  quot : ∀ rest, decode (bytes "&quot;" ++ rest) = 34 :: decode rest
  apos : ∀ rest, decode (bytes "&#039;" ++ rest) = 39 :: decode rest
  amp : ∀ rest, decode (bytes "&amp;" ++ rest) = 38 :: decode rest

section Escape

variable {decode : Bytes → Bytes}

theorem ReadsReferences.htmlReplace (h : ReadsReferences decode) (ch : UInt8) (rest : Bytes) :
    decode (htmlReplace ch ++ rest) = ch :: decode rest := by
  unfold Http.htmlReplace
  split
  · next hch => rw [h.lt, hch]
  · split
    · next hch => rw [h.gt, hch]
    · split
      · next hch => rw [h.quot, hch]
      · split
        · next hch => rw [h.apos, hch]
        · split
          · next hch => rw [h.amp, hch]
          · next hch => exact h.plain ch rest hch

theorem ReadsReferences.escaped (h : ReadsReferences decode) (html : Bytes) :
    decode (html.flatMap Http.htmlReplace) = html := by
  induction html with
  | nil => exact h.nil
  | cons ch html ih => rw [List.flatMap_cons, h.htmlReplace, ih]

/-- No byte of markup and no quote is left. -/
theorem htmlReplace_plain (ch : UInt8) : ∀ b ∈ htmlReplace ch, b ≠ 60 ∧ b ≠ 34 ∧ b ≠ 39 := by
  refine forall_byte (P := fun ch => ∀ b ∈ htmlReplace ch, b ≠ 60 ∧ b ≠ 34 ∧ b ≠ 39) ?_ ch
  have hcheck : ∀ n < 256, ((htmlReplace (UInt8.ofNat n)).all fun b =>
      b != 60 && b != 34 && b != 39) = true := by decide +kernel
  intro n hn b hb
  have hb := List.all_eq_true.mp (hcheck n hn) b hb
  simp only [Bool.and_eq_true, bne_iff_ne] at hb
  exact ⟨hb.1.1, hb.1.2, hb.2⟩

theorem zero_notMem_htmlReplace (ch : UInt8) : ch ≠ 0 → 0 ∉ htmlReplace ch :=
  forall_byte (P := fun ch => ch ≠ 0 → 0 ∉ htmlReplace ch) (by decide +kernel) ch

/-- Every replacement is copied behind the one before, over its NUL. -/
theorem htmlescapeLoop_spec (html : Bytes) (p : ℕ) (escaped : Bytes)
    (hroom : p + (html.map fun ch => (htmlReplace ch).length).sum + 1 ≤ escaped.length) :
    ∃ escaped', htmlescapeLoop html p escaped =
        .ok (escaped', p + (html.flatMap htmlReplace).length) ∧
      escaped'.length = escaped.length ∧
      slice escaped' 0 (p + (html.flatMap htmlReplace).length) =
        slice escaped 0 p ++ html.flatMap htmlReplace := by
  induction html generalizing p escaped with
  | nil => exact ⟨escaped, rfl, rfl, (List.append_nil _).symm⟩
  | cons ch html ih =>
    rw [List.map_cons, List.sum_cons] at hroom
    obtain ⟨escaped₁, hwrite, hlen, hslice, hkept⟩ :=
      writeBlock_spec escaped p (htmlReplace ch ++ [0])
        (by rw [List.length_append, List.length_singleton]; omega)
    obtain ⟨escaped₂, hloop, hlen₂, hslice₂⟩ :=
      ih (p + (htmlReplace ch).length) escaped₁ (by omega)
    have hcopied : slice escaped₁ p (htmlReplace ch).length = htmlReplace ch := by
      rw [← take_slice (Nat.le_add_right _ [(0 : UInt8)].length), ← List.length_append, hslice,
        List.take_left]
    refine ⟨escaped₂, ?_, hlen₂.trans hlen, ?_⟩
    · rw [htmlescapeLoop, hwrite, ok_bind, hloop, List.flatMap_cons, List.length_append,
        Nat.add_assoc]
    · rw [List.flatMap_cons, List.length_append, ← Nat.add_assoc, hslice₂, slice_add, Nat.zero_add,
        hkept 0 p (by omega), hcopied, List.append_assoc]

theorem evhttpHtmlescape_eq (malloc : Malloc) {html : Bytes} (h : 0 ∉ html) :
    evhttpHtmlescape malloc html = .ok (html.flatMap htmlReplace) := by
  obtain ⟨newSize, hsize⟩ : ∃ newSize,
    newSize = (html.map fun ch => (htmlReplace ch).length).sum := ⟨_, rfl⟩
  have hfresh := malloc.length_fresh (newSize + 1)
  have htotal : (html.flatMap htmlReplace).length = newSize := by
    rw [List.length_flatMap, hsize]
  obtain ⟨escaped, hloop, hlen, hslice⟩ :=
    htmlescapeLoop_spec html 0 (malloc.fresh (newSize + 1)) (by omega)
  obtain ⟨escaped', hwrite, -, hlast, hkept⟩ :=
    writeBlock_spec escaped (0 + (html.flatMap htmlReplace).length) [0]
      (by rw [List.length_singleton]; omega)
  have htext : escaped' = html.flatMap htmlReplace ++ [0] ++
      escaped'.drop (0 + (html.flatMap htmlReplace).length + 1) := by
    have hall : slice escaped' 0 (0 + (html.flatMap htmlReplace).length + 1) =
        html.flatMap htmlReplace ++ [0] := by
      rw [slice_add, Nat.zero_add, hkept 0 _ (by omega), ← hlast]
      rw [slice_zero, List.nil_append] at hslice
      rw [Nat.zero_add] at hslice ⊢
      rw [hslice]
      rfl
    rw [← hall]
    exact (List.take_append_drop _ _).symm
  have hzero : 0 ∉ html.flatMap htmlReplace := by
    intro hmem
    obtain ⟨ch, hch, h0⟩ := List.mem_flatMap.mp hmem
    exact zero_notMem_htmlReplace ch (fun hzero => h (hzero ▸ hch)) h0
  unfold evhttpHtmlescape
  dsimp only
  rw [← hsize, hloop, ok_bind]
  dsimp only
  rw [hwrite, ok_bind, strdup, htext, List.append_assoc, cstr_append hzero,
    if_pos (List.mem_append_right _ (List.mem_append_left _ (List.mem_singleton_self _)))]
  exact congrArg Except.ok (List.append_nil _)

/-- An escaped text stays a text between tags and within the quotes of an attribute, and
the text that is read is the one that was escaped. -/
theorem htmlescape_read (malloc : Malloc) {html : Bytes} (h : 0 ∉ html)
    (hdecode : ReadsReferences decode) :
    ∃ escaped, evhttpHtmlescape malloc html = .ok escaped ∧
      (∀ rest, Html.readFrom .data (escaped ++ rest) =
        escaped.map .char ++ Html.readFrom .data rest) ∧
      (∀ quote, quote = 34 ∨ quote = 39 → ∀ tag rest,
        Html.readFrom (.quoted quote tag) (escaped ++ quote :: rest) =
          Html.readFrom (.beforeAttribute tag) rest) ∧
      decode escaped = html := by
  have hplain : ∀ b ∈ html.flatMap htmlReplace, b ≠ 60 ∧ b ≠ 34 ∧ b ≠ 39 := by
    intro b hb
    obtain ⟨ch, -, hmem⟩ := List.mem_flatMap.mp hb
    exact htmlReplace_plain ch b hmem
  refine ⟨_, evhttpHtmlescape_eq malloc h, fun rest => ?_, fun quote hquote tag rest => ?_,
    hdecode.escaped html⟩
  · generalize html.flatMap htmlReplace = escaped at hplain
    induction escaped with
    | nil => rfl
    | cons b escaped ih =>
      obtain ⟨hb, hplain⟩ := List.forall_mem_cons.mp hplain
      rw [List.cons_append, Html.readFrom_char hb.1, ih hplain]
      rfl
  · refine Html.readFrom_quoted (fun hmem => ?_) tag rest
    rcases hquote with rfl | rfl
    · exact (hplain _ hmem).2.1 rfl
    · exact (hplain _ hmem).2.2 rfl

end Escape

/-- The references of `html_replace`, and what they stand for. -/
def references : List (Bytes × UInt8) :=
  [(bytes "&lt;", 60), (bytes "&gt;", 62), (bytes "&quot;", 34), (bytes "&#039;", 39),
    (bytes "&amp;", 38)]

/-- The references are decoded and nothing else. -/
def unescapeFrom : ℕ → Bytes → Bytes
  | _, [] => []
  | skip + 1, _ :: s => unescapeFrom skip s
  | 0, b :: s =>
    match references.find? fun reference => reference.1.isPrefixOf (b :: s) with
    | some reference => reference.2 :: unescapeFrom (reference.1.length - 1) s
    | none => b :: unescapeFrom 0 s

theorem readsReferences_unescape : ReadsReferences (unescapeFrom 0) where
  nil := rfl
  plain b rest hb := by
    have hamp : (references.all fun reference => reference.1.head? == some 38) = true := by decide
    have hnone : (references.find? fun reference => reference.1.isPrefixOf (b :: rest)) = none := by
      refine List.find?_eq_none.mpr fun reference hmem hprefix => ?_
      obtain ⟨tail, htail⟩ := List.isPrefixOf_iff_prefix.mp hprefix
      have hhead := beq_iff_eq.mp (List.all_eq_true.mp hamp reference hmem)
      have hwhole := congrArg List.head? htail
      rw [List.head?_append, hhead, Option.some_or, List.head?_cons] at hwhole
      exact hb (Option.some.inj hwhole).symm
    rw [unescapeFrom, hnone]
  lt _ := rfl
  gt _ := rfl
  quot _ := rfl
  apos _ := rfl
  amp _ := rfl

theorem htmlescape_read_sample :
    ∃ escaped, evhttpHtmlescape .zeroed (bytes "a<b>&") = .ok escaped ∧
      (∀ rest, Html.readFrom .data (escaped ++ rest) =
        escaped.map .char ++ Html.readFrom .data rest) ∧
      (∀ quote, quote = 34 ∨ quote = 39 → ∀ tag rest,
        Html.readFrom (.quoted quote tag) (escaped ++ quote :: rest) =
          Html.readFrom (.beforeAttribute tag) rest) ∧
      unescapeFrom 0 escaped = bytes "a<b>&" :=
  htmlescape_read .zeroed (by decide) readsReferences_unescape

end SearchTools.Libevent.Http
