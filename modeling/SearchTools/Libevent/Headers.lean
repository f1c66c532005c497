/-
# HTTP headers

The list of headers of `contrib/libevent/http.c`, how it is written out and how it is
read from a buffer. A buffer stands for the bytes it holds.
-/

import SearchTools.Libevent.Evbuffer
import SearchTools.Library.CString
import SearchTools.Library.Html

namespace SearchTools.Libevent.Http

open SearchTools.Library

/-- `struct evkeyval`. -/
structure Evkeyval where
  key : Bytes
  value : Bytes
  deriving DecidableEq, Repr

abbrev Headers := List Evkeyval

/-- `enum message_read_status`. No callback here cancels its request. -/
inductive ReadStatus
  | allDataRead
  | moreDataExpected
  | dataCorrupted
  deriving DecidableEq, Repr

/-- `strsep` for one byte: what stands before it, and what follows it if it occurs. -/
def strsep (line : Bytes) (del : UInt8) : Bytes × Option Bytes :=
  match line.dropWhile (· ≠ del) with
  | [] => (line, none)
  | _ :: rest => (line.takeWhile (· ≠ del), some rest)

/-- `strcasecmp(s, t) == 0`. -/
def strcaseEq (s t : Bytes) : Bool := s.map Html.toLower == t.map Html.toLower

/-- `evhttp_find_header`. -/
def evhttpFindHeader (headers : Headers) (key : Bytes) : Option Bytes :=
  (headers.find? fun header => strcaseEq header.key key).map Evkeyval.value

/-- `evhttp_remove_header`. -/
def evhttpRemoveHeader (headers : Headers) (key : Bytes) : Headers :=
  headers.eraseP fun header => strcaseEq header.key key

/-- The loop of `evhttp_header_is_valid_value`. -/
def headerIsValidFrom : ℕ → Bytes → Bool
  | 0, _ => true
  | fuel + 1, p =>
    match p.dropWhile fun b => !isEol b with
    | [] => true
    | p =>
      match p.dropWhile isEol with
      | [] => false
      | b :: rest => if b ≠ 32 ∧ b ≠ 9 then false else headerIsValidFrom fuel (b :: rest)

/-- `evhttp_header_is_valid_value`. -/
def evhttpHeaderIsValidValue (value : Bytes) : Bool := headerIsValidFrom (value.length + 1) value

/-- `evhttp_add_header_internal`. -/
def evhttpAddHeaderInternal (headers : Headers) (key value : Bytes) : Headers :=
  headers ++ [⟨key, value⟩]

/-- `evhttp_add_header`; nothing for a header that is dropped. -/
def evhttpAddHeader (headers : Headers) (key value : Bytes) : Option Headers :=
  if key.contains 13 || key.contains 10 then none
  else if !evhttpHeaderIsValidValue value then none
  else some (evhttpAddHeaderInternal headers key value)

/-- A call of `evhttp_add_header` whose result is not looked at. -/
def addHeader (headers : Headers) (key value : Bytes) : Headers :=
  (evhttpAddHeader headers key value).getD headers

/-- `evhttp_append_to_last_header`. -/
def evhttpAppendToLastHeader (headers : Headers) (line : Bytes) : Option Headers :=
  match headers.getLast? with
  | none => none
  | some header => some (headers.dropLast ++ [{ header with value := header.value ++ line }])

/-- The body of the loop of `evhttp_parse_headers`: the headers with a line, or the status
that the loop ends with. -/
def parseHeaderLine (headers : Headers) (line : Bytes) : Except ReadStatus Headers :=
  match line with
  | [] => .error .allDataRead
  | b :: _ =>
    if b = 32 ∨ b = 9 then
      match evhttpAppendToLastHeader headers line with
      | none => .error .dataCorrupted
      | some headers => .ok headers
    else
      match strsep line 58 with
      | (_, none) => .error .dataCorrupted
      | (skey, some svalue) =>
        match evhttpAddHeader headers skey (svalue.dropWhile (· == 32)) with
        | none => .error .dataCorrupted
        | some headers => .ok headers

/-- The loop of `evhttp_parse_headers`. -/
def parseHeadersLoop : ℕ → Headers → Bytes → Headers × Bytes × ReadStatus
  | 0, headers, buffer => (headers, buffer, .moreDataExpected)
  | fuel + 1, headers, buffer =>
    match firstLine buffer with
    | none => (headers, buffer, .moreDataExpected)
    | some (line, buffer) =>
      match parseHeaderLine headers (cstr line) with
      | .error status => (headers, buffer, status)
      | .ok headers => parseHeadersLoop fuel headers buffer

/-- `evhttp_parse_headers`. Every pass takes a line, so there are not more of them than
bytes. -/
def evhttpParseHeaders (headers : Headers) (buffer : Bytes) : Headers × Bytes × ReadStatus :=
  parseHeadersLoop (buffer.length + 1) headers buffer

/-- `evutil_snprintf` into `char line[1024]`. -/
def snprintfLine (text : Bytes) : Bytes := text.take 1023

/-- The loop of `evhttp_make_header`. -/
def headerLines (headers : Headers) : Bytes :=
  headers.flatMap fun header => snprintfLine (header.key ++ [58, 32] ++ header.value ++ [13, 10])

example : evhttpParseHeaders [] (bytes "Host: a\r\n b\r\n\r\nx") =
    ([⟨bytes "Host", bytes "a b"⟩], bytes "x", .allDataRead) := by decide

section Parse

variable {headers : Headers} {buffer : Bytes}

theorem parseHeadersLoop_fuel {fuel fuel' : ℕ} (h : buffer.length < fuel)
    (h' : buffer.length < fuel') :
    parseHeadersLoop fuel headers buffer = parseHeadersLoop fuel' headers buffer := by
  induction fuel generalizing fuel' headers buffer with
  | zero => exact absurd h (Nat.not_lt_zero _)
  | succ fuel ih =>
    obtain ⟨fuel', rfl⟩ : ∃ n, fuel' = n + 1 := ⟨fuel' - 1, by omega⟩
    rw [parseHeadersLoop, parseHeadersLoop]
    cases hline : firstLine buffer with
    | none => rfl
    | some pair =>
      have hlen : pair.2.length < buffer.length := length_lt_of_firstLine hline
      dsimp only
      cases parseHeaderLine headers (cstr pair.1) with
      | error status => rfl
      | ok headers => exact ih (by omega) (by omega)

/-- The loop takes one line and goes on. -/
theorem evhttpParseHeaders_of_line {line rest : Bytes} (h : firstLine buffer = some (line, rest)) :
    evhttpParseHeaders headers buffer =
      match parseHeaderLine headers (cstr line) with
      | .error status => (headers, rest, status)
      | .ok headers => evhttpParseHeaders headers rest := by
  have hlen := length_lt_of_firstLine h
  rw [evhttpParseHeaders, parseHeadersLoop, h]
  dsimp only
  cases parseHeaderLine headers (cstr line) with
  | error status => rfl
  | ok headers => exact parseHeadersLoop_fuel hlen (Nat.lt_succ_self _)

theorem evhttpParseHeaders_of_none (h : firstLine buffer = none) :
    evhttpParseHeaders headers buffer = (headers, buffer, .moreDataExpected) := by
  rw [evhttpParseHeaders, parseHeadersLoop, h]

/-- An empty line ends the headers. -/
theorem evhttpParseHeaders_crlf (rest : Bytes) :
    evhttpParseHeaders headers (13 :: 10 :: rest) = (headers, rest, .allDataRead) := by
  have hfirst : firstLine (13 :: 10 :: rest) = some ([], rest) := rfl
  rw [evhttpParseHeaders_of_line hfirst]
  rfl

/-- A line that begins with a blank goes on with the value of the last header. -/
theorem parseHeaderLine_continuation {key value line : Bytes} {b : UInt8}
    (hb : b = 32 ∨ b = 9) :
    parseHeaderLine (headers ++ [⟨key, value⟩]) (b :: line) =
      .ok (headers ++ [⟨key, value ++ b :: line⟩]) := by
  rw [parseHeaderLine, if_pos hb, evhttpAppendToLastHeader, List.getLast?_concat]
  dsimp only
  rw [List.dropLast_concat]

end Parse

/-! ## Line ends in values -/

def isBlank (b : UInt8) : Bool := b == 32 || b == 9

/-- Every run of line ends is followed by a blank. -/
def validEols : Bytes → Bool
  | [] => true
  | c :: post => (!isEol c || (post.dropWhile isEol).head?.any isBlank) && validEols post

/-- Every single line end is followed by a blank. -/
def singleEols : Bytes → Bool
  | [] => true
  | c :: post => (!isEol c || (skipEol c post).head?.any isBlank) && singleEols post

theorem isBlank_iff {b : UInt8} : isBlank b ↔ b = 32 ∨ b = 9 := by
  rw [isBlank, Bool.or_eq_true, beq_iff_eq, beq_iff_eq]

/-- A blank is no line end. -/
theorem isEol_of_isBlank {b : UInt8} (hb : isBlank b) : isEol b = false := by
  rcases isBlank_iff.mp hb with rfl | rfl <;> rfl

theorem validEols_append {seg : Bytes} (hseg : ∀ b ∈ seg, isEol b = false) (post : Bytes) :
    validEols (seg ++ post) = validEols post := by
  induction seg with
  | nil => rfl
  | cons b seg ih =>
    obtain ⟨hb, hseg⟩ := List.forall_mem_cons.mp hseg
    rw [List.cons_append, validEols, hb, ih hseg]
    rfl

theorem singleEols_append {seg : Bytes} (hseg : ∀ b ∈ seg, isEol b = false) (post : Bytes) :
    singleEols (seg ++ post) = singleEols post := by
  induction seg with
  | nil => rfl
  | cons b seg ih =>
    obtain ⟨hb, hseg⟩ := List.forall_mem_cons.mp hseg
    rw [List.cons_append, singleEols, hb, ih hseg]
    rfl

/-- In a run of line ends the last one decides. -/
theorem validEols_dropWhile {run : Bytes} (hrun : (run.dropWhile isEol).head?.any isBlank) :
    validEols run = validEols (run.dropWhile isEol) := by
  induction run with
  | nil => rfl
  | cons c run ih =>
    by_cases hc : isEol c = true
    · rw [List.dropWhile_cons_of_pos hc] at hrun ⊢
      rw [validEols, hrun, Bool.or_true, Bool.true_and, ih hrun]
    · rw [List.dropWhile_cons_of_neg hc]

/-- A value by its first line end. -/
theorem eol_cases (value : Bytes) :
    (∀ b ∈ value, isEol b = false) ∨
    ∃ seg c post, value = seg ++ c :: post ∧ (∀ b ∈ seg, isEol b = false) ∧ isEol c := by
  induction value with
  | nil => exact Or.inl fun b hb => absurd hb List.not_mem_nil
  | cons b value ih =>
    cases hb : isEol b with
    | true => exact Or.inr ⟨[], b, value, rfl, fun b hb => absurd hb List.not_mem_nil, hb⟩
    | false =>
      rcases ih with hnone | ⟨seg, c, post, rfl, hseg, hc⟩
      · exact Or.inl (List.forall_mem_cons.mpr ⟨hb, hnone⟩)
      · exact Or.inr ⟨b :: seg, c, post, rfl, List.forall_mem_cons.mpr ⟨hb, hseg⟩, hc⟩

theorem dropWhile_not_isEol {seg : Bytes} (hseg : ∀ b ∈ seg, isEol b = false) (rest : Bytes) :
    (seg ++ rest).dropWhile (fun b => !isEol b) = rest.dropWhile fun b => !isEol b := by
  refine List.dropWhile_append_of_pos fun b hb => ?_
  rw [hseg b hb]
  rfl

/-- What `evhttp_header_is_valid_value` decides. -/
theorem headerIsValidFrom_eq {fuel : ℕ} {value : Bytes} (hfuel : value.length < fuel) :
    headerIsValidFrom fuel value = validEols value := by
  induction fuel generalizing value with
  | zero => exact absurd hfuel (Nat.not_lt_zero _)
  | succ fuel ih =>
    rcases eol_cases value with hnone | ⟨seg, c, post, rfl, hseg, hc⟩
    · have hdrop := dropWhile_not_isEol hnone []
      have hvalid := validEols_append hnone []
      rw [List.append_nil] at hdrop hvalid
      rw [headerIsValidFrom, hdrop, hvalid]
      rfl
    · have hdrop : (seg ++ c :: post).dropWhile (fun b => !isEol b) = c :: post := by
        rw [dropWhile_not_isEol hseg, List.dropWhile_cons_of_neg (by rw [hc]; decide)]
      rw [headerIsValidFrom, hdrop, validEols_append hseg]
      dsimp only
      rw [List.dropWhile_cons_of_pos hc, validEols, hc]
      cases hpost : post.dropWhile isEol with
      | nil => rfl
      | cons b rest =>
        have hlen : (b :: rest).length ≤ post.length := hpost ▸ (post.dropWhile_suffix isEol).length_le
        cases hb : isBlank b with
        | false =>
          have hne : b ≠ 32 ∧ b ≠ 9 := by
            rw [← not_or, ← isBlank_iff, hb]
            exact Bool.false_ne_true
          dsimp only
          rw [if_pos hne, List.head?_cons, Option.any_some, hb]
          rfl
        | true =>
          have hne : ¬ (b ≠ 32 ∧ b ≠ 9) := by
            rw [← not_or, ← isBlank_iff, hb]
            exact fun h => h rfl
          have hrun : (post.dropWhile isEol).head?.any isBlank := by
            rw [hpost, List.head?_cons, Option.any_some, hb]
          dsimp only
          rw [if_neg hne, ih (by simp only [List.length_append, List.length_cons] at *; omega),
            validEols_dropWhile hrun, hpost, List.head?_cons, Option.any_some, hb]
          rfl

theorem evhttpHeaderIsValidValue_eq (value : Bytes) :
    evhttpHeaderIsValidValue value = validEols value :=
  headerIsValidFrom_eq (Nat.lt_succ_self _)

/-! ## Reading values that go over several lines -/

/-- The value without its line ends, and without the spaces it begins with. -/
def unfoldValue (value : Bytes) : Bytes :=
  (value.takeWhile fun b => !isEol b).dropWhile (· == 32) ++
    (value.dropWhile fun b => !isEol b).filter fun b => !isEol b

section Folded

variable {headers : Headers} {key old value tail : Bytes}

theorem ne_nil_of_head?_any {p : UInt8 → Bool} {s : Bytes} (h : s.head?.any p) : s ≠ [] := by
  rintro rfl
  cases h

theorem filter_not_isEol {seg : Bytes} (hseg : ∀ b ∈ seg, isEol b = false) :
    seg.filter (fun b => !isEol b) = seg :=
  List.filter_eq_self.mpr fun b hb => by rw [hseg b hb]; rfl

theorem singleEols_cons {c : UInt8} {post : Bytes} (hc : isEol c) :
    singleEols (c :: post) = ((skipEol c post).head?.any isBlank && singleEols post) := by
  rw [singleEols, hc]
  rfl

/-- The second byte of a line end changes nothing. -/
theorem singleEols_skipEol {c : UInt8} {post : Bytes} (h : (skipEol c post).head?.any isBlank) :
    singleEols (skipEol c post) = singleEols post := by
  cases post with
  | nil => rfl
  | cons d post =>
    rw [skipEol] at h ⊢
    split at h
    · next hd =>
      rw [Bool.and_eq_true] at hd
      rw [if_pos (by rw [Bool.and_eq_true]; exact hd), singleEols_cons hd.1]
      obtain ⟨b, post, rfl⟩ := List.exists_cons_of_ne_nil (ne_nil_of_head?_any h)
      rw [skipEol, isEol_of_isBlank h, Bool.false_and, if_neg Bool.false_ne_true, h, Bool.true_and]
    · next hd => rw [if_neg hd]

theorem filter_skipEol {c : UInt8} {post : Bytes} :
    (skipEol c post).filter (fun b => !isEol b) = post.filter fun b => !isEol b := by
  cases post with
  | nil => rfl
  | cons d post =>
    rw [skipEol]
    split
    · next hd =>
      rw [Bool.and_eq_true] at hd
      rw [List.filter_cons_of_neg]
      rw [hd.1]
      exact Bool.false_ne_true
    · rfl

theorem notMem_skipEol {c : UInt8} {post : Bytes} (h : 0 ∉ post) : 0 ∉ skipEol c post := by
  cases post with
  | nil => exact h
  | cons d post =>
    rw [skipEol]
    split
    · exact fun hmem => h (List.mem_cons_of_mem _ hmem)
    · exact h

theorem skipEol_suffix (c : UInt8) (post : Bytes) : skipEol c post <:+ post := by
  cases post with
  | nil => exact List.suffix_refl _
  | cons d post =>
    rw [skipEol]
    split
    · exact List.suffix_cons d post
    · exact List.suffix_refl _

theorem length_skipEol_le (c : UInt8) (post : Bytes) :
    (skipEol c post).length ≤ post.length := (skipEol_suffix c post).length_le

/-- The line that is read first, and the blank that the next one begins with. -/
theorem firstLine_of_single {seg : Bytes} (hseg : ∀ b ∈ seg, isEol b = false) {c : UInt8}
    (hc : isEol c) {post : Bytes} (hpost : (skipEol c post).head?.any isBlank) (tail : Bytes) :
    firstLine (seg ++ c :: post ++ tail) = some (seg, skipEol c post ++ tail) := by
  have hne : post ≠ [] := by
    rintro rfl
    cases hpost
  rw [List.append_assoc, List.cons_append, firstLine_eol hseg hc,
    skipEol_append_of_ne_nil c hne]

/-- Lines that begin with blanks are put together. -/
theorem parse_continuations (hsingle : singleEols value) (hzero : 0 ∉ value)
    (hhead : value.head?.any isBlank) :
    evhttpParseHeaders (headers ++ [⟨key, old⟩]) (value ++ 13 :: 10 :: tail) =
      evhttpParseHeaders (headers ++ [⟨key, old ++ value.filter fun b => !isEol b⟩]) tail := by
  induction hn : value.length using Nat.strongRecOn generalizing value old with
  | ind n ih =>
    obtain ⟨b, rest, rfl⟩ := List.exists_cons_of_ne_nil (ne_nil_of_head?_any hhead)
    have hblank := isBlank_iff.mp hhead
    rcases eol_cases (b :: rest) with hnone | ⟨seg, c, post, heq, hseg, hc⟩
    · rw [evhttpParseHeaders_of_line (firstLine_crlf hnone tail), cstr_eq_self hzero,
        parseHeaderLine_continuation hblank, filter_not_isEol hnone]
    · have hb := isEol_of_isBlank hhead
      obtain ⟨seg, rfl⟩ : ∃ seg', seg = b :: seg' := by
        cases seg with
        | nil =>
          rw [← (List.cons.inj heq).1, hb] at hc
          cases hc
        | cons d seg => exact ⟨seg, by rw [(List.cons.inj heq).1]⟩
      rw [heq, singleEols_append hseg, singleEols_cons hc, Bool.and_eq_true] at hsingle
      rw [heq] at hzero
      have hseg0 : 0 ∉ b :: seg := fun h => hzero (List.mem_append_left _ h)
      have hpost0 : 0 ∉ post := fun h =>
        hzero (List.mem_append_right _ (List.mem_cons_of_mem _ h))
      have hlen : (skipEol c post).length < n := by
        have := length_skipEol_le c post
        rw [← hn, heq, List.length_append, List.length_cons, List.length_cons]
        omega
      rw [heq, evhttpParseHeaders_of_line (firstLine_of_single hseg hc hsingle.1 _),
        cstr_eq_self hseg0, parseHeaderLine_continuation hblank]
      dsimp only
      rw [ih _ hlen ((singleEols_skipEol hsingle.1).trans hsingle.2) (notMem_skipEol hpost0) hsingle.1 rfl,
        filter_skipEol, List.filter_append, filter_not_isEol hseg,
        List.filter_cons_of_neg (by rw [hc]; exact Bool.false_ne_true), ← List.append_assoc]

theorem strsep_append {s : Bytes} {del : UInt8} (hs : del ∉ s) (rest : Bytes) :
    strsep (s ++ del :: rest) del = (s, some rest) := by
  have hpos : ∀ b ∈ s, (decide (b ≠ del)) = true := fun b hb =>
    decide_eq_true fun h => hs (h ▸ hb)
  have hneg : ¬ decide (del ≠ del) = true := fun h => of_decide_eq_true h rfl
  have hdrop : (s ++ del :: rest).dropWhile (· ≠ del) = del :: rest := by
    rw [List.dropWhile_append_of_pos hpos]
    exact List.dropWhile_cons_of_neg hneg
  have htake : (s ++ del :: rest).takeWhile (· ≠ del) = s ++ [] := by
    rw [List.takeWhile_append_of_pos hpos]
    exact congrArg (s ++ ·) (List.takeWhile_cons_of_neg hneg)
  rw [strsep, hdrop]
  dsimp only
  rw [htake, List.append_nil]

theorem strsep_of_notMem {s : Bytes} {del : UInt8} (hs : del ∉ s) : strsep s del = (s, none) := by
  have hdrop : s.dropWhile (· ≠ del) = [] :=
    List.dropWhile_eq_nil_iff.mpr fun b hb => decide_eq_true fun h => hs (h ▸ hb)
  rw [strsep, hdrop]

/-- A key that can stand at the beginning of a header line. -/
structure KeyOk (key : Bytes) : Prop where
  plain : ∀ b ∈ key, isEol b = false ∧ b ≠ 58 ∧ b ≠ 0
  head : ∀ b ∈ key.head?, ¬ isBlank b

theorem evhttpAddHeader_of_valid (hkey : KeyOk key) (hvalue : validEols value) :
    evhttpAddHeader headers key value = some (headers ++ [⟨key, value⟩]) := by
  have hcontains : ∀ c : UInt8, isEol c → key.contains c = false := fun c hc => by
    rw [List.contains_eq_mem, decide_eq_false_iff_not]
    intro hmem
    rw [(hkey.plain c hmem).1] at hc
    cases hc
  rw [evhttpAddHeader, hcontains 13 rfl, hcontains 10 rfl, evhttpHeaderIsValidValue_eq, hvalue]
  rfl

theorem validEols_of_line (hvalue : ∀ b ∈ value, isEol b = false) : validEols value := by
  rw [← List.append_nil value, validEols_append hvalue]
  rfl

theorem singleEols_of_line (hvalue : ∀ b ∈ value, isEol b = false) : singleEols value := by
  rw [← List.append_nil value, singleEols_append hvalue]
  rfl

/-- The first line of a header. -/
theorem parseHeaderLine_key (hkey : KeyOk key) (hvalue : ∀ b ∈ value, isEol b = false) :
    parseHeaderLine headers (key ++ [58, 32] ++ value) =
      .ok (headers ++ [⟨key, value.dropWhile (· == 32)⟩]) := by
  have hsep : strsep (key ++ [58, 32] ++ value) 58 = (key, some (32 :: value)) := by
    rw [List.append_assoc]
    exact strsep_append (fun h => (hkey.plain 58 h).2.1 rfl) (32 :: value)
  have hadd : evhttpAddHeader headers key (value.dropWhile (· == 32)) =
      some (headers ++ [⟨key, value.dropWhile (· == 32)⟩]) :=
    evhttpAddHeader_of_valid hkey
      (validEols_of_line fun b hb => hvalue b ((List.dropWhile_suffix _).subset hb))
  obtain ⟨b, rest, hcons, hb⟩ : ∃ b rest, key ++ [58, 32] ++ value = b :: rest ∧ ¬ isBlank b := by
    cases key with
    | nil => exact ⟨58, 32 :: value, rfl, by decide⟩
    | cons b key => exact ⟨b, key ++ [58, 32] ++ value, rfl, hkey.head b rfl⟩
  rw [isBlank_iff] at hb
  rw [hcons] at hsep ⊢
  rw [parseHeaderLine, if_neg hb, hsep]
  dsimp only
  rw [List.dropWhile_cons_of_pos (by decide), hadd]

theorem isEol_key (hkey : KeyOk key) {b : UInt8} (hb : b ∈ key ++ [58, 32]) : isEol b = false := by
  rcases List.mem_append.mp hb with hb | hb
  · exact (hkey.plain b hb).1
  · rcases List.mem_cons.mp hb with rfl | hb
    · rfl
    · rw [List.mem_singleton.mp hb]
      rfl

theorem zero_notMem_key (hkey : KeyOk key) : (0 : UInt8) ∉ key ++ [58, 32] := by
  intro h
  rcases List.mem_append.mp h with h | h
  · exact (hkey.plain 0 h).2.2 rfl
  · revert h
    decide

/-- A header is read back, its value on one line. -/
theorem parse_header (hkey : KeyOk key) (hsingle : singleEols value) (hzero : 0 ∉ value) :
    evhttpParseHeaders headers (key ++ [58, 32] ++ value ++ 13 :: 10 :: tail) =
      evhttpParseHeaders (headers ++ [⟨key, unfoldValue value⟩]) tail := by
  have hkey0 := zero_notMem_key hkey
  rcases eol_cases value with hnone | ⟨seg, c, post, rfl, hseg, hc⟩
  · have hline : ∀ b ∈ key ++ [58, 32] ++ value, isEol b = false := fun b hb =>
      (List.mem_append.mp hb).elim (isEol_key hkey) (hnone b)
    have htake : value.takeWhile (fun b => !isEol b) = value :=
      List.takeWhile_eq_self_iff.mpr fun b hb => by rw [hnone b hb]; rfl
    have hdrop : value.dropWhile (fun b => !isEol b) = [] :=
      List.dropWhile_eq_nil_iff.mpr fun b hb => by rw [hnone b hb]; rfl
    rw [evhttpParseHeaders_of_line (firstLine_crlf hline tail),
      cstr_eq_self fun h => (List.mem_append.mp h).elim hkey0 hzero,
      parseHeaderLine_key hkey hnone, unfoldValue, htake, hdrop]
    dsimp only
    rw [List.filter_nil, List.append_nil]
  · rw [singleEols_append hseg, singleEols_cons hc, Bool.and_eq_true] at hsingle
    have hseg0 : 0 ∉ seg := fun h => hzero (List.mem_append_left _ h)
    have hpost0 : 0 ∉ post := fun h =>
      hzero (List.mem_append_right _ (List.mem_cons_of_mem _ h))
    have hline : ∀ b ∈ key ++ [58, 32] ++ seg, isEol b = false := fun b hb =>
      (List.mem_append.mp hb).elim (isEol_key hkey) (hseg b)
    have hpos : ∀ b ∈ seg, (!isEol b) = true := fun b hb => by rw [hseg b hb]; rfl
    have hneg : ¬ (!isEol c) = true := by rw [hc]; exact Bool.false_ne_true
    have htake : (seg ++ c :: post).takeWhile (fun b => !isEol b) = seg := by
      rw [List.takeWhile_append_of_pos hpos, List.takeWhile_cons_of_neg (p := fun b => !isEol b) hneg,
        List.append_nil]
    have hdrop : (seg ++ c :: post).dropWhile (fun b => !isEol b) = c :: post := by
      rw [List.dropWhile_append_of_pos hpos, List.dropWhile_cons_of_neg (p := fun b => !isEol b) hneg]
    have hassoc : key ++ [58, 32] ++ (seg ++ c :: post) ++ 13 :: 10 :: tail =
        key ++ [58, 32] ++ seg ++ c :: post ++ 13 :: 10 :: tail := by
      simp only [List.append_assoc]
    rw [hassoc, evhttpParseHeaders_of_line (firstLine_of_single hline hc hsingle.1 _),
      cstr_eq_self fun h => (List.mem_append.mp h).elim hkey0 hseg0,
      parseHeaderLine_key hkey hseg]
    dsimp only
    rw [parse_continuations ((singleEols_skipEol hsingle.1).trans hsingle.2) (notMem_skipEol hpost0) hsingle.1,
      filter_skipEol, unfoldValue, htake, hdrop,
      List.filter_cons_of_neg (p := fun b => !isEol b) hneg]

theorem dropWhile_skipEol (c : UInt8) (post : Bytes) :
    (skipEol c post).dropWhile isEol = post.dropWhile isEol := by
  cases post with
  | nil => rfl
  | cons d post =>
    rw [skipEol]
    split
    · next hd =>
      rw [Bool.and_eq_true] at hd
      rw [List.dropWhile_cons_of_pos hd.1]
    · rfl

theorem validEols_skipEol {c : UInt8} {post : Bytes} (h : validEols post) :
    validEols (skipEol c post) := by
  cases post with
  | nil => rfl
  | cons d post =>
    rw [skipEol]
    split
    · rw [validEols, Bool.and_eq_true] at h
      exact h.2
    · exact h

/-- Behind a line end of a value stands a blank, or another line end with something of the
value behind it. -/
theorem skipEol_cases {post : Bytes} (hvalid : (post.dropWhile isEol).head?.any isBlank)
    (c : UInt8) : ∃ b rest, skipEol c post = b :: rest ∧
      (isBlank b = true ∨ isBlank b = false ∧ isEol b = true ∧ skipEol b rest ≠ []) := by
  have hne : ∀ later : Bytes, later.dropWhile isEol = post.dropWhile isEol → later ≠ [] := by
    rintro later hrun rfl
    rw [← hrun] at hvalid
    cases hvalid
  have hrun := dropWhile_skipEol c post
  obtain ⟨b, rest, hrest⟩ := List.exists_cons_of_ne_nil (hne _ hrun)
  rw [hrest] at hrun
  refine ⟨b, rest, hrest, ?_⟩
  cases hb : isBlank b with
  | true => exact Or.inl rfl
  | false =>
    cases hbEol : isEol b with
    | false =>
      rw [List.dropWhile_cons_of_neg (by rw [hbEol]; exact Bool.false_ne_true)] at hrun
      rw [← hrun, List.head?_cons, Option.any_some, hb] at hvalid
      cases hvalid
    | true =>
      rw [List.dropWhile_cons_of_pos hbEol] at hrun
      exact Or.inr ⟨rfl, rfl, hne _ ((dropWhile_skipEol b rest).trans hrun)⟩

/-- Two line ends behind one another end the headers, and the rest of the value stays. -/
theorem parse_double (headers : Headers) (tail : Bytes) {start : Bytes} {others : Headers}
    (hstart : ∀ b ∈ start, isEol b = false) (hstart0 : 0 ∉ start)
    (hline : ∀ seg, (∀ b ∈ seg, isEol b = false) → ∃ old,
      parseHeaderLine headers (start ++ seg) = .ok (others ++ [⟨key, old⟩]))
    (hvalid : validEols value) (hdouble : singleEols value = false) (hzero : 0 ∉ value) :
    ∃ old rest, rest ≠ [] ∧ rest <:+ value ∧
      evhttpParseHeaders headers (start ++ value ++ 13 :: 10 :: tail) =
        (others ++ [⟨key, old⟩], rest ++ 13 :: 10 :: tail, .allDataRead) := by
  induction hn : value.length using Nat.strongRecOn generalizing value headers start with
  | ind n ih =>
    rcases eol_cases value with hnone | ⟨seg, c, post, rfl, hseg, hc⟩
    · have hsingle := singleEols_append hnone []
      rw [List.append_nil, hdouble] at hsingle
      cases hsingle
    have hseg0 : 0 ∉ seg := fun h => hzero (List.mem_append_left _ h)
    have hpost0 : 0 ∉ post := fun h =>
      hzero (List.mem_append_right _ (List.mem_cons_of_mem _ h))
    rw [validEols_append hseg, validEols, hc, Bool.not_true, Bool.false_or,
      Bool.and_eq_true] at hvalid
    rw [singleEols_append hseg, singleEols_cons hc] at hdouble
    obtain ⟨b, rest, hrest, hnext⟩ := skipEol_cases hvalid.1 c
    have hpost : post ≠ [] := by
      rintro rfl
      cases hvalid.1
    have hfirst : firstLine (start ++ (seg ++ c :: post) ++ 13 :: 10 :: tail) =
        some (start ++ seg, b :: rest ++ 13 :: 10 :: tail) := by
      have hassoc : start ++ (seg ++ c :: post) ++ 13 :: 10 :: tail =
          start ++ seg ++ c :: (post ++ 13 :: 10 :: tail) := by
        simp only [List.append_assoc, List.cons_append]
      rw [hassoc, firstLine_eol (fun b hb => (List.mem_append.mp hb).elim (hstart b) (hseg b)) hc,
        skipEol_append_of_ne_nil c hpost, hrest]
    obtain ⟨old, hparse⟩ := hline seg hseg
    rw [evhttpParseHeaders_of_line hfirst,
      cstr_eq_self fun h => (List.mem_append.mp h).elim hstart0 hseg0, hparse]
    dsimp only
    have hsuffix : b :: rest <:+ seg ++ c :: post := by
      rw [← hrest]
      exact (skipEol_suffix c post).trans ((List.suffix_cons c post).trans (List.suffix_append _ _))
    rcases hnext with hb | ⟨hb, hbEol, hne⟩
    · -- The value goes on.
      have hbEol : ∀ d ∈ [b], isEol d = false :=
        List.forall_mem_singleton.mpr (isEol_of_isBlank hb)
      have hvalidRest := validEols_skipEol (c := c) hvalid.2
      have hzeroRest := notMem_skipEol (c := c) hpost0
      have hdoubleRest : singleEols rest = false := by
        have hsame : singleEols (skipEol c post) = singleEols post :=
          singleEols_skipEol (by rw [hrest]; exact hb)
        rw [← hsame, hrest, List.head?_cons, Option.any_some, hb, Bool.true_and] at hdouble
        exact (singleEols_append hbEol rest).symm.trans hdouble
      rw [hrest] at hvalidRest hzeroRest
      have hlt : rest.length < n := by
        have hlen := length_skipEol_le c post
        rw [hrest, List.length_cons] at hlen
        simp only [List.length_append, List.length_cons] at hn
        omega
      obtain ⟨old', rest', hne', hrest', hparse'⟩ :=
        ih rest.length hlt (others ++ [⟨key, old⟩]) hbEol
          (fun h => hzeroRest (List.mem_singleton.mp h ▸ List.mem_cons_self))
          (fun seg _ => ⟨_, parseHeaderLine_continuation (isBlank_iff.mp hb)⟩)
          ((validEols_append hbEol rest).symm.trans hvalidRest) hdoubleRest
          (fun h => hzeroRest (List.mem_cons_of_mem _ h)) rfl
      exact ⟨old', rest', hne', hrest'.trans ((List.suffix_cons b rest).trans hsuffix), hparse'⟩
    · -- The next line is empty.
      refine ⟨old, skipEol b rest, hne,
        (skipEol_suffix b rest).trans ((List.suffix_cons b rest).trans hsuffix), ?_⟩
      have hrestNe : rest ≠ [] := by
        rintro rfl
        exact hne rfl
      have hempty : firstLine (b :: rest ++ 13 :: 10 :: tail) =
          some ([], skipEol b rest ++ 13 :: 10 :: tail) := by
        rw [List.cons_append, firstLine, if_pos hbEol, skipEol_append_of_ne_nil b hrestNe]
      rw [evhttpParseHeaders_of_line hempty]
      rfl

end Folded

/-! ## Writing headers and reading them -/

/-- A header that `evhttp_add_header` takes and that fits into a line. -/
structure Evkeyval.Sendable (header : Evkeyval) : Prop where
  key_ok : KeyOk header.key
  valid : validEols header.value
  value_zero : 0 ∉ header.value
  fits : header.key.length + header.value.length + 4 ≤ 1023

/-- A header as it is read back. -/
def Evkeyval.unfold (header : Evkeyval) : Evkeyval :=
  { header with value := unfoldValue header.value }

section RoundTrip

variable {headers hs : Headers} {tail : Bytes}

theorem headerLines_cons {header : Evkeyval} (h : header.Sendable) (hs : Headers) :
    headerLines (header :: hs) =
      header.key ++ [58, 32] ++ header.value ++ 13 :: 10 :: headerLines hs := by
  have hlen := h.fits
  have hcons : headerLines (header :: hs) =
      snprintfLine (header.key ++ [58, 32] ++ header.value ++ [13, 10]) ++ headerLines hs :=
    List.flatMap_cons
  rw [hcons, snprintfLine, List.take_of_length_le]
  · simp only [List.append_assoc, List.cons_append, List.nil_append]
  · simp only [List.length_append, List.length_cons, List.length_nil]
    omega

/-- Headers with single line ends are read back. -/
theorem parse_headerLines (headers hs : Headers) (tail : Bytes)
    (hsend : ∀ header ∈ hs, header.Sendable)
    (hsingle : ∀ header ∈ hs, singleEols header.value) :
    evhttpParseHeaders headers (headerLines hs ++ 13 :: 10 :: tail) =
      (headers ++ hs.map Evkeyval.unfold, tail, .allDataRead) := by
  induction hs generalizing headers with
  | nil =>
    rw [List.map_nil, List.append_nil]
    exact evhttpParseHeaders_crlf tail
  | cons header hs ih =>
    obtain ⟨hheader, hsend⟩ := List.forall_mem_cons.mp hsend
    obtain ⟨hone, hsingle⟩ := List.forall_mem_cons.mp hsingle
    rw [headerLines_cons hheader, List.append_assoc, List.cons_append, List.cons_append,
      parse_header hheader.key_ok hone hheader.value_zero, ih _ hsend hsingle, List.map_cons,
      List.append_assoc]
    rfl

/-- Headers with a double line end are cut off there: the rest of the value and the headers
behind it stay in the buffer. -/
theorem parse_headerLines_cut (headers hs : Headers) (tail : Bytes)
    (hsend : ∀ header ∈ hs, header.Sendable)
    (hdouble : ¬ ∀ header ∈ hs, singleEols header.value) :
    ∃ before header after old rest, hs = before ++ header :: after ∧
      (∀ other ∈ before, singleEols other.value) ∧ ¬ singleEols header.value ∧
      rest ≠ [] ∧ rest <:+ header.value ∧
      evhttpParseHeaders headers (headerLines hs ++ 13 :: 10 :: tail) =
        (headers ++ before.map Evkeyval.unfold ++ [⟨header.key, old⟩],
          rest ++ 13 :: 10 :: (headerLines after ++ 13 :: 10 :: tail), .allDataRead) := by
  induction hs generalizing headers with
  | nil => exact absurd (fun _ hmem => absurd hmem List.not_mem_nil) hdouble
  | cons header hs ih =>
    obtain ⟨hheader, hsend⟩ := List.forall_mem_cons.mp hsend
    rw [headerLines_cons hheader, List.append_assoc, List.cons_append, List.cons_append]
    cases hone : singleEols header.value with
    | true =>
      rw [parse_header hheader.key_ok hone hheader.value_zero]
      obtain ⟨before, other, after, old, rest, rfl, hbefore, hother, hne, hrest, hparse⟩ :=
        ih (headers ++ [header.unfold]) hsend fun hall =>
          hdouble (List.forall_mem_cons.mpr ⟨hone, hall⟩)
      refine ⟨header :: before, other, after, old, rest, rfl,
        List.forall_mem_cons.mpr ⟨hone, hbefore⟩, hother, hne, hrest, ?_⟩
      rw [← Evkeyval.unfold, hparse, List.map_cons]
      simp only [List.append_assoc, List.cons_append, List.nil_append]
    | false =>
      obtain ⟨old, rest, hne, hrest, hparse⟩ := parse_double headers
        (headerLines hs ++ 13 :: 10 :: tail)
        (fun b hb => isEol_key hheader.key_ok hb) (zero_notMem_key hheader.key_ok)
        (fun seg hseg => ⟨_, parseHeaderLine_key hheader.key_ok hseg⟩)
        hheader.valid hone hheader.value_zero
      refine ⟨[], header, hs, old, rest, rfl, fun _ hmem => absurd hmem List.not_mem_nil,
        ne_true_of_eq_false hone, hne, hrest, ?_⟩
      rw [hparse, List.map_nil, List.append_nil]

/-- The headers that are written are those that are read, and what follows them is what
follows them, just when no value has two line ends behind one another. Otherwise the headers
end with the first such value, and its rest is left as body. -/
theorem parse_headerLines_iff (hsend : ∀ header ∈ hs, header.Sendable) (tail : Bytes) :
    (evhttpParseHeaders headers (headerLines hs ++ 13 :: 10 :: tail) =
        (headers ++ hs.map Evkeyval.unfold, tail, .allDataRead) ↔
      ∀ header ∈ hs, singleEols header.value) ∧
    ((¬ ∀ header ∈ hs, singleEols header.value) →
      ∃ before header after old rest, hs = before ++ header :: after ∧
        (∀ other ∈ before, singleEols other.value) ∧ ¬ singleEols header.value ∧
        rest ≠ [] ∧ rest <:+ header.value ∧
        evhttpParseHeaders headers (headerLines hs ++ 13 :: 10 :: tail) =
          (headers ++ before.map Evkeyval.unfold ++ [⟨header.key, old⟩],
            rest ++ 13 :: 10 :: (headerLines after ++ 13 :: 10 :: tail), .allDataRead)) := by
  refine ⟨⟨fun h => ?_, parse_headerLines headers hs tail hsend⟩,
    parse_headerLines_cut headers hs tail hsend⟩
  by_contra hdouble
  obtain ⟨before, header, after, old, rest, -, -, -, -, -, hcut⟩ :=
    parse_headerLines_cut headers hs tail hsend hdouble
  have hbuffer := congrArg (fun result => result.2.1.length) (h.symm.trans hcut)
  simp only [List.length_append, List.length_cons] at hbuffer
  omega

theorem keyOk_host : KeyOk [72, 111] :=
  ⟨List.forall_mem_cons.mpr ⟨by decide, List.forall_mem_singleton.mpr (by decide)⟩,
    fun b hb => by cases hb; decide⟩

theorem parse_headerLines_iff_sample :
    (∀ header ∈ [Evkeyval.mk [72, 111] [97, 13, 10, 32, 98]], header.Sendable) ∧
      (evhttpParseHeaders [] (headerLines [⟨[72, 111], [97, 13, 10, 32, 98]⟩] ++ [13, 10, 99]) =
          ([⟨[72, 111], [97, 32, 98]⟩], [99], .allDataRead) ↔
        ∀ header ∈ [Evkeyval.mk [72, 111] [97, 13, 10, 32, 98]], singleEols header.value) :=
  have hsend := List.forall_mem_singleton.mpr ⟨keyOk_host, rfl, by decide, by decide⟩
  ⟨hsend, (parse_headerLines_iff hsend [99]).1⟩

end RoundTrip

end SearchTools.Libevent.Http
