/-
# Writing an HTTP message

The functions of `contrib/libevent/http.c` that write requests and replies, whole or in
chunks, and what the other side reads of them.
-/

import SearchTools.Libevent.Reading

namespace SearchTools.Libevent.Http

open SearchTools.Library

/-! ## Headers that are added -/

/-- `evhttp_method`. -/
def evhttpMethod : Cmd → Bytes
  | .get => bytes "GET"
  | .post => bytes "POST"
  | .head => bytes "HEAD"

/-- `evhttp_is_connection_close`, for the flag `EVHTTP_PROXY_REQUEST`. -/
def evhttpIsConnectionClose (proxy : Bool) (headers : Headers) : Bool :=
  if proxy then
    match evhttpFindHeader headers (bytes "Proxy-Connection") with
    | none => true
    | some connection => !strcaseEq connection (bytes "keep-alive")
  else
    match evhttpFindHeader headers (bytes "Connection") with
    | none => false
    | some connection => strcaseEq connection (bytes "close")

/-- `evhttp_is_connection_keepalive`. -/
def evhttpIsConnectionKeepalive (headers : Headers) : Bool :=
  match evhttpFindHeader headers (bytes "Connection") with
  | none => false
  | some connection => strcaseEq (connection.take 10) (bytes "keep-alive")

/-- `evhttp_maybe_add_date_header`, when `strftime` gives `date`. -/
def evhttpMaybeAddDateHeader (date : Bytes) (headers : Headers) : Headers :=
  if evhttpFindHeader headers (bytes "Date") = none then addHeader headers (bytes "Date") date
  else headers

/-- `evhttp_maybe_add_content_length_header`, with `char len[12]`. -/
def evhttpMaybeAddContentLengthHeader (headers : Headers) (contentLength : ℕ) : Headers :=
  if evhttpFindHeader headers (bytes "Transfer-Encoding") = none ∧
      evhttpFindHeader headers (bytes "Content-Length") = none then
    addHeader headers (bytes "Content-Length") ((decimal contentLength).take 11)
  else headers

/-- What `evhttp_make_header_response` adds for the version of the protocol. -/
def addVersionHeaders (date : Bytes) (req : Request) : Headers :=
  let isKeepalive := evhttpIsConnectionKeepalive req.inputHeaders
  let headers := req.outputHeaders
  if req.major = 1 then
    let headers := if req.minor = 1 then evhttpMaybeAddDateHeader date headers else headers
    let headers :=
      if req.minor = 0 ∧ isKeepalive then
        addHeader headers (bytes "Connection") (bytes "keep-alive")
      else headers
    if req.minor = 1 ∨ isKeepalive then
      evhttpMaybeAddContentLengthHeader headers req.outputBuffer.length
    else headers
  else headers

/-- What it adds for unidentified content. -/
def addTypeHeader (req : Request) (headers : Headers) : Headers :=
  if req.outputBuffer.length ≠ 0 ∧ evhttpFindHeader headers (bytes "Content-Type") = none then
    addHeader headers (bytes "Content-Type") (bytes "text/html; charset=ISO-8859-1")
  else headers

/-- If the request asked for a close, a close is sent, too. -/
def addCloseHeader (req : Request) (headers : Headers) : Headers :=
  if evhttpIsConnectionClose req.proxy req.inputHeaders then
    let headers := evhttpRemoveHeader headers (bytes "Connection")
    let headers :=
      if req.proxy then headers else addHeader headers (bytes "Connection") (bytes "close")
    evhttpRemoveHeader headers (bytes "Proxy-Connection")
  else headers

/-- The output headers after `evhttp_make_header_response`. -/
def responseHeaders (date : Bytes) (req : Request) : Headers :=
  addCloseHeader req (addTypeHeader req (addVersionHeaders date req))

/-- The output headers after `evhttp_make_header_request`, with `char size[12]`. -/
def requestHeaders (req : Request) : Headers :=
  let headers := evhttpRemoveHeader req.outputHeaders (bytes "Proxy-Connection")
  if req.type = .post ∧ evhttpFindHeader headers (bytes "Content-Length") = none then
    addHeader headers (bytes "Content-Length") ((decimal req.outputBuffer.length).take 11)
  else headers

/-- The status line. A reason that is not set is written by `printf`. -/
def statusLine (req : Request) : Bytes :=
  bytes "HTTP/" ++ decimal req.major ++ [46] ++ decimal req.minor ++ [32] ++
    decimal req.responseCode ++ [32] ++ req.responseCodeLine.getD (bytes "(null)")

/-- The request line. -/
def requestLine (req : Request) : Bytes :=
  evhttpMethod req.type ++ [32] ++ req.uri.getD (bytes "(null)") ++ bytes " HTTP/" ++
    decimal req.major ++ [46] ++ decimal req.minor

/-- `evhttp_make_header`: the request afterwards, and what goes to the output buffer of the
connection. -/
def evhttpMakeHeader (date : Bytes) (req : Request) : Request × Bytes :=
  let (line, headers) :=
    match req.kind with
    | .request => (requestLine req, requestHeaders req)
    | .response => (statusLine req, responseHeaders date req)
  ({ req with outputHeaders := headers, outputBuffer := [] },
    snprintfLine (line ++ [13, 10]) ++ headerLines headers ++ [13, 10] ++ req.outputBuffer)

/-- `evhttp_response_code`. -/
def evhttpResponseCode (req : Request) (code : ℤ) (reason : Bytes) : Request :=
  { req with kind := .response, responseCode := code, responseCodeLine := some reason }

/-- `evhttp_send`. -/
def evhttpSend (date : Bytes) (req : Request) (databuf : Bytes) : Request × Bytes :=
  evhttpMakeHeader date { req with outputBuffer := req.outputBuffer ++ databuf }

/-- `evhttp_send_reply`. -/
def evhttpSendReply (date : Bytes) (req : Request) (code : ℤ) (reason databuf : Bytes) :
    Request × Bytes :=
  evhttpSend date (evhttpResponseCode req code reason) databuf

/-- `evhttp_make_request` on a connection that is there, up to the dispatch of the request. -/
def evhttpMakeRequest (req : Request) (type : Cmd) (uri : Bytes) : Request :=
  let req := { req with kind := .request, type := type, uri := some uri }
  if req.major = 0 ∧ req.minor = 0 then { req with major := 1, minor := 1 } else req

/-! ## What is in the headers that are sent -/

/-- A header that is read back on its own. -/
structure Evkeyval.Clean (header : Evkeyval) : Prop extends header.Sendable where
  single : singleEols header.value

/-- A key and a value on one line can be checked. -/
def checkHeader (key value : Bytes) : Bool :=
  key.all (fun b => !isEol b && b != 58 && b != 0) && !key.head?.any isBlank &&
    value.all (fun b => !isEol b && b != 0) && decide (key.length + value.length + 4 ≤ 1023)

theorem clean_of_check (key value : Bytes) (h : checkHeader key value) :
    Evkeyval.Clean ⟨key, value⟩ := by
  simp only [checkHeader, Bool.and_eq_true, List.all_eq_true, Bool.not_eq_true', bne_iff_ne,
    decide_eq_true_eq] at h
  obtain ⟨⟨⟨hkey, hhead⟩, hvalue⟩, hfits⟩ := h
  have hline : ∀ b ∈ value, isEol b = false := fun b hb => (hvalue b hb).1
  refine ⟨⟨⟨fun b hb => ?_, fun b hb hblank => ?_⟩, validEols_of_line hline, fun h0 => ?_, hfits⟩,
    singleEols_of_line hline⟩
  · exact ⟨(hkey b hb).1.1, (hkey b hb).1.2, (hkey b hb).2⟩
  · rw [Option.mem_def.mp hb, Option.any_some, hblank] at hhead
    cases hhead
  · exact (hvalue 0 h0).2 rfl

section Find

variable {headers : Headers} {key other value : Bytes}

theorem clean_addHeader (hheaders : ∀ header ∈ headers, header.Clean)
    (hnew : Evkeyval.Clean ⟨key, value⟩) : ∀ header ∈ addHeader headers key value, header.Clean := by
  rw [addHeader, evhttpAddHeader_of_valid hnew.key_ok hnew.valid, Option.getD_some]
  exact List.forall_mem_append.mpr ⟨hheaders, List.forall_mem_singleton.mpr hnew⟩

theorem clean_removeHeader (hheaders : ∀ header ∈ headers, header.Clean) (key : Bytes) :
    ∀ header ∈ evhttpRemoveHeader headers key, header.Clean :=
  fun header hmem => hheaders header (List.mem_of_mem_eraseP hmem)

theorem find_addHeader_of_ne (h : strcaseEq other key = false) :
    evhttpFindHeader (addHeader headers other value) key = evhttpFindHeader headers key := by
  unfold addHeader evhttpAddHeader evhttpFindHeader
  split
  · rfl
  · split
    · rfl
    · rw [Option.getD_some, evhttpAddHeaderInternal, List.find?_append, List.find?_singleton, h]
      simp only [Bool.false_eq_true, if_false, Option.or_none]

theorem find_addHeader_self (hnone : evhttpFindHeader headers key = none)
    (hsame : strcaseEq other key) (hnew : Evkeyval.Clean ⟨other, value⟩) :
    evhttpFindHeader (addHeader headers other value) key = some value := by
  rw [evhttpFindHeader, Option.map_eq_none_iff] at hnone
  rw [addHeader, evhttpAddHeader_of_valid hnew.key_ok hnew.valid, Option.getD_some,
    evhttpFindHeader, List.find?_append, hnone, List.find?_singleton, if_pos hsame]
  rfl

theorem strcaseEq_iff {s t : Bytes} : strcaseEq s t ↔ s.map Html.toLower = t.map Html.toLower := by
  rw [strcaseEq, beq_iff_eq]

theorem find_removeHeader_of_ne (h : strcaseEq other key = false) :
    evhttpFindHeader (evhttpRemoveHeader headers other) key = evhttpFindHeader headers key := by
  unfold evhttpFindHeader evhttpRemoveHeader
  induction headers with
  | nil => rfl
  | cons header headers ih =>
    cases hother : strcaseEq header.key other with
    | true =>
      have hne : strcaseEq header.key key = false := by
        rw [Bool.eq_false_iff, Ne, strcaseEq_iff, strcaseEq_iff.mp hother, ← strcaseEq_iff, h]
        exact Bool.false_ne_true
      simp only [List.eraseP_cons, List.find?_cons, hother, hne, cond_true]
    | false =>
      cases hkey : strcaseEq header.key key with
      | true => simp only [List.eraseP_cons, List.find?_cons, hother, hkey, cond_false]
      | false => simpa only [List.eraseP_cons, List.find?_cons, hother, hkey, cond_false] using ih

/-- What is found in the headers that were read is what stood in those that were sent. -/
theorem find_map_unfold :
    evhttpFindHeader (headers.map Evkeyval.unfold) key =
      (evhttpFindHeader headers key).map unfoldValue := by
  rw [evhttpFindHeader, evhttpFindHeader, List.find?_map, Option.map_map, Option.map_map]
  rfl

end Find

section Added

variable {date key value : Bytes} {req : Request} {headers : Headers}

theorem clean_length (n : ℕ) : Evkeyval.Clean ⟨bytes "Content-Length", (decimal n).take 11⟩ := by
  refine clean_of_check _ _ ?_
  rw [checkHeader, Bool.and_eq_true, Bool.and_eq_true]
  refine ⟨⟨by decide, ?_⟩, decide_eq_true ?_⟩
  · rw [List.all_eq_true]
    intro b hb
    rw [decimal_natCast] at hb
    have hplain := digit_plain b (Nat.lt_of_lt_of_le
      (digitValue_lt_of_mem (by decide) (by decide) (List.mem_of_mem_take hb)) (by decide))
    have heol : isEol b = false := by
      rw [isEol, Bool.or_eq_false_iff, beq_eq_false_iff_ne, beq_eq_false_iff_ne]
      exact hplain.2.2.2.2.2.2
    rw [heol, Bool.and_eq_true, bne_iff_ne]
    exact ⟨rfl, hplain.2.2.2.2.2.1⟩
  · have hcut : ((decimal n).take 11).length ≤ 11 := List.length_take_le _ _
    have hkey : (bytes "Content-Length").length = 14 := by decide
    omega

/-- Eleven digits are enough for any length that a file has. -/
theorem take_decimal {n : ℕ} (h : n < 100000000000) : (decimal n).take 11 = digitText 10 n := by
  rw [decimal_natCast, List.take_of_length_le]
  rw [digitText, List.length_map]
  exact (Nat.length_toDigits_le_iff (by decide) (by decide)).mpr h

theorem clean_ite {p : Prop} [Decidable p] {hs hs' : Headers}
    (h : p → ∀ header ∈ hs, header.Clean) (h' : ∀ header ∈ hs', header.Clean) :
    ∀ header ∈ (if p then hs else hs'), header.Clean := by
  by_cases hp : p
  · rw [if_pos hp]
    exact h hp
  · rwa [if_neg hp]

theorem clean_responseHeaders (hclean : ∀ header ∈ req.outputHeaders, header.Clean)
    (hdate : Evkeyval.Clean ⟨bytes "Date", date⟩) :
    ∀ header ∈ responseHeaders date req, header.Clean := by
  have hconnection := clean_of_check (bytes "Connection") (bytes "keep-alive") (by decide)
  have hclose := clean_of_check (bytes "Connection") (bytes "close") (by decide)
  have htype := clean_of_check (bytes "Content-Type") (bytes "text/html; charset=ISO-8859-1")
    (by decide)
  have hversion : ∀ header ∈ addVersionHeaders date req, header.Clean := by
    unfold addVersionHeaders
    refine clean_ite (fun _ => ?_) hclean
    have hdated : ∀ header ∈ (if req.minor = 1 then
        evhttpMaybeAddDateHeader date req.outputHeaders else req.outputHeaders), header.Clean :=
      clean_ite (fun _ => clean_ite (fun _ => clean_addHeader hclean hdate) hclean) hclean
    have hkept := clean_ite (p := req.minor = 0 ∧ evhttpIsConnectionKeepalive req.inputHeaders)
      (fun _ => clean_addHeader hdated hconnection) hdated
    exact clean_ite (fun _ => clean_ite (fun _ => clean_addHeader hkept (clean_length _)) hkept)
      hkept
  have htyped : ∀ header ∈ addTypeHeader req (addVersionHeaders date req), header.Clean :=
    clean_ite (fun _ => clean_addHeader hversion htype) hversion
  refine clean_ite (fun _ => clean_removeHeader ?_ _) htyped
  have hremoved := clean_removeHeader htyped (bytes "Connection")
  by_cases hproxy : req.proxy
  · rwa [if_pos hproxy]
  · rw [if_neg hproxy]
    exact clean_addHeader hremoved hclose

/-- The last parts of the headers leave those alone that say how the body is sent. -/
theorem find_addTypeHeader (hkey : strcaseEq (bytes "Content-Type") key = false) :
    evhttpFindHeader (addTypeHeader req headers) key = evhttpFindHeader headers key := by
  unfold addTypeHeader
  split
  · exact find_addHeader_of_ne hkey
  · rfl

theorem find_addCloseHeader (hkey : strcaseEq (bytes "Connection") key = false)
    (hproxy : strcaseEq (bytes "Proxy-Connection") key = false) :
    evhttpFindHeader (addCloseHeader req headers) key = evhttpFindHeader headers key := by
  unfold addCloseHeader
  split
  · dsimp only
    rw [find_removeHeader_of_ne hproxy]
    split
    · exact find_removeHeader_of_ne hkey
    · rw [find_addHeader_of_ne hkey, find_removeHeader_of_ne hkey]
  · rfl

theorem find_maybeAddDate (hkey : strcaseEq (bytes "Date") key = false) :
    evhttpFindHeader (evhttpMaybeAddDateHeader date headers) key =
      evhttpFindHeader headers key := by
  unfold evhttpMaybeAddDateHeader
  split
  · exact find_addHeader_of_ne hkey
  · rfl

/-- A reply of version 1.1 with no such headers of its own says how long it is. -/
theorem find_contentLength (date : Bytes) (hmajor : req.major = 1) (hminor : req.minor = 1)
    (htransfer : evhttpFindHeader req.outputHeaders (bytes "Transfer-Encoding") = none)
    (hlength : evhttpFindHeader req.outputHeaders (bytes "Content-Length") = none) :
    evhttpFindHeader (responseHeaders date req) (bytes "Transfer-Encoding") = none ∧
      evhttpFindHeader (responseHeaders date req) (bytes "Content-Length") =
        some ((decimal req.outputBuffer.length).take 11) := by
  have htransfer' : evhttpFindHeader (evhttpMaybeAddDateHeader date req.outputHeaders)
      (bytes "Transfer-Encoding") = none := (find_maybeAddDate (by decide)).trans htransfer
  have hlength' : evhttpFindHeader (evhttpMaybeAddDateHeader date req.outputHeaders)
      (bytes "Content-Length") = none := (find_maybeAddDate (by decide)).trans hlength
  have hnot : ¬ (req.minor = 0 ∧ evhttpIsConnectionKeepalive req.inputHeaders = true) := by omega
  have hversion : addVersionHeaders date req =
      addHeader (evhttpMaybeAddDateHeader date req.outputHeaders) (bytes "Content-Length")
        ((decimal req.outputBuffer.length).take 11) := by
    unfold addVersionHeaders evhttpMaybeAddContentLengthHeader
    rw [if_pos hmajor, if_pos hminor]
    dsimp only
    rw [if_neg hnot, if_pos (Or.inl hminor),
      if_pos ⟨htransfer', hlength'⟩]
  rw [responseHeaders, find_addCloseHeader (by decide) (by decide), find_addTypeHeader (by decide),
    find_addCloseHeader (by decide) (by decide), find_addTypeHeader (by decide), hversion,
    find_addHeader_of_ne (by decide),
    find_addHeader_self hlength' (by decide) (clean_length _)]
  exact ⟨htransfer', rfl⟩

end Added

end SearchTools.Libevent.Http
