/-
# What one side sends and the other reads

A request of a client and a reply of a server, whole or in chunks, as they are written
by `contrib/libevent/http.c`, cut into segments and read by `contrib/libevent/http.c`.
-/

import SearchTools.Libevent.Reply

namespace SearchTools.Libevent.Http

open SearchTools.Library

/-- A line without line ends and NULs. -/
def PlainLine (line : Bytes) : Prop := ∀ b ∈ line, isEol b = false ∧ b ≠ 0

theorem PlainLine.append {line line' : Bytes} (h : PlainLine line) (h' : PlainLine line') :
    PlainLine (line ++ line') := List.forall_mem_append.mpr ⟨h, h'⟩

theorem plainLine_of_all {line : Bytes} (h : line.all fun b => !isEol b && b != 0) :
    PlainLine line := by
  intro b hb
  have hb := List.all_eq_true.mp h b hb
  rwa [Bool.and_eq_true, Bool.not_eq_true', bne_iff_ne] at hb

theorem plainLine_digitText {base n : ℕ} (hbase : 1 < base) (hmax : base ≤ 16) :
    PlainLine (digitText base n) := by
  intro b hb
  have hplain := digit_plain b
    (Nat.lt_of_lt_of_le (digitValue_lt_of_mem hbase hmax hb) hmax)
  refine ⟨?_, hplain.2.2.2.2.2.1⟩
  rw [isEol, Bool.or_eq_false_iff, beq_eq_false_iff_ne, beq_eq_false_iff_ne]
  exact hplain.2.2.2.2.2.2

theorem unfoldValue_of_plain {value : Bytes} (hvalue : PlainLine value)
    (hhead : value.head? ≠ some 32) : unfoldValue value = value := by
  have hpos : ∀ b ∈ value, (!isEol b) = true := fun b hb => by rw [(hvalue b hb).1]; rfl
  have hspaces : value.dropWhile (· == 32) = value := by
    cases value with
    | nil => rfl
    | cons b value =>
      refine List.dropWhile_cons_of_neg ?_
      rw [beq_iff_eq]
      rintro rfl
      exact hhead rfl
  rw [unfoldValue, List.takeWhile_eq_self_iff.mpr hpos, List.dropWhile_eq_nil_iff.mpr hpos,
    List.filter_nil, List.append_nil, hspaces]

namespace Session

variable {s : Session} {line rest : Bytes} {hs : Headers}

/-- The first line and the headers are read. -/
theorem takes_head (hout : s.outcome = none) (hstate : s.state = .readingFirstline)
    (hline : PlainLine line) {req : Request}
    (hparse : parseFirstlineOf s.req line = (req, true)) (hreq : req.inputHeaders = [])
    (hclean : ∀ header ∈ hs, header.Clean) (rest : Bytes) :
    takeItem.Takes (s, line ++ 13 :: 10 :: (headerLines hs ++ 13 :: 10 :: rest))
      ({ s with
        req := { req with inputHeaders := hs.map Evkeyval.unfold }
        state := .readingHeaders }.headersRead, rest) := by
  have htake := takeItem_firstline hout hstate
    (line ++ 13 :: 10 :: (headerLines hs ++ 13 :: 10 :: rest))
  rw [firstLine_crlf (fun b hb => (hline b hb).1), Option.map_some] at htake
  have hread : s.firstlineRead line = { s with req := req, state := .readingHeaders } := by
    rw [firstlineRead, cstr_eq_self fun h0 => (hline 0 h0).2 rfl, hparse]
  rw [hread] at htake
  have hheaders := parse_headerLines req.inputHeaders hs rest
    (fun header hmem => (hclean header hmem).toSendable)
    fun header hmem => (hclean header hmem).single
  have hall : req.inputHeaders ++ hs.map Evkeyval.unfold = hs.map Evkeyval.unfold := by
    rw [hreq, List.nil_append]
  rw [hall] at hheaders
  have htakes := takes_parseHeaders (s := { s with req := req, state := .readingHeaders }) hout
    (Or.inl rfl) hheaders
  have hne : (({ s with req := req, state := .readingHeaders } : Session).withHeaders
      (hs.map Evkeyval.unfold)).state ≠ .readingTrailer :=
    show ConState.readingHeaders ≠ .readingTrailer by decide
  rw [afterParse, if_neg hne] at htakes
  exact takes_step htake htakes.1

/-- A body of known length is read. -/
theorem stops_body (hout : s.outcome = none) (hstate : s.state = .readingBody)
    (hchunked : s.req.chunked = false) (body : Bytes) (hn : s.req.ntoread = body.length)
    (rest : Bytes) :
    takeItem.Stops (s, body ++ rest)
      ({ s with req := { s.req with
        inputBuffer := s.req.inputBuffer ++ body, ntoread := 0 } }.done, rest) := by
  have htake := takeItem_body hout hstate (body ++ rest)
  have hlen : (body ++ rest).length = body.length + rest.length := List.length_append
  have hnat : s.req.ntoread.toNat = body.length := by omega
  rw [takeBody_length hchunked (by omega), if_pos (by omega), hnat, List.take_left,
    List.drop_left] at htake
  exact ⟨takes_step htake .refl, takeItem_of_outcome (Option.some_ne_none _)⟩

theorem getBody_done (h : s.req.kind = .request ∧ s.req.type ≠ .post) : s.getBody = s.done :=
  if_pos h

theorem getBody_length (hbody : ¬ (s.req.kind = .request ∧ s.req.type ≠ .post))
    (htransfer : evhttpFindHeader s.req.inputHeaders (bytes "Transfer-Encoding") = none) {n : ℕ}
    (hlength : evhttpFindHeader s.req.inputHeaders (bytes "Content-Length") =
      some (digitText 10 n)) (hn : n ≤ 9223372036854775807) :
    s.getBody = { s with state := .readingBody, req := { s.req with ntoread := n } } := by
  have hread : strtoll 10 (digitText 10 n) = ((n : ℤ), []) :=
    strtoll_digitText (by decide) (by decide) hn
  have hgood : ¬ (digitText 10 n = [] ∨ ([] : Bytes) ≠ [] ∨ (n : ℤ) < 0) := by
    rintro (h | h | h)
    · exact digitText_ne_nil 10 n h
    · exact h rfl
    · omega
  unfold getBody
  rw [if_neg hbody]
  dsimp only
  rw [htransfer, Option.any_none, if_neg Bool.false_ne_true, evhttpGetBodyLength]
  dsimp only
  rw [hlength]
  dsimp only
  rw [hread, if_neg hgood]

theorem headersRead_response (hkind : s.req.kind = .response)
    (hcode : ¬ (s.req.responseCode = 204 ∨ s.req.responseCode = 304 ∨
      (s.req.responseCode ≥ 100 ∧ s.req.responseCode < 200))) : s.headersRead = s.getBody := by
  unfold headersRead
  rw [hkind]
  exact if_neg hcode

theorem headersRead_request (hkind : s.req.kind = .request) : s.headersRead = s.getBody := by
  unfold headersRead
  rw [hkind]

end Session

namespace Con

variable {con : Con} {segments : List Bytes}

/-- What is read of segments is what is read at once. -/
theorem receive_of_stops (con : Con) (hout : con.outcome = none) (hnil : con.inputBuffer = [])
    (hstate : con.state = .readingFirstline) {s : Session} {text left : Bytes}
    (hstops : Session.takeItem.Stops (con.toSession, text) (s, left))
    (hsegments : segments.flatten = text) (huncut : Uncut con segments) :
    after (con.receive segments) = ⟨s, left⟩ := by
  have hquiet : Session.takeItem con.toSession con.inputBuffer = none := by
    rw [Session.takeItem_firstline hout hstate, hnil]
    rfl
  have hreads := receive_readsTo hout hquiet huncut
  rw [hnil, List.nil_append, hsegments] at hreads
  obtain ⟨hsession, hbuffer⟩ := Prod.mk.inj (Framer.Stops.unique hreads hstops)
  cases hresult : after (con.receive segments) with
  | mk session buffer =>
    rw [hresult] at hsession hbuffer
    exact congr (congrArg Con.mk hsession) hbuffer

end Con

/-! ## Replies -/

/-- A reply of version 1.1 with a body that can be sent. -/
structure Answerable (date : Bytes) (req : Request) (code : ℕ) (reason : Bytes) : Prop where
  major : req.major = 1
  minor : req.minor = 1
  code_pos : 0 < code
  code_max : code ≤ 2147483647
  code_body : ¬ (code = 204 ∨ code = 304 ∨ (100 ≤ code ∧ code < 200))
  reason_plain : PlainLine reason
  reason_fits : reason.length ≤ 1000
  headers_clean : ∀ header ∈ req.outputHeaders, header.Clean
  date_clean : Evkeyval.Clean ⟨bytes "Date", date⟩
  no_transfer : evhttpFindHeader req.outputHeaders (bytes "Transfer-Encoding") = none
  no_length : evhttpFindHeader req.outputHeaders (bytes "Content-Length") = none

/-- A request whose answer has not come yet. -/
structure Fresh (creq : Request) : Prop where
  headers : creq.inputHeaders = []
  buffer : creq.inputBuffer = []
  chunked : creq.chunked = false

section Replies

variable {date reason databuf tail : Bytes} {req creq : Request} {code : ℕ}

theorem space_notMem_decimal (n : ℕ) : (32 : UInt8) ∉ decimal n := by
  intro h
  rw [decimal_natCast] at h
  exact absurd (digitValue_lt_of_mem (by decide) (by decide) h) (by decide)

theorem parseResponseLine (creq : Request) (hpos : 0 < code) (hmax : code ≤ 2147483647)
    (reason : Bytes) :
    evhttpParseResponseLine creq (bytes "HTTP/1.1" ++ 32 :: (decimal code ++ 32 :: reason)) =
      ({ creq with
        major := 1, minor := 1, responseCode := code, responseCodeLine := some reason }, true) := by
  have hversion : parseVersion (bytes "HTTP/1.1") = some (1, 1) := by decide
  have hcode : ¬ (code : ℤ) = 0 := by omega
  unfold evhttpParseResponseLine
  rw [strsep_append (by decide)]
  dsimp only
  rw [strsep_append (space_notMem_decimal code)]
  dsimp only
  rw [hversion]
  dsimp only
  rw [atoi_decimal hmax, if_neg hcode]

theorem statusLine_eq (hmajor : req.major = 1) (hminor : req.minor = 1)
    (hcode : req.responseCode = code) (hreason : req.responseCodeLine = some reason) :
    statusLine req = bytes "HTTP/1.1" ++ 32 :: (decimal code ++ 32 :: reason) := by
  have hversion : bytes "HTTP/" ++ decimal (1 : ℕ) ++ [46] ++ decimal (1 : ℕ) =
      bytes "HTTP/1.1" := by decide
  rw [statusLine, hmajor, hminor, hcode, hreason, Option.getD_some, hversion]
  simp only [List.append_assoc, List.cons_append, List.nil_append]

theorem plainLine_status (hreason : PlainLine reason) :
    PlainLine (bytes "HTTP/1.1" ++ 32 :: (decimal code ++ 32 :: reason)) := by
  have hspace : PlainLine [32] := plainLine_of_all (by decide)
  rw [decimal_natCast]
  exact (plainLine_of_all (by decide)).append (hspace.append
    ((plainLine_digitText (by decide) (by decide)).append (hspace.append hreason)))

/-- A reply as it is written. -/
theorem response_text (date : Bytes) (hkind : req.kind = .response) (hmajor : req.major = 1)
    (hminor : req.minor = 1) (hcode : req.responseCode = code)
    (hreason : req.responseCodeLine = some reason) (hmax : code ≤ 2147483647)
    (hfits : reason.length ≤ 1000) :
    (evhttpMakeHeader date req).2 =
      bytes "HTTP/1.1" ++ 32 :: (decimal code ++ 32 :: reason) ++ 13 :: 10 ::
        (headerLines (responseHeaders date req) ++ 13 :: 10 :: req.outputBuffer) := by
  have hdigits : (decimal code).length ≤ 10 := by
    rw [decimal_natCast, digitText, List.length_map]
    exact (Nat.length_toDigits_le_iff (by decide) (by decide)).mpr (by omega)
  have hversion : (bytes "HTTP/1.1").length = 8 := by decide
  unfold evhttpMakeHeader
  rw [hkind]
  dsimp only
  rw [statusLine_eq hmajor hminor hcode hreason, snprintfLine, List.take_of_length_le]
  · simp only [List.append_assoc, List.cons_append, List.nil_append]
  · simp only [List.length_append, List.length_cons, List.length_nil]
    omega

/-- What a client has read of a reply. -/
structure Con.Answered (con : Con) (code : ℕ) (reason : Bytes) (headers : Headers)
    (tail : Bytes) : Prop where
  outcome_eq : con.outcome = some .done
  code_eq : con.req.responseCode = code
  reason_eq : con.req.responseCodeLine = some reason
  headers_eq : con.req.inputHeaders = headers.map Evkeyval.unfold
  left_eq : con.inputBuffer = tail

/-- The client after the head of a reply. -/
def headRead (creq : Request) (code : ℕ) (reason : Bytes) (headers : Headers) : Session :=
  { (Con.asked creq).toSession with
    state := .readingHeaders
    req := { creq with
      kind := .response, major := 1, minor := 1, responseCode := code
      responseCodeLine := some reason
      inputHeaders := headers.map Evkeyval.unfold } }

/-- The client after a whole reply. -/
def replyRead (creq : Request) (code : ℕ) (reason : Bytes) (headers : Headers) (body : Bytes) :
    Session :=
  { headRead creq code reason headers with
    state := .idle, outcome := some .done
    req := { (headRead creq code reason headers).req with
      inputBuffer := creq.inputBuffer ++ body, ntoread := 0 } }

/-- The head of a reply is read, and the body begins. -/
theorem takes_reply (h : Answerable date req code reason) (hfresh : Fresh creq) (reply : Request)
    (hsame : reply = { evhttpResponseCode req code reason with
      outputHeaders := reply.outputHeaders, outputBuffer := reply.outputBuffer
      chunked := reply.chunked })
    (hclean : ∀ header ∈ reply.outputHeaders, header.Clean) (rest : Bytes) :
    Session.takeItem.Takes ((Con.asked creq).toSession, (evhttpMakeHeader date reply).2 ++ rest)
      ((headRead creq code reason (responseHeaders date reply)).getBody,
        reply.outputBuffer ++ rest) := by
  have hcode : reply.responseCode = code := by rw [hsame]; rfl
  have hreason : reply.responseCodeLine = some reason := by rw [hsame]; rfl
  have htext := response_text date (by rw [hsame]; rfl) (by rw [hsame]; exact h.major)
    (by rw [hsame]; exact h.minor) hcode hreason h.code_max h.reason_fits
  have hassoc : (evhttpMakeHeader date reply).2 ++ rest =
      bytes "HTTP/1.1" ++ 32 :: (decimal code ++ 32 :: reason) ++ 13 :: 10 ::
        (headerLines (responseHeaders date reply) ++ 13 :: 10 :: (reply.outputBuffer ++ rest)) := by
    rw [htext]
    simp only [List.append_assoc, List.cons_append]
  have hparse := parseResponseLine { creq with kind := .response } h.code_pos h.code_max reason
  have htakes := Session.takes_head (s := (Con.asked creq).toSession) rfl rfl
    (plainLine_status h.reason_plain) hparse hfresh.headers
    (clean_responseHeaders hclean h.date_clean) (reply.outputBuffer ++ rest)
  rw [Session.headersRead_response rfl (by have := h.code_body; dsimp only; omega)] at htakes
  rw [hassoc]
  exact htakes

theorem outputHeaders_reply {reply : Request} (hkind : reply.kind = .response) :
    (evhttpMakeHeader date reply).1.outputHeaders = responseHeaders date reply := by
  rw [evhttpMakeHeader, hkind]

theorem unfoldValue_digitText {n : ℕ} : unfoldValue (digitText 10 n) = digitText 10 n := by
  refine unfoldValue_of_plain (plainLine_digitText (by decide) (by decide)) fun h => ?_
  exact absurd (digitValue_lt_of_mem (by decide) (by decide) (List.mem_of_mem_head? h)) (by decide)

theorem receive_reply (h : Answerable date req code reason)
    (hlen : (req.outputBuffer ++ databuf).length < 100000000000) (hfresh : Fresh creq)
    {segments : List Bytes}
    (hsegments : segments.flatten = (evhttpSendReply date req code reason databuf).2 ++ tail)
    (huncut : Con.Uncut (Con.asked creq) segments) :
    Con.after ((Con.asked creq).receive segments) =
      ⟨replyRead creq code reason (evhttpSendReply date req code reason databuf).1.outputHeaders
        (req.outputBuffer ++ databuf), tail⟩ := by
  obtain ⟨body, hbody⟩ : ∃ body, body = req.outputBuffer ++ databuf := ⟨_, rfl⟩
  obtain ⟨reply, hreply⟩ : ∃ reply,
      reply = { evhttpResponseCode req code reason with outputBuffer := body } := ⟨_, rfl⟩
  have hsent : evhttpSendReply date req code reason databuf = evhttpMakeHeader date reply := by
    rw [hreply, hbody]
    rfl
  have hbuffer : reply.outputBuffer = body := hreply ▸ rfl
  have houtput : reply.outputHeaders = req.outputHeaders := hreply ▸ rfl
  have hmajor : reply.major = 1 := hreply ▸ h.major
  obtain ⟨htransfer, hlength⟩ := find_contentLength date hmajor (hreply ▸ h.minor)
    (houtput ▸ h.no_transfer) (houtput ▸ h.no_length)
  rw [hbuffer, take_decimal (hbody ▸ hlen)] at hlength
  have htakes := takes_reply h hfresh reply (by rw [hreply])
    (houtput ▸ h.headers_clean) tail
  rw [hbuffer, Session.getBody_length (fun hreq => by cases hreq.1)
    (find_map_unfold.trans (by rw [htransfer, Option.map_none]))
    (find_map_unfold.trans (by rw [hlength, Option.map_some, unfoldValue_digitText]))
    (by rw [hbody]; omega)] at htakes
  have hstops := Session.stops_body
    (s := { headRead creq code reason (responseHeaders date reply) with
      state := .readingBody
      req := { (headRead creq code reason (responseHeaders date reply)).req with
        ntoread := body.length } }) rfl rfl hfresh.chunked body rfl tail
  have hall := Con.receive_of_stops (Con.asked creq) rfl rfl rfl
    (Framer.Takes.stops htakes hstops) (hsent ▸ hsegments) huncut
  rw [hall, hsent, outputHeaders_reply (hreply ▸ rfl), ← hbody]
  rfl

/-- A reply that is sent at once is the reply that is read. -/
theorem reply_received (h : Answerable date req code reason)
    (hlen : (req.outputBuffer ++ databuf).length < 100000000000) (hfresh : Fresh creq)
    {segments : List Bytes}
    (hsegments : segments.flatten = (evhttpSendReply date req code reason databuf).2 ++ tail)
    (huncut : Con.Uncut (Con.asked creq) segments) :
    let con := Con.after ((Con.asked creq).receive segments)
    con.Answered code reason (evhttpSendReply date req code reason databuf).1.outputHeaders tail ∧
      con.req.inputBuffer = req.outputBuffer ++ databuf := by
  rw [receive_reply h hlen hfresh hsegments huncut]
  refine ⟨⟨rfl, rfl, rfl, rfl, rfl⟩, ?_⟩
  show creq.inputBuffer ++ _ = _
  rw [hfresh.buffer, List.nil_append]

/-- A request of version 1.1 that is answered. -/
def askedSample : Request := { kind := .request, major := 1, minor := 1 }

theorem answerable_askedSample :
    Answerable (bytes "Mon, 01 Jan 2024") askedSample 200 (bytes "OK") where
  major := rfl
  minor := rfl
  code_pos := by decide
  code_max := by decide
  code_body := by decide
  reason_plain := plainLine_of_all (by decide)
  reason_fits := by decide
  headers_clean := fun _ hmem => by cases hmem
  date_clean := clean_of_check _ _ (by decide)
  no_transfer := rfl
  no_length := rfl

theorem reply_received_sample :
    let reply := evhttpSendReply (bytes "Mon, 01 Jan 2024") askedSample 200 (bytes "OK")
      (bytes "found")
    let con := Con.after ((Con.asked {}).receive [reply.2 ++ [72]])
    con.Answered 200 (bytes "OK") reply.1.outputHeaders [72] ∧
      con.req.inputBuffer = askedSample.outputBuffer ++ bytes "found" :=
  reply_received answerable_askedSample (by decide) ⟨rfl, rfl, rfl⟩ (List.append_nil _)
    (Con.uncut_of_cleanCuts (Con.cleanCuts_singleton (List.append_ne_nil_of_right_ne_nil _
      (List.cons_ne_nil _ _))))

/-! ## Replies in chunks -/

end Replies

/-! ## Requests -/

/-- A request that can be sent. -/
structure Askable (req : Request) (uri : Bytes) : Prop where
  version : req.major = 0 ∧ req.minor = 0 ∨ req.major = 1 ∧ req.minor ≤ 1
  uri_plain : PlainLine uri
  uri_space : 32 ∉ uri
  uri_fits : uri.length ≤ 1000
  headers_clean : ∀ header ∈ req.outputHeaders, header.Clean
  no_transfer : evhttpFindHeader req.outputHeaders (bytes "Transfer-Encoding") = none
  no_length : evhttpFindHeader req.outputHeaders (bytes "Content-Length") = none
  body_fits : req.outputBuffer.length < 100000000000

section Requests

variable {date uri tail : Bytes} {req : Request} {type : Cmd}

theorem requestVersion (h : Askable req uri) (type : Cmd) :
    (evhttpMakeRequest req type uri).major = 1 ∧ (evhttpMakeRequest req type uri).minor ≤ 1 := by
  unfold evhttpMakeRequest
  dsimp only
  rcases h.version with hzero | hone
  · rw [if_pos hzero]
    exact ⟨rfl, Nat.le_refl 1⟩
  · rw [if_neg (by omega)]
    exact hone

theorem evhttpMakeRequest_eq (req : Request) (type : Cmd) (uri : Bytes) :
    evhttpMakeRequest req type uri = { req with
      kind := .request, type := type, uri := some uri
      major := (evhttpMakeRequest req type uri).major
      minor := (evhttpMakeRequest req type uri).minor } := by
  unfold evhttpMakeRequest
  dsimp only
  by_cases hzero : req.major = 0 ∧ req.minor = 0
  · rw [if_pos hzero]
  · rw [if_neg hzero]

/-- The version as it stands in a request line. -/
def versionText (minor : ℕ) : Bytes := bytes "HTTP/1." ++ decimal minor

theorem parseVersion_text {minor : ℕ} (hminor : minor ≤ 1) :
    parseVersion (versionText minor) = some (1, minor) := by
  obtain rfl | rfl : minor = 0 ∨ minor = 1 := by omega
  · decide
  · decide

theorem versionText_plain {minor : ℕ} (hminor : minor ≤ 1) :
    PlainLine (versionText minor) ∧ 32 ∉ versionText minor ∧ (versionText minor).length = 8 := by
  obtain rfl | rfl : minor = 0 ∨ minor = 1 := by omega
  · exact ⟨plainLine_of_all (by decide), by decide, by decide⟩
  · exact ⟨plainLine_of_all (by decide), by decide, by decide⟩

theorem evhttpMethod_spec (type : Cmd) :
    parseMethod (evhttpMethod type) = some type ∧ PlainLine (evhttpMethod type) ∧
      32 ∉ evhttpMethod type ∧ (evhttpMethod type).length ≤ 4 := by
  cases type with
  | get => exact ⟨by decide, plainLine_of_all (by decide), by decide, by decide⟩
  | post => exact ⟨by decide, plainLine_of_all (by decide), by decide, by decide⟩
  | head => exact ⟨by decide, plainLine_of_all (by decide), by decide, by decide⟩

theorem parseRequestLine {sreq : Request} {minor : ℕ} (hminor : minor ≤ 1) (huri : 32 ∉ uri) :
    evhttpParseRequestLine sreq
        (evhttpMethod type ++ 32 :: (uri ++ 32 :: versionText minor)) =
      ({ sreq with
        type := type, major := 1, minor := minor, uri := some uri
        proxy := sreq.proxy || uri.head?.any (· ≠ 47) }, true) := by
  obtain ⟨hmethod, -, hspace, -⟩ := evhttpMethod_spec type
  unfold evhttpParseRequestLine
  rw [strsep_append hspace]
  dsimp only
  rw [strsep_append huri]
  dsimp only
  rw [strsep_of_notMem (versionText_plain hminor).2.1]
  dsimp only
  rw [hmethod]
  dsimp only
  rw [parseVersion_text hminor]

theorem clean_requestHeaders (req : Request) (hclean : ∀ header ∈ req.outputHeaders, header.Clean) :
    ∀ header ∈ requestHeaders req, header.Clean := by
  have hremoved := clean_removeHeader hclean (bytes "Proxy-Connection")
  exact clean_ite (fun _ => clean_addHeader hremoved (clean_length _)) hremoved

theorem requestLine_eq (req : Request) (hmajor : req.major = 1) (huri : req.uri = some uri) :
    requestLine req = evhttpMethod req.type ++ 32 :: (uri ++ 32 :: versionText req.minor) := by
  have hversion : bytes " HTTP/" ++ decimal (1 : ℕ) ++ [46] = 32 :: bytes "HTTP/1." := by decide
  have hassoc : requestLine req = evhttpMethod req.type ++ [32] ++ uri ++
      (bytes " HTTP/" ++ decimal (1 : ℕ) ++ [46] ++ decimal req.minor) := by
    rw [requestLine, hmajor, huri, Option.getD_some]
    simp only [List.append_assoc]
  rw [hassoc, hversion, versionText]
  simp only [List.append_assoc, List.cons_append, List.nil_append]

/-- The server after the head of a request. -/
def requestRead (req : Request) (type : Cmd) (uri : Bytes) : Session :=
  { Con.accepted.toSession with
    state := .readingHeaders
    req := { Con.accepted.req with
      type := type, major := 1, minor := (evhttpMakeRequest req type uri).minor, uri := some uri
      proxy := uri.head?.any (· ≠ 47)
      inputHeaders := (requestHeaders (evhttpMakeRequest req type uri)).map Evkeyval.unfold } }

/-- The head of a request is read, and the body begins. -/
theorem takes_request (h : Askable req uri) (date : Bytes) (type : Cmd) (rest : Bytes) :
    Session.takeItem.Takes (Con.accepted.toSession,
        (evhttpMakeHeader date (evhttpMakeRequest req type uri)).2 ++ rest)
      ((requestRead req type uri).getBody, req.outputBuffer ++ rest) := by
  obtain ⟨sent, hsent⟩ : ∃ sent, sent = evhttpMakeRequest req type uri := ⟨_, rfl⟩
  have hsame := evhttpMakeRequest_eq req type uri
  obtain ⟨hmajor, hminor⟩ := requestVersion h type
  obtain ⟨-, hmethod, -, hmethodLen⟩ := evhttpMethod_spec type
  obtain ⟨hversion, -, hversionLen⟩ := versionText_plain hminor
  rw [← hsent] at hsame hmajor hminor hversion hversionLen
  have htype : sent.type = type := by rw [hsame]
  have hkind : sent.kind = .request := by rw [hsame]
  have hbuffer : sent.outputBuffer = req.outputBuffer := by rw [hsame]
  have hline := requestLine_eq sent hmajor (show sent.uri = some uri by rw [hsame])
  have htext : (evhttpMakeHeader date sent).2 ++ rest =
      evhttpMethod type ++ 32 :: (uri ++ 32 :: versionText sent.minor) ++ 13 :: 10 ::
        (headerLines (requestHeaders sent) ++ 13 :: 10 :: (req.outputBuffer ++ rest)) := by
    have hfits := h.uri_fits
    unfold evhttpMakeHeader
    rw [hkind]
    dsimp only
    rw [hline, htype, hbuffer, snprintfLine, List.take_of_length_le]
    · simp only [List.append_assoc, List.cons_append, List.nil_append]
    · simp only [List.length_append, List.length_cons, List.length_nil]
      omega
  have hspace : PlainLine [32] := plainLine_of_all (by decide)
  have htakes := Session.takes_head (s := Con.accepted.toSession) rfl rfl
    (hmethod.append (hspace.append (h.uri_plain.append (hspace.append hversion))))
    (parseRequestLine hminor h.uri_space) rfl
    (clean_requestHeaders sent (by rw [hsame]; exact h.headers_clean))
    (req.outputBuffer ++ rest)
  rw [Session.headersRead_request rfl] at htakes
  rw [← hsent, htext, requestRead, ← hsent]
  exact htakes

/-- What a server has read of a request. -/
structure Con.Asked (con : Con) (req : Request) (type : Cmd) (uri : Bytes) : Prop where
  outcome_eq : con.outcome = some .done
  type_eq : con.req.type = type
  uri_eq : con.req.uri = some uri
  proxy_eq : con.req.proxy = uri.head?.any (· ≠ 47)
  version_eq : con.req.major = req.major ∧ con.req.minor = req.minor
  headers_eq : con.req.inputHeaders = req.outputHeaders.map Evkeyval.unfold

theorem find_requestHeaders (h : Askable req uri) (hpost : type = .post) :
    evhttpFindHeader (requestHeaders (evhttpMakeRequest req type uri))
        (bytes "Transfer-Encoding") = none ∧
      evhttpFindHeader (requestHeaders (evhttpMakeRequest req type uri))
        (bytes "Content-Length") = some (digitText 10 req.outputBuffer.length) := by
  have hremoved : ∀ key, strcaseEq (bytes "Proxy-Connection") key = false →
      evhttpFindHeader (evhttpRemoveHeader req.outputHeaders (bytes "Proxy-Connection")) key =
        evhttpFindHeader req.outputHeaders key := fun key hkey => find_removeHeader_of_ne hkey
  have htransfer := (hremoved (bytes "Transfer-Encoding") (by decide)).trans h.no_transfer
  have hlength := (hremoved (bytes "Content-Length") (by decide)).trans h.no_length
  have hheaders : requestHeaders (evhttpMakeRequest req type uri) =
      addHeader (evhttpRemoveHeader req.outputHeaders (bytes "Proxy-Connection"))
        (bytes "Content-Length") ((decimal req.outputBuffer.length).take 11) := by
    rw [evhttpMakeRequest_eq]
    exact if_pos ⟨hpost, hlength⟩
  rw [hheaders, find_addHeader_of_ne (by decide),
    find_addHeader_self hlength (by decide) (clean_length _), take_decimal h.body_fits]
  exact ⟨htransfer, rfl⟩

/-- The server after a whole request; of requests other than POST the body is left. -/
def requestReceived (req : Request) (type : Cmd) (uri tail : Bytes) : Con :=
  if type = .post then
    ⟨{ requestRead req type uri with
      state := .writing, outcome := some .done
      req := { (requestRead req type uri).req with
        inputBuffer := req.outputBuffer, ntoread := 0 } }, tail⟩
  else ⟨(requestRead req type uri).done, req.outputBuffer ++ tail⟩

theorem receive_request (h : Askable req uri) {segments : List Bytes}
    (hsegments : segments.flatten =
      (evhttpMakeHeader date (evhttpMakeRequest req type uri)).2 ++ tail)
    (huncut : Con.Uncut Con.accepted segments) :
    Con.after (Con.accepted.receive segments) = requestReceived req type uri tail := by
  have htakes := takes_request h date type tail
  unfold requestReceived
  by_cases hpost : type = .post
  · obtain ⟨htransfer, hlength⟩ := find_requestHeaders h hpost
    have hbody := h.body_fits
    rw [Session.getBody_length (fun hreq => hreq.2 hpost)
      (find_map_unfold.trans (by rw [htransfer, Option.map_none]))
      (find_map_unfold.trans (by rw [hlength, Option.map_some, unfoldValue_digitText]))
      (by omega)] at htakes
    have hstops := Session.stops_body
      (s := { requestRead req type uri with
        state := .readingBody
        req := { (requestRead req type uri).req with ntoread := req.outputBuffer.length } })
      rfl rfl rfl req.outputBuffer rfl tail
    have hall := Con.receive_of_stops Con.accepted rfl rfl rfl
      (Framer.Takes.stops htakes hstops) hsegments huncut
    rw [hall, if_pos hpost]
    rfl
  · rw [Session.getBody_done ⟨rfl, hpost⟩] at htakes
    have hstops : Session.takeItem.Stops (Con.accepted.toSession,
        (evhttpMakeHeader date (evhttpMakeRequest req type uri)).2 ++ tail)
        ((requestRead req type uri).done, req.outputBuffer ++ tail) :=
      ⟨htakes, Session.takeItem_of_outcome (Option.some_ne_none _)⟩
    have hall := Con.receive_of_stops Con.accepted rfl rfl rfl hstops hsegments huncut
    rw [hall, if_neg hpost]

theorem requestReceived_asked (h : Askable req uri) (date tail : Bytes) (type : Cmd) :
    (requestReceived req type uri tail).Asked
      (evhttpMakeHeader date (evhttpMakeRequest req type uri)).1 type uri := by
  have hmajor := (requestVersion h type).1
  have hsent : (evhttpMakeHeader date (evhttpMakeRequest req type uri)).1.outputHeaders =
      requestHeaders (evhttpMakeRequest req type uri) := by
    rw [evhttpMakeRequest_eq]
    rfl
  unfold requestReceived
  split <;> exact ⟨rfl, rfl, rfl, rfl, ⟨hmajor.symm, rfl⟩, hsent ▸ rfl⟩

/-- A request that is sent is the request that is read; of requests other than POST the
body is left. -/
theorem request_received (h : Askable req uri) {segments : List Bytes}
    (hsegments : segments.flatten =
      (evhttpMakeHeader date (evhttpMakeRequest req type uri)).2 ++ tail)
    (huncut : Con.Uncut Con.accepted segments) :
    let con := Con.after (Con.accepted.receive segments)
    con.Asked (evhttpMakeHeader date (evhttpMakeRequest req type uri)).1 type uri ∧
      if type = .post then con.req.inputBuffer = req.outputBuffer ∧ con.inputBuffer = tail
      else con.req.inputBuffer = [] ∧ con.inputBuffer = req.outputBuffer ++ tail := by
  rw [receive_request h hsegments huncut]
  refine ⟨requestReceived_asked h date tail type, ?_⟩
  unfold requestReceived
  split <;> exact ⟨rfl, rfl⟩

/-- A request with a body. -/
def postSample : Request :=
  { outputHeaders := [⟨bytes "Host", bytes "localhost"⟩], outputBuffer := bytes "q=1" }

theorem askable_postSample : Askable postSample (bytes "/find") where
  version := Or.inl ⟨rfl, rfl⟩
  uri_plain := plainLine_of_all (by decide)
  uri_space := by decide
  uri_fits := by decide
  headers_clean := List.forall_mem_singleton.mpr (clean_of_check _ _ (by decide))
  no_transfer := by decide
  no_length := by decide
  body_fits := by decide

theorem request_received_sample :
    let sent := evhttpMakeHeader [] (evhttpMakeRequest postSample .post (bytes "/find"))
    let con := Con.after (Con.accepted.receive [sent.2 ++ [71]])
    con.Asked sent.1 .post (bytes "/find") ∧
      if Cmd.post = .post then
        con.req.inputBuffer = postSample.outputBuffer ∧ con.inputBuffer = [71]
      else con.req.inputBuffer = [] ∧ con.inputBuffer = postSample.outputBuffer ++ [71] :=
  request_received askable_postSample (List.append_nil _)
    (Con.uncut_of_cleanCuts (Con.cleanCuts_singleton (List.append_ne_nil_of_right_ne_nil _
      (List.cons_ne_nil _ _))))

end Requests

end SearchTools.Libevent.Http
