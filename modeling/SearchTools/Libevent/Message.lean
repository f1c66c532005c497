/-
# Reading an HTTP message

The functions of `contrib/libevent/http.c` that read a request or a response from a
connection, from the first line to the end of the body. A connection has one request
here, and what happens after its callback was called is left out; so are the events,
apart from whether the connection still waits for one.
-/

import SearchTools.Libevent.Headers
import SearchTools.Library.Numeral

namespace SearchTools.Libevent.Http

open SearchTools.Library

/-- `enum evhttp_request_kind`. -/
inductive Kind
  | request
  | response
  deriving DecidableEq, Repr

/-- `enum evhttp_cmd_type`. -/
inductive Cmd
  | get
  | post
  | head
  deriving DecidableEq, Repr

/-- `struct evhttp_request`, as `evhttp_request_new` returns it. Of `flags` there is
`EVHTTP_PROXY_REQUEST`; `chunks` are the bodies that `chunk_cb` was called with. -/
structure Request where
  kind : Kind := .response
  type : Cmd := .get
  uri : Option Bytes := none
  major : ℕ := 0
  minor : ℕ := 0
  proxy : Bool := false
  responseCode : ℤ := 0
  responseCodeLine : Option Bytes := none
  inputHeaders : Headers := []
  outputHeaders : Headers := []
  inputBuffer : Bytes := []
  outputBuffer : Bytes := []
  ntoread : ℤ := 0
  chunked : Bool := false
  chunkCb : Bool := false
  chunks : List Bytes := []
  deriving DecidableEq, Repr

/-- `enum evhttp_connection_state`, as far as a message is read. -/
inductive ConState
  | idle
  | readingFirstline
  | readingHeaders
  | readingBody
  | readingTrailer
  | writing
  deriving DecidableEq, Repr

/-- `enum evhttp_connection_error`. -/
inductive ConError
  | timeout
  | eof
  | invalidHeader
  deriving DecidableEq, Repr

/-- How the reading ended: the request is complete, or it failed. -/
inductive Outcome
  | done
  | failed (error : ConError)
  deriving DecidableEq, Repr

/-- A connection without its buffer. It waits to be read from as long as there is no
outcome. -/
structure Session where
  incoming : Bool
  state : ConState
  req : Request
  outcome : Option Outcome := none
  deriving DecidableEq, Repr

/-- `struct evhttp_connection`. -/
structure Con extends Session where
  inputBuffer : Bytes
  deriving DecidableEq, Repr

/-! ## First lines -/

/-- The protocol version of a first line. -/
def parseVersion (version : Bytes) : Option (ℕ × ℕ) :=
  if version = bytes "HTTP/1.0" then some (1, 0)
  else if version = bytes "HTTP/1.1" then some (1, 1)
  else none

def parseMethod (method : Bytes) : Option Cmd :=
  if method = bytes "GET" then some .get
  else if method = bytes "POST" then some .post
  else if method = bytes "HEAD" then some .head
  else none

/-- `evhttp_parse_request_line`: false for -1. -/
def evhttpParseRequestLine (req : Request) (line : Bytes) : Request × Bool :=
  match strsep line 32 with
  | (_, none) => (req, false)
  | (method, some line) =>
    match strsep line 32 with
    | (_, none) => (req, false)
    | (uri, some line) =>
      match strsep line 32 with
      | (_, some _) => (req, false)
      | (version, none) =>
        match parseMethod method with
        | none => (req, false)
        | some type =>
          let req := { req with type := type }
          match parseVersion version with
          | none => (req, false)
          | some (major, minor) =>
            ({ req with
              major := major, minor := minor, uri := some uri
              proxy := req.proxy || uri.head?.any (· ≠ 47) }, true)

/-- `evhttp_parse_response_line`. -/
def evhttpParseResponseLine (req : Request) (line : Bytes) : Request × Bool :=
  match strsep line 32 with
  | (_, none) => (req, false)
  | (protocol, some line) =>
    match strsep line 32 with
    | (_, none) => (req, false)
    | (number, some readable) =>
      match parseVersion protocol with
      | none => (req, false)
      | some (major, minor) =>
        let req := { req with major := major, minor := minor, responseCode := atoi number }
        -- `evhttp_valid_response_code`
        if req.responseCode = 0 then (req, false)
        else ({ req with responseCodeLine := some readable }, true)

/-- What `evhttp_parse_firstline` does with the line. -/
def parseFirstlineOf (req : Request) (line : Bytes) : Request × Bool :=
  match req.kind with
  | .request => evhttpParseRequestLine req line
  | .response => evhttpParseResponseLine req line

/-- `evhttp_parse_firstline`. -/
def evhttpParseFirstline (req : Request) (buffer : Bytes) : Request × Bytes × ReadStatus :=
  match firstLine buffer with
  | none => (req, buffer, .moreDataExpected)
  | some (line, buffer) =>
    match parseFirstlineOf req (cstr line) with
    | (req, true) => (req, buffer, .allDataRead)
    | (req, false) => (req, buffer, .dataCorrupted)

/-! ## The body -/

/-- `evhttp_get_body_length`; nothing for -1. -/
def evhttpGetBodyLength (req : Request) : Option Request :=
  let contentLength := evhttpFindHeader req.inputHeaders (bytes "Content-Length")
  let connection := evhttpFindHeader req.inputHeaders (bytes "Connection")
  match contentLength, connection with
  | none, none => some { req with ntoread := -1 }
  | none, some connection =>
    if strcaseEq connection (bytes "Close") then some { req with ntoread := -1 } else none
  | some contentLength, _ =>
    let (ntoread, endp) := strtoll 10 contentLength
    if contentLength = [] ∨ endp ≠ [] ∨ ntoread < 0 then none
    else some { req with ntoread := ntoread }

/-- What `evhttp_handle_chunked_read` does with a line: the size of a chunk, nothing for
an empty line, or an error. -/
def chunkSize (p : Bytes) : Except ReadStatus (Option ℤ) :=
  match p with
  | [] => .ok none
  | p =>
    let (ntoread, endp) := strtoll 16 p
    if (endp ≠ [] ∧ endp.head? ≠ some 32) ∨ ntoread < 0 then .error .dataCorrupted
    else .ok (some ntoread)

/-- A completed chunk goes to the input buffer, and from there to the callback. -/
def completeChunk (req : Request) (data : Bytes) : Request :=
  let req := { req with inputBuffer := req.inputBuffer ++ data, ntoread := -1 }
  if req.chunkCb then { req with chunks := req.chunks ++ [req.inputBuffer], inputBuffer := [] }
  else req

/-- The loop of `evhttp_handle_chunked_read`. -/
def handleChunkedLoop : ℕ → Request → Bytes → Request × Bytes × ReadStatus
  | 0, req, buf => (req, buf, .moreDataExpected)
  | fuel + 1, req, buf =>
    if buf.length = 0 then (req, buf, .moreDataExpected)
    else if req.ntoread < 0 then
      match firstLine buf with
      | none => (req, buf, .moreDataExpected)
      | some (p, buf) =>
        match chunkSize (cstr p) with
        | .error status => (req, buf, status)
        | .ok none => handleChunkedLoop fuel req buf
        | .ok (some ntoread) =>
          let req := { req with ntoread := ntoread }
          if ntoread = 0 then (req, buf, .allDataRead) else handleChunkedLoop fuel req buf
    else if (buf.length : ℤ) < req.ntoread then (req, buf, .moreDataExpected)
    else
      handleChunkedLoop fuel (completeChunk req (buf.take req.ntoread.toNat))
        (buf.drop req.ntoread.toNat)

/-- `evhttp_handle_chunked_read`. Of any two passes one takes a byte or more. -/
def evhttpHandleChunkedRead (req : Request) (buf : Bytes) : Request × Bytes × ReadStatus :=
  handleChunkedLoop (2 * buf.length + 2) req buf

/-! ## The connection -/

namespace Session

variable (s : Session)

/-- `evhttp_connection_done`, up to the callback. -/
def done : Session :=
  { s with state := if s.incoming then .writing else .idle, outcome := some .done }

/-- `evhttp_connection_fail`, up to the callback: an invalid request has no URI. -/
def fail (error : ConError) : Session :=
  { s with
    outcome := some (.failed error)
    req := if s.incoming ∧ error = .invalidHeader then { s.req with uri := none } else s.req }

/-- `evhttp_get_body`, up to the reading of the body. -/
def getBody : Session :=
  if s.req.kind = .request ∧ s.req.type ≠ .post then s.done
  else
    let s := { s with state := .readingBody }
    let xferEnc := evhttpFindHeader s.req.inputHeaders (bytes "Transfer-Encoding")
    if xferEnc.any fun value => strcaseEq value (bytes "chunked") then
      { s with req := { s.req with chunked := true, ntoread := -1 } }
    else
      match evhttpGetBodyLength s.req with
      | none => s.fail .invalidHeader
      | some req => { s with req := req }

/-- The end of `evhttp_read_header`, up to the reading of the body. -/
def headersRead : Session :=
  match s.req.kind with
  | .request => s.getBody
  | .response =>
    if s.req.responseCode = 204 ∨ s.req.responseCode = 304 ∨
        (s.req.responseCode ≥ 100 ∧ s.req.responseCode < 200) then s.done
    else s.getBody

/-- The headers that were read so far. -/
def withHeaders (headers : Headers) : Session :=
  { s with req := { s.req with inputHeaders := headers } }

end Session

namespace Con

variable (con : Con)

/-- `evhttp_read_trailer`. -/
def evhttpReadTrailer : Con :=
  match evhttpParseHeaders con.req.inputHeaders con.inputBuffer with
  | (headers, buffer, .dataCorrupted) =>
    ⟨(con.toSession.withHeaders headers).fail .invalidHeader, buffer⟩
  | (headers, buffer, .allDataRead) => ⟨(con.toSession.withHeaders headers).done, buffer⟩
  | (headers, buffer, .moreDataExpected) => ⟨con.toSession.withHeaders headers, buffer⟩

/-- `evhttp_read_body`. -/
def evhttpReadBody : Con :=
  if con.req.chunked then
    match evhttpHandleChunkedRead con.req con.inputBuffer with
    | (req, buffer, .allDataRead) =>
      evhttpReadTrailer ⟨{ con.toSession with req := req, state := .readingTrailer }, buffer⟩
    | (req, buffer, .dataCorrupted) =>
      ⟨{ con.toSession with req := req }.fail .invalidHeader, buffer⟩
    | (req, buffer, .moreDataExpected) => ⟨{ con.toSession with req := req }, buffer⟩
  else if con.req.ntoread < 0 then
    -- Read until connection close.
    ⟨{ con.toSession with
      req := { con.req with inputBuffer := con.req.inputBuffer ++ con.inputBuffer } }, []⟩
  else if (con.inputBuffer.length : ℤ) ≥ con.req.ntoread then
    let n := con.req.ntoread.toNat
    ⟨{ con.toSession with
      req := { con.req with
        inputBuffer := con.req.inputBuffer ++ con.inputBuffer.take n, ntoread := 0 } }.done,
      con.inputBuffer.drop n⟩
  else con

/-- The headers are complete. -/
def afterHeaders : Con :=
  let s := con.toSession.headersRead
  if s.outcome = none then evhttpReadBody ⟨s, con.inputBuffer⟩ else ⟨s, con.inputBuffer⟩

/-- `evhttp_read_header`. -/
def evhttpReadHeader : Con :=
  match evhttpParseHeaders con.req.inputHeaders con.inputBuffer with
  | (headers, buffer, .dataCorrupted) =>
    ⟨(con.toSession.withHeaders headers).fail .invalidHeader, buffer⟩
  | (headers, buffer, .moreDataExpected) => ⟨con.toSession.withHeaders headers, buffer⟩
  | (headers, buffer, .allDataRead) => afterHeaders ⟨con.toSession.withHeaders headers, buffer⟩

/-- `evhttp_read_firstline`. -/
def evhttpReadFirstline : Con :=
  match evhttpParseFirstline con.req con.inputBuffer with
  | (req, buffer, .dataCorrupted) =>
    ⟨{ con.toSession with req := req }.fail .invalidHeader, buffer⟩
  | (req, buffer, .moreDataExpected) => ⟨{ con.toSession with req := req }, buffer⟩
  | (req, buffer, .allDataRead) =>
    evhttpReadHeader ⟨{ con.toSession with req := req, state := .readingHeaders }, buffer⟩

/-- What `evhttp_read` is called for. -/
inductive ReadEvent
  | timeout
  /-- `read` fails, to be tried again or not. -/
  | error (again : Bool)
  | closed
  | data (bytes : Bytes)

/-- The end of `evhttp_read`. In the other states the program ends; no read event is
pending in them. -/
def readState : Con :=
  match con.state with
  | .readingFirstline => con.evhttpReadFirstline
  | .readingHeaders => con.evhttpReadHeader
  | .readingBody => con.evhttpReadBody
  | .readingTrailer => con.evhttpReadTrailer
  | .idle | .writing => con

/-- `evhttp_read`. -/
def evhttpRead : ReadEvent → Con
  | .timeout => ⟨con.toSession.fail .timeout, con.inputBuffer⟩
  | .error again => if again then con else ⟨con.toSession.fail .eof, con.inputBuffer⟩
  | .closed => ⟨con.toSession.done, con.inputBuffer⟩
  | .data bytes => readState { con with inputBuffer := con.inputBuffer ++ bytes }

/-- The segments that come in, as long as the connection waits for them, and those that
are not read. -/
def receive (con : Con) : List Bytes → Con × List Bytes
  | [] => (con, [])
  | segment :: segments =>
    if con.outcome = none then receive (con.evhttpRead (.data segment)) segments
    else (con, segment :: segments)

end Con

/-- A connection of a server that waits for a request. -/
def Con.accepted : Con :=
  { incoming := true, state := .readingFirstline, req := { kind := .request }, inputBuffer := [] }

/-- A connection of a client that waits for the answer to a request, as
`evhttp_write_connectioncb` leaves it. -/
def Con.asked (req : Request) : Con :=
  { incoming := false, state := .readingFirstline, req := { req with kind := .response }
    inputBuffer := [] }

end SearchTools.Libevent.Http
