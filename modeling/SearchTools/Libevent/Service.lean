/-
# A client and a server

The requests of a client over one connection, the server that reads them on its own side
of it and replies to each from its callback, and the answers that the client gets.
-/

import SearchTools.Libevent.Turns

namespace SearchTools.Libevent.Http

open SearchTools.Library

/-- What the callback of a server replies with. -/
structure Page where
  code : ℕ
  reason : Bytes
  databuf : Bytes

/-- A reply of this code and reason can be sent, and has a body. -/
structure Page.Sendable (page : Page) (date : Bytes) : Prop where
  code_pos : 0 < page.code
  code_max : page.code ≤ 2147483647
  code_body : ¬ (page.code = 204 ∨ page.code = 304 ∨ (100 ≤ page.code ∧ page.code < 200))
  reason_plain : PlainLine page.reason
  reason_fits : page.reason.length ≤ 1000
  date_clean : Evkeyval.Clean ⟨bytes "Date", date⟩
  body_fits : page.databuf.length < 100000000000

/-- The answer of a client says what the server replied with. -/
structure Page.ReadAs (page : Page) (answer : Request) : Prop where
  code_eq : answer.responseCode = page.code
  reason_eq : answer.responseCodeLine = some page.reason
  body_eq : answer.inputBuffer = page.databuf

/-! ## The server -/

section Server

variable (date : Bytes) (handler : Request → Page)

/-- The reply to a request as the server has read it. -/
def replyTo (seen : Request) : Reply :=
  ⟨date, seen, (handler seen).code, (handler seen).reason, (handler seen).databuf⟩

/-- `evhttp_send_done`, with `evhttp_associate_new_request_with_connection`: the connection is
freed, or it waits for the next request. -/
def Con.evhttpSendDone (con : Con) : Option Con :=
  let req := con.req
  let needClose := (req.minor = 0 && !evhttpIsConnectionKeepalive req.inputHeaders) ||
    evhttpIsConnectionClose req.proxy req.inputHeaders ||
    evhttpIsConnectionClose req.proxy req.outputHeaders
  if needClose then none
  else some { con with state := .readingFirstline, req := { kind := .request }, outcome := none }

/-- A request comes, and nothing else, and is replied to: the text of the reply, and what
becomes of the connection. -/
def Con.serveOne (con : Con) (asks : List Bytes) : Option (Bytes × Option Con) :=
  match con.receive asks with
  | (con, []) =>
    if con.outcome = none then none
    else
      let (req, text) := (replyTo date handler con.req).sent
      some (text, { con with req := req }.evhttpSendDone)
  | (_, _ :: _) => none

/-- One request after the other comes and is replied to. -/
def Con.serve (con : Con) : List (List Bytes) → Option (List Bytes × Con)
  | [] => some ([], con)
  | asks :: rest => do
    let (text, next) ← con.serveOne date handler asks
    let (texts, con) ← (← next).serve rest
    return (text :: texts, con)

end Server

namespace Turn

variable {τ : Type} (date sdate : Bytes) (handler : Request → Page) (t : Turn τ)

/-- The request as the server reads it. -/
def seen : Request := (requestReceived t.req t.type t.uri []).req

/-- A request of version 1.1 that can be sent, with a body only when it is a POST, in pieces
on the one side and in segments on the other; a page for it; and nobody closes the
connection. -/
structure ServedBy (asks : List Bytes) : Prop where
  writes_pos : ∀ n ∈ t.writes, 0 < n
  writes_sum : t.writes.sum = (t.sent date).2.length
  askable : Askable t.req t.uri
  fresh : Fresh t.req
  version : (evhttpMakeRequest t.req t.type t.uri).minor = 1
  body_read : t.type = .post ∨ t.req.outputBuffer = []
  asks_eq : asks.flatten = (t.sent date).2
  asks_cuts : Con.CleanCuts asks
  sendable : (handler t.seen).Sendable sdate
  cuts : Con.CleanCuts t.segments
  request_open : evhttpIsConnectionClose t.req.proxy (t.sent date).1.outputHeaders = false
  reply_open : evhttpIsConnectionClose t.req.proxy
    ((replyTo sdate handler t.seen).sent.1.outputHeaders.map Evkeyval.unfold) = false
  server_open : (evhttpIsConnectionClose t.seen.proxy t.seen.inputHeaders ||
    evhttpIsConnectionClose t.seen.proxy
      (replyTo sdate handler t.seen).sent.1.outputHeaders) = false

variable {date sdate handler t} {asks : List Bytes}

theorem seen_unsent : t.seen.outputHeaders = [] ∧ t.seen.outputBuffer = [] ∧ t.seen.major = 1 ∧
    t.seen.minor = (evhttpMakeRequest t.req t.type t.uri).minor := by
  unfold seen requestReceived
  split <;> exact ⟨rfl, rfl, rfl, rfl⟩

/-- The server has read the whole request, and nothing is left. -/
theorem ServedBy.receive_eq (h : t.ServedBy date sdate handler asks) :
    ∃ s : Session, Con.accepted.receive asks = (⟨s, []⟩, []) ∧ s.req = t.seen ∧
      s.outcome = some .done ∧ s.incoming = true := by
  obtain ⟨s, hs, hreq, hout, hin⟩ : ∃ s : Session,
      requestReceived t.req t.type t.uri [] = ⟨s, []⟩ ∧ s.req = t.seen ∧
        s.outcome = some .done ∧ s.incoming = true := by
    unfold seen requestReceived
    by_cases hpost : t.type = .post
    · rw [if_pos hpost]
      exact ⟨_, rfl, rfl, rfl, rfl⟩
    · rw [if_neg hpost, h.body_read.resolve_left hpost]
      exact ⟨_, rfl, rfl, rfl, rfl⟩
  have hreceive : Con.after (Con.accepted.receive asks) = ⟨s, []⟩ :=
    (receive_request h.askable (h.asks_eq.trans (List.append_nil _).symm)
      (Con.uncut_of_cleanCuts h.asks_cuts)).trans hs
  exact ⟨s, Con.receive_of_after h.asks_cuts hreceive, hreq, hout, hin⟩

theorem ServedBy.answerable (h : t.ServedBy date sdate handler asks) :
    Answerable sdate t.seen (handler t.seen).code (handler t.seen).reason where
  major := seen_unsent.2.2.1
  minor := seen_unsent.2.2.2.trans h.version
  code_pos := h.sendable.code_pos
  code_max := h.sendable.code_max
  code_body := h.sendable.code_body
  reason_plain := h.sendable.reason_plain
  reason_fits := h.sendable.reason_fits
  headers_clean := by rw [seen_unsent.1]; exact List.forall_mem_nil _
  date_clean := h.sendable.date_clean
  no_transfer := by rw [seen_unsent.1]; rfl
  no_length := by rw [seen_unsent.1]; rfl

end Turn

namespace Client

variable {τ : Type} (date sdate : Bytes) (handler : Request → Page)

end Client

end SearchTools.Libevent.Http
