/-
# Requests in turn

A client makes several requests over one connection of `contrib/libevent/http.c`, and a
server answers one after the other and keeps the connection open. The texts of the
requests are written in any pieces, and those of the answers come in any segments.
-/

import Mathlib.Data.List.Forall2
import SearchTools.Libevent.Client
import SearchTools.Libevent.Exchange

namespace SearchTools.Libevent.Http

open SearchTools.Library

namespace Client

variable {τ : Type} (date : Bytes) (c : Client τ)

/-- The connection while the answer to its first request is read. -/
def reading (con : Con) (asking : Asking τ) (requests : List (Asking τ)) : Client τ :=
  { c with
    link := .up con.state, requests := { asking with req := con.req } :: requests
    inputBuffer := con.inputBuffer, ev := some .read }

/-- The connection when the text of its first request is about to be written. -/
def dispatched (asking : Asking τ) (requests : List (Asking τ)) : Client τ :=
  let (req, text) := evhttpMakeHeader date asking.req
  { c with
    closeEv := false, link := .up .writing, requests := { asking with req := req } :: requests
    outputBuffer := text, ev := some .write }

variable {c}

theorem run_append {s t : List (ClientStep τ)} :
    run date c (s ++ t) = run date c s >>= fun c => run date c t := by
  induction s generalizing c with
  | nil => rfl
  | cons step s ih =>
    rw [List.cons_append, run, run]
    cases c.step date step with
    | error abort => rfl
    | ok c => exact ih

theorem run_of_step {s : ClientStep τ} {steps : List (ClientStep τ)} {c' : Client τ}
    (h : c.step date s = .ok c') : run date c (s :: steps) = run date c' steps := by
  rw [run, h]
  rfl

theorem run_singleton {s : ClientStep τ} : run date c [s] = c.step date s := by
  rw [run]
  cases c.step date s with
  | error abort => rfl
  | ok c => rfl

theorem run_of_run {s t : List (ClientStep τ)} {c' : Client τ} (h : run date c s = .ok c') :
    run date c (s ++ t) = run date c' t := by
  rw [run_append, h]
  rfl

/-- The text of a request is written, in whatever pieces. -/
theorem run_writes {ns : List ℕ} (hpos : ∀ n ∈ ns, 0 < n) (hsum : ns.sum = c.outputBuffer.length)
    (hne : c.outputBuffer ≠ []) (hev : c.ev = some .write) :
    run date c (ns.map fun n => .write (.wrote n) true) =
      { c with outputBuffer := [], ev := none }.evhttpWriteConnectioncb := by
  induction ns generalizing c with
  | nil => exact absurd (List.eq_nil_of_length_eq_zero hsum.symm) hne
  | cons n ns ih =>
    obtain ⟨hn, hrestPos⟩ := List.forall_mem_cons.mp hpos
    rw [List.sum_cons] at hsum
    obtain ⟨m, rfl⟩ : ∃ m, n = m + 1 := ⟨n - 1, by omega⟩
    obtain ⟨left, hleft⟩ : ∃ left, left = c.outputBuffer.drop (m + 1) := ⟨_, rfl⟩
    have hlength : ns.sum = left.length := by
      rw [hleft, List.length_drop]
      omega
    have hstep : c.step date (.write (.wrote (m + 1)) true) =
        if left ≠ [] then .ok { c with outputBuffer := left, ev := some .write }
        else { c with outputBuffer := left, ev := none }.evhttpWriteConnectioncb := by
      rw [hleft]
      rfl
    by_cases hrest : left ≠ []
    · rw [if_pos hrest] at hstep
      exact (run_of_step date hstep).trans (ih hrestPos hlength hrest rfl)
    · rw [if_neg hrest, not_not.mp hrest] at hstep
      have hnil : ns = [] := by
        rw [not_not.mp hrest, List.length_nil] at hlength
        cases ns with
        | nil => rfl
        | cons n ns =>
          have := hrestPos n (List.mem_cons_self ..)
          rw [List.sum_cons] at hlength
          omega
      rw [hnil]
      exact (run_singleton date).trans hstep

theorem eta_reads {con : Con} (hin : con.incoming = false) (hout : con.outcome = none) :
    (⟨⟨false, con.state, con.req, none⟩, con.inputBuffer⟩ : Con) = con := by
  obtain ⟨⟨incoming, state, req, outcome⟩, buffer⟩ := con
  cases hin
  cases hout
  rfl

/-- An answer is read, in whatever segments, as a connection reads it. -/
theorem run_reads {con con' : Con} (hreads : con.Reads) (hout : con.outcome = none)
    {asking : Asking τ} {requests : List (Asking τ)} {segments : List Bytes}
    (hreceive : con.receive segments = (con', [])) (hdone : con'.outcome = some .done) :
    run date (c.reading con asking requests)
        (segments.map fun segment => .read (.data segment) true) =
      { c.reading con' asking requests with ev := none }.evhttpConnectionDone date true := by
  induction segments generalizing con with
  | nil =>
    obtain rfl : con = con' := congrArg Prod.fst hreceive
    rw [hout] at hdone
    cases hdone
  | cons segment segments ih =>
    obtain ⟨con₁, hcon₁⟩ : ∃ con₁, con₁ = con.evhttpRead (.data segment) := ⟨_, rfl⟩
    have hreads₁ : con₁.Reads := hcon₁ ▸ Con.evhttpRead_reads hreads hout (.data segment)
    have hstep : (c.reading con asking requests).step date (.read (.data segment) true) =
        { c.reading con₁ asking requests with ev := none }.afterRead date con₁.outcome true := by
      rw [hcon₁, ← eta_reads hreads.outgoing hout]
      exact if_neg (hreads.waits hout)
    rw [Con.receive, if_pos hout, ← hcon₁] at hreceive
    rw [List.map_cons]
    cases hout₁ : con₁.outcome with
    | none =>
      rw [hout₁] at hstep
      exact (run_of_step date hstep).trans (ih hreads₁ hout₁ hreceive)
    | some outcome =>
      have hend : (con₁, segments) = (con', []) := by
        rw [← hreceive]
        cases segments with
        | nil => rfl
        | cons next segments =>
          have hne : con₁.outcome ≠ none := by
            rw [hout₁]
            exact Option.some_ne_none _
          rw [Con.receive, if_neg hne]
      obtain ⟨rfl, rfl⟩ := Prod.mk.inj hend
      rw [hout₁] at hdone
      obtain rfl := Option.some.inj hdone
      rw [List.map_nil, run_singleton, hstep, hout₁]
      rfl

end Client

/-! ## Turns -/

/-- A request of a client and the answer to it: the request as it is made, the pieces in
which its text is written, the segments in which the answer comes. -/
structure Turn (τ : Type) where
  cbArg : τ
  req : Request
  type : Cmd
  uri : Bytes
  writes : List ℕ
  segments : List Bytes

namespace Turn

variable {τ : Type} (date : Bytes) (t : Turn τ)

/-- The request as it waits. -/
def asking : Asking τ := ⟨t.cbArg, evhttpMakeRequest t.req t.type t.uri⟩

/-- The request and its text. -/
def sent : Request × Bytes := evhttpMakeHeader date (evhttpMakeRequest t.req t.type t.uri)

/-- The connection that has read the answer. -/
def read : Con := ((Con.asked (t.sent date).1).receive t.segments).1

/-- The request is made. -/
def make : ClientStep τ := .makeRequest t.cbArg t.req t.type t.uri true

/-- What the event loop calls back during the turn. -/
def events : List (ClientStep τ) :=
  t.writes.map (fun n => .write (.wrote n) true) ++
    t.segments.map fun segment => .read (.data segment) true

/-- The text is written, the answer is all that comes, and the connection stays open. -/
structure Kept : Prop where
  writes_pos : ∀ n ∈ t.writes, 0 < n
  writes_sum : t.writes.sum = (t.sent date).2.length
  receive_eq : (Con.asked (t.sent date).1).receive t.segments = (t.read date, [])
  read_done : (t.read date).outcome = some .done
  read_all : (t.read date).inputBuffer = []
  stays_open : (evhttpIsConnectionClose (t.read date).req.proxy (t.read date).req.inputHeaders ||
    evhttpIsConnectionClose (t.read date).req.proxy (t.read date).req.outputHeaders) = false

end Turn

namespace Client

variable {τ : Type} (date : Bytes) {c : Client τ}

theorem sent_ne_nil (req : Request) : (evhttpMakeHeader date req).2 ≠ [] := by
  unfold evhttpMakeHeader
  intro h
  have hline := (List.append_eq_nil_iff.mp (List.append_eq_nil_iff.mp h).1).2
  cases hline

theorem writeConnectioncb_dispatched (t : Turn τ) (requests : List (Asking τ))
    (hinput : c.inputBuffer = []) :
    { c.dispatched date t.asking requests with
      outputBuffer := [], ev := none }.evhttpWriteConnectioncb =
      .ok ({ c with closeEv := false, outputBuffer := [] }.reading
        (Con.asked (t.sent date).1) t.asking requests) := by
  obtain ⟨link, waiting, input, output, ev, closeEv, cnt, max, failing, called⟩ := c
  cases hinput
  rfl

/-- A turn on a connection over which nothing is left of the turns before. -/
theorem run_turn {t : Turn τ} (ht : t.Kept date) (requests : List (Asking τ))
    (hinput : c.inputBuffer = []) :
    run date (c.dispatched date t.asking requests) t.events =
      { c.reading (t.read date) t.asking requests with
        closeEv := false, outputBuffer := [], ev := none }.evhttpConnectionDone date true := by
  rw [Turn.events, run_append, run_writes date ht.writes_pos ht.writes_sum (sent_ne_nil date _) rfl,
    writeConnectioncb_dispatched date t requests hinput]
  exact run_reads date (Session.reads_of_state .readingFirstline rfl rfl (by decide)) rfl
    ht.receive_eq ht.read_done

/-- What is left when everything was answered. -/
def settled (c : Client τ) (turns : List (Turn τ)) : Client τ :=
  { c with
    link := .up .idle, requests := [], inputBuffer := [], outputBuffer := [], ev := none
    closeEv := true
    called := c.called ++ turns.map fun t => (t.cbArg, some (t.read date).req) }

/-- The idle connection between two turns. -/
def between (c : Client τ) (requests : List (Asking τ)) : Client τ :=
  { c with
    link := .up .idle, requests := requests, inputBuffer := [], outputBuffer := [], ev := none
    closeEv := false }

/-- A callback is called. -/
def call (c : Client τ) (call : τ × Option Request) : Client τ :=
  { c with called := c.called ++ [call] }

theorem done_of_kept {t : Turn τ} (ht : t.Kept date) (requests : List (Asking τ)) :
    { c.reading (t.read date) t.asking requests with
      closeEv := false, outputBuffer := [], ev := none }.evhttpConnectionDone date true =
    ((c.between requests).prepareNext date false true).map fun c =>
      c.call (t.cbArg, some (t.read date).req) := by
  unfold evhttpConnectionDone
  dsimp only [reading]
  rw [ht.stays_open, ht.read_all]
  rfl

/-- Turn after turn, each on what the one before has left. -/
theorem run_turns {t : Turn τ} {turns : List (Turn τ)} (hkept : ∀ t' ∈ t :: turns, t'.Kept date)
    (hinput : c.inputBuffer = []) :
    run date (c.dispatched date t.asking (turns.map Turn.asking))
        ((t :: turns).flatMap Turn.events) = .ok (c.settled date (t :: turns)) := by
  induction turns generalizing c t with
  | nil =>
    rw [List.flatMap_cons, List.flatMap_nil, List.append_nil,
      run_turn date (hkept t (List.mem_cons_self ..)) _ hinput,
      done_of_kept date (hkept t (List.mem_cons_self ..))]
    rfl
  | cons next turns ih =>
    obtain ⟨ht, hnext⟩ := List.forall_mem_cons.mp hkept
    obtain ⟨answer, hanswer⟩ : ∃ answer, answer = (t.cbArg, some (t.read date).req) := ⟨_, rfl⟩
    have hprepared : ((c.between ((next :: turns).map Turn.asking)).prepareNext date false true).map
        (fun c => c.call answer) =
        .ok (((c.between []).call answer).dispatched date next.asking
          (turns.map Turn.asking)) := rfl
    have hsettled : ((c.between []).call answer).settled date (next :: turns) =
        c.settled date (t :: next :: turns) := by
      dsimp only [settled, call, between]
      rw [List.append_assoc, hanswer]
      rfl
    rw [List.flatMap_cons, run_append, run_turn date ht _ hinput, done_of_kept date ht,
      ← hanswer, hprepared, ← hsettled]
    exact ih hnext rfl

/-- Requests that are made before there is a connection wait for it. -/
theorem run_makes {turns : List (Turn τ)} (hlink : c.link = .connecting) :
    run date c (turns.map Turn.make) =
      .ok { c with requests := c.requests ++ turns.map Turn.asking } := by
  induction turns generalizing c with
  | nil =>
    rw [List.map_nil, List.map_nil, List.append_nil]
    rfl
  | cons t turns ih =>
    have hstep : c.step date t.make = .ok { c with requests := c.requests ++ [t.asking] } := by
      obtain ⟨link, waiting, input, output, ev, closeEv, cnt, max, failing, called⟩ := c
      cases hlink
      rfl
    rw [List.map_cons, run_of_step date hstep]
    refine (ih (c := { c with requests := c.requests ++ [t.asking] }) hlink).trans ?_
    rw [List.append_assoc]
    rfl

/-- Whatever pieces the requests are written in and whatever segments the answers come in,
every request gets its own answer. -/
theorem run_settled {t : Turn τ} {turns : List (Turn τ)}
    (hkept : ∀ t' ∈ t :: turns, t'.Kept date) :
    run date {} ((t :: turns).map Turn.make ++
        .connection true :: (t :: turns).flatMap Turn.events) =
      .ok (({} : Client τ).settled date (t :: turns)) := by
  have hfirst : ({} : Client τ).step date t.make =
      .ok { link := .connecting, requests := [t.asking], ev := some .connection } := rfl
  have hconnected : Client.step date
      { link := .connecting, requests := [t.asking] ++ turns.map Turn.asking
        ev := some .connection }
      (.connection true) =
      .ok (({} : Client τ).dispatched date t.asking (turns.map Turn.asking)) := rfl
  rw [List.map_cons, List.cons_append, run_of_step date hfirst,
    run_of_run date (run_makes date rfl), run_of_step date hconnected]
  exact run_turns date hkept rfl

end Client

/-! ## Answers of a server -/

/-- A reply, as it is given to `evhttp_send_reply`. -/
structure Reply where
  date : Bytes
  req : Request
  code : ℕ
  reason : Bytes
  databuf : Bytes

/-- The reply and its text. -/
def Reply.sent (r : Reply) : Request × Bytes :=
  evhttpSendReply r.date r.req r.code r.reason r.databuf

/-- The request that is given to the callback says what the server replied. -/
structure Reply.ReadAs (r : Reply) (req : Request) : Prop where
  code_eq : req.responseCode = r.code
  reason_eq : req.responseCodeLine = some r.reason
  headers_eq : req.inputHeaders = r.sent.1.outputHeaders.map Evkeyval.unfold
  body_eq : req.inputBuffer = r.req.outputBuffer ++ r.databuf

namespace Con

variable {con : Con} {segments : List Bytes}

theorem receive_suffix : (con.receive segments).2 <:+ segments := by
  induction segments generalizing con with
  | nil => exact List.suffix_rfl
  | cons segment segments ih =>
    rw [receive]
    split
    · exact ih.trans (List.suffix_cons ..)
    · exact List.suffix_rfl

theorem CleanCuts.ne_nil (h : CleanCuts segments) : ∀ segment ∈ segments, segment ≠ [] := by
  induction segments with
  | nil => nofun
  | cons segment segments ih => exact List.forall_mem_cons.mpr ⟨h.1, ih h.2.2⟩

/-- Nothing is left when nothing is left in the buffer and the segments together. -/
theorem receive_of_after (hcuts : CleanCuts segments) {s : Session}
    (h : after (con.receive segments) = ⟨s, []⟩) : con.receive segments = (⟨s, []⟩, []) := by
  have hsuffix : (con.receive segments).2 <:+ segments := receive_suffix
  rcases hresult : con.receive segments with ⟨⟨s', buffer⟩, left⟩
  rw [hresult] at h hsuffix
  obtain ⟨rfl, hbuffer⟩ := Con.mk.inj h
  obtain ⟨rfl, hleft⟩ := List.append_eq_nil_iff.mp hbuffer
  cases left with
  | nil => rfl
  | cons segment left =>
    have hne := hcuts.ne_nil segment (hsuffix.subset (List.mem_cons_self ..))
    exact absurd (List.append_eq_nil_iff.mp hleft).1 hne

end Con

namespace Turn

variable {τ : Type} (date : Bytes) (t : Turn τ)

/-- What comes is the reply, and neither side closes the connection. -/
structure AnsweredWith (r : Reply) : Prop where
  writes_pos : ∀ n ∈ t.writes, 0 < n
  writes_sum : t.writes.sum = (t.sent date).2.length
  fresh : Fresh t.req
  answerable : Answerable r.date r.req r.code r.reason
  body_fits : (r.req.outputBuffer ++ r.databuf).length < 100000000000
  segments_eq : t.segments.flatten = r.sent.2
  cuts : Con.CleanCuts t.segments
  request_open : evhttpIsConnectionClose t.req.proxy (t.sent date).1.outputHeaders = false
  reply_open : evhttpIsConnectionClose t.req.proxy
    (r.sent.1.outputHeaders.map Evkeyval.unfold) = false

variable {date t}

theorem fresh_sent (h : Fresh t.req) : Fresh (t.sent date).1 := by
  unfold sent evhttpMakeHeader evhttpMakeRequest
  dsimp only
  split <;> exact ⟨h.headers, h.buffer, h.chunked⟩

theorem proxy_sent : (t.sent date).1.proxy = t.req.proxy := by
  unfold sent evhttpMakeHeader evhttpMakeRequest
  dsimp only
  split <;> rfl

variable {r : Reply}

theorem AnsweredWith.receive_eq (h : t.AnsweredWith date r) :
    (Con.asked (t.sent date).1).receive t.segments =
      (⟨replyRead (t.sent date).1 r.code r.reason r.sent.1.outputHeaders
        (r.req.outputBuffer ++ r.databuf), []⟩, []) :=
  Con.receive_of_after h.cuts <| receive_reply h.answerable h.body_fits (fresh_sent h.fresh)
    (h.segments_eq.trans (List.append_nil _).symm) (Con.uncut_of_cleanCuts h.cuts)

theorem AnsweredWith.read_eq (h : t.AnsweredWith date r) :
    t.read date = ⟨replyRead (t.sent date).1 r.code r.reason r.sent.1.outputHeaders
      (r.req.outputBuffer ++ r.databuf), []⟩ := congrArg Prod.fst h.receive_eq

theorem AnsweredWith.kept (h : t.AnsweredWith date r) : t.Kept date where
  writes_pos := h.writes_pos
  writes_sum := h.writes_sum
  receive_eq := by rw [h.read_eq, h.receive_eq]
  read_done := by rw [h.read_eq]; rfl
  read_all := by rw [h.read_eq]
  stays_open := by
    rw [h.read_eq]
    show (evhttpIsConnectionClose (t.sent date).1.proxy (r.sent.1.outputHeaders.map Evkeyval.unfold)
      || evhttpIsConnectionClose (t.sent date).1.proxy (t.sent date).1.outputHeaders) = false
    rw [proxy_sent, h.reply_open, h.request_open]
    rfl

theorem AnsweredWith.readAs (h : t.AnsweredWith date r) : r.ReadAs (t.read date).req := by
  rw [h.read_eq]
  refine ⟨rfl, rfl, rfl, ?_⟩
  show (t.sent date).1.inputBuffer ++ _ = _
  rw [(fresh_sent h.fresh).buffer, List.nil_append]

end Turn

namespace Client

variable {τ : Type} (date : Bytes)

/-- An idle connection with nothing left of the requests and answers. -/
structure AtRest (c : Client τ) : Prop where
  link_eq : c.link = .up .idle
  waiting_eq : c.waiting = []
  input_eq : c.inputBuffer = []
  output_eq : c.outputBuffer = []
  ev_eq : c.ev = none

theorem run_kept {β : Type} {turns : List (Turn τ × β)} (hne : turns ≠ [])
    (hkept : ∀ turn ∈ turns, turn.1.Kept date) :
    ∃ c, run date {} (turns.map (fun turn => turn.1.make) ++
        .connection true :: turns.flatMap fun turn => turn.1.events) = .ok c ∧ c.AtRest ∧
      c.called = turns.map fun turn => (turn.1.cbArg, some (turn.1.read date).req) := by
  obtain ⟨turn, rest, rfl⟩ := List.exists_cons_of_ne_nil hne
  have hall : ∀ t ∈ turn.1 :: rest.map Prod.fst, t.Kept date := by
    rw [← List.map_cons]
    intro t ht
    obtain ⟨turn', hmem, rfl⟩ := List.mem_map.mp ht
    exact hkept turn' hmem
  have hrun := run_settled date hall
  rw [← List.map_cons, List.map_map, List.flatMap_map] at hrun
  refine ⟨_, hrun, ⟨rfl, rfl, rfl, rfl, rfl⟩, ?_⟩
  show [] ++ _ = _
  rw [List.nil_append, List.map_map]
  rfl

/-- Requests that are made one after the other over a new connection are all sent, and each
is answered by the reply to it, whatever pieces and segments the texts come in: its callback
is called with it, in the order of the requests, and nothing is left over in the end. -/
theorem replies_called {turns : List (Turn τ × Reply)} (hne : turns ≠ [])
    (h : ∀ turn ∈ turns, turn.1.AnsweredWith date turn.2) :
    ∃ c, run date {} (turns.map (fun turn => turn.1.make) ++
        .connection true :: turns.flatMap fun turn => turn.1.events) = .ok c ∧ c.AtRest ∧
      List.Forall₂ (fun turn call => call.1 = turn.1.cbArg ∧
        ∃ answer, call.2 = some answer ∧ turn.2.ReadAs answer) turns c.called := by
  obtain ⟨c, hrun, hrest, hcalled⟩ := run_kept date hne fun turn hmem => (h turn hmem).kept
  refine ⟨c, hrun, hrest, ?_⟩
  rw [hcalled, List.forall₂_map_right_iff, List.forall₂_same]
  exact fun turn hmem => ⟨rfl, _, rfl, (h turn hmem).readAs⟩

/-- A page that is found. -/
def foundReply (page : Bytes) : Reply :=
  ⟨bytes "Mon, 01 Jan 2024", askedSample, 200, bytes "OK", page⟩

/-- A page is asked for in one piece, and comes in one segment. -/
def pageTurn (cbArg : ℕ) (uri page : Bytes) : Turn ℕ where
  cbArg := cbArg
  req := {}
  type := .get
  uri := uri
  writes := [(evhttpMakeHeader [] (evhttpMakeRequest {} .get uri)).2.length]
  segments := [(foundReply page).sent.2]

theorem pageTurn_answeredWith (cbArg : ℕ) (uri : Bytes) :
    (pageTurn cbArg uri (bytes "found")).AnsweredWith [] (foundReply (bytes "found")) where
  writes_pos := List.forall_mem_singleton.mpr (List.length_pos_of_ne_nil (sent_ne_nil _ _))
  writes_sum := Nat.add_zero _
  fresh := ⟨rfl, rfl, rfl⟩
  answerable := answerable_askedSample
  body_fits := by decide
  segments_eq := List.append_nil _
  cuts := Con.cleanCuts_singleton (sent_ne_nil _ _)
  request_open := rfl
  reply_open := show evhttpIsConnectionClose false
      ((foundReply (bytes "found")).sent.1.outputHeaders.map Evkeyval.unfold) = false by decide

theorem replies_called_sample :
    let turns := [(pageTurn 1 (bytes "/a") (bytes "found"), foundReply (bytes "found")),
      (pageTurn 2 (bytes "/b") (bytes "found"), foundReply (bytes "found"))]
    ∃ c, run [] {} (turns.map (fun turn => turn.1.make) ++
        .connection true :: turns.flatMap fun turn => turn.1.events) = .ok c ∧ c.AtRest ∧
      List.Forall₂ (fun turn call => call.1 = turn.1.cbArg ∧
        ∃ answer, call.2 = some answer ∧ turn.2.ReadAs answer) turns c.called :=
  replies_called [] (List.cons_ne_nil _ _) (List.forall_mem_cons.mpr
    ⟨pageTurn_answeredWith 1 _, List.forall_mem_singleton.mpr (pageTurn_answeredWith 2 _)⟩)

end Client

end SearchTools.Libevent.Http
