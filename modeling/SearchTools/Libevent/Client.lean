/-
# The requests of a client

A connection of `contrib/libevent/http.c` over which a client makes requests, from
`evhttp_connection_new` on. The event loop calls back what is pending, one callback
after the other; the user makes requests at any time, also in the callbacks of earlier
ones. A connection is not freed here, and nobody is told that it closes.
-/

import SearchTools.Libevent.Reading
import SearchTools.Libevent.Reply

namespace SearchTools.Libevent.Http

open SearchTools.Library

/-- What ends the program. -/
inductive Abort
  | assertion
  | illegalState
  | nullPointer
  deriving DecidableEq, Repr

/-- `enum evhttp_connection_state`. -/
inductive Link
  | disconnected
  | connecting
  | up (state : ConState)
  deriving DecidableEq, Repr

/-- `evhttp_connected`. -/
def Link.evhttpConnected : Link → Bool
  | .disconnected | .connecting => false
  | .up _ => true

/-- What `ev` is set to: `evhttp_connectioncb`, `evhttp_connection_retry`, `evhttp_write`
or `evhttp_read`. -/
inductive Callback
  | connection
  | retry
  | write
  | read
  deriving DecidableEq, Repr

/-- `evhttp_add_event` on a timer: without a time it is not pending. -/
def addTimer (callback : Callback) (timeout : ℤ) : Option Callback :=
  if timeout = 0 then none else some callback

/-- `MIN(3600, 2 << retry_cnt)`, the seconds before the next attempt. The shift is one of an
`int`. -/
def retryTimeout (retryCnt : ℕ) : ℤ := min 3600 (wrapInt (2 <<< retryCnt : ℕ))

/-- At 31 the shift leaves nothing. -/
example : retryTimeout 30 ≠ 0 ∧ retryTimeout 31 = 0 := by decide

theorem retryTimeout_ne_zero {retryCnt : ℕ} (h : retryCnt < 31) : retryTimeout retryCnt ≠ 0 := by
  revert retryCnt
  decide

/-- The first 31 retries in a row have a time. -/
theorem addTimer_cases (retryCnt : ℕ) :
    addTimer .retry (retryTimeout retryCnt) = some .retry ∨
      addTimer .retry (retryTimeout retryCnt) = none ∧ 31 < retryCnt + 1 := by
  by_cases hzero : retryTimeout retryCnt = 0
  · have hcnt : ¬ retryCnt < 31 := fun hlt => retryTimeout_ne_zero hlt hzero
    exact Or.inr ⟨if_pos hzero, by omega⟩
  · exact Or.inl (if_neg hzero)

/-- A request and the `cb_arg` of its callback. -/
structure Asking (τ : Type) where
  cbArg : τ
  req : Request

/-- `struct evhttp_connection`. Of `ev` there is what it is pending with; `failing` is true
in the loop at the end of `evhttp_connectioncb`; `called` are the calls of the callbacks of
requests. -/
structure Client (τ : Type) where
  link : Link := .disconnected
  requests : List (Asking τ) := []
  inputBuffer : Bytes := []
  outputBuffer : Bytes := []
  ev : Option Callback := none
  closeEv : Bool := false
  retryCnt : ℕ := 0
  retryMax : ℤ := 0
  failing : Bool := false
  called : List (τ × Option Request) := []

/-- What `evhttp_write` is called for. -/
inductive WriteEvent
  | timeout
  | error
  | wrote (n : ℕ)

/-- What happens to a connection. With `up` a socket can be bound, and `connect` does not
fail at once. -/
inductive ClientStep (τ : Type)
  | makeRequest (cbArg : τ) (req : Request) (type : Cmd) (uri : Bytes) (up : Bool)
  | connection (ok : Bool)
  | callNext
  | retry (up : Bool)
  | write (event : WriteEvent) (up : Bool)
  | read (event : Con.ReadEvent) (up : Bool)
  | detectClose

/-! ## Reading -/

namespace Session

variable {s : Session} {buf : Bytes}

theorem headersRead_incoming : s.headersRead.incoming = s.incoming := by
  have hbody : s.getBody.incoming = s.incoming := by
    unfold getBody
    split
    · rfl
    · dsimp only
      split
      · rfl
      · split <;> rfl
  unfold headersRead
  split
  · exact hbody
  · split
    · rfl
    · exact hbody

/-- A session of a client; when it waits, it is in a state in which something is read. -/
structure Reads (s : Session) : Prop where
  outgoing : s.incoming = false
  waits : s.outcome = none → ¬ (s.state = .idle ∨ s.state = .writing)

theorem reads_of_outcome (hin : s.incoming = false) (h : s.outcome ≠ none) : s.Reads :=
  ⟨hin, fun hout => absurd hout h⟩

theorem reads_of_state (state : ConState) (hin : s.incoming = false) (h : s.state = state)
    (hstate : ¬ (state = .idle ∨ state = .writing)) : s.Reads := ⟨hin, fun _ => h ▸ hstate⟩

theorem afterParse_reads (hs : s.Reads) (status : ReadStatus) : (s.afterParse status).Reads := by
  cases status with
  | allDataRead =>
    by_cases hstate : s.state = .readingTrailer
    · rw [afterParse, if_pos hstate]
      exact reads_of_outcome hs.outgoing (Option.some_ne_none _)
    · rw [afterParse, if_neg hstate]
      refine ⟨headersRead_incoming.trans hs.outgoing, fun hout => ?_⟩
      rw [headersRead_state hout]
      decide
  | moreDataExpected => exact hs
  | dataCorrupted => exact reads_of_outcome hs.outgoing (Option.some_ne_none _)

theorem afterChunks_reads (hs : s.Reads) (status : ReadStatus) :
    (s.afterChunks status).Reads := by
  cases status with
  | allDataRead => exact reads_of_state .readingTrailer hs.outgoing rfl (by decide)
  | moreDataExpected => exact hs
  | dataCorrupted => exact reads_of_outcome hs.outgoing (Option.some_ne_none _)

theorem firstlineRead_reads (hin : s.incoming = false) (line : Bytes) :
    (s.firstlineRead line).Reads := by
  unfold firstlineRead
  rcases parseFirstlineOf s.req (cstr line) with ⟨req, ok⟩
  cases ok with
  | true => exact reads_of_state .readingHeaders hin rfl (by decide)
  | false => exact reads_of_outcome hin (Option.some_ne_none _)

theorem headerRead_reads (hs : s.Reads) (line : Bytes) : (s.headerRead line).Reads := by
  unfold headerRead
  cases parseHeaderLine s.req.inputHeaders (cstr line) with
  | error status => exact afterParse_reads hs status
  | ok headers => exact ⟨hs.outgoing, hs.waits⟩

theorem chunkLineRead_reads (hs : s.Reads) (line : Bytes) : (s.chunkLineRead line).Reads := by
  unfold chunkLineRead
  rcases chunkSize (cstr line) with status | _ | ntoread
  · exact afterChunks_reads hs status
  · exact hs
  · dsimp only
    by_cases hzero : ntoread = 0
    · rw [if_pos hzero]
      exact reads_of_state .readingTrailer hs.outgoing rfl (by decide)
    · rw [if_neg hzero]
      exact ⟨hs.outgoing, hs.waits⟩

theorem takeBody_reads (hs : s.Reads) {item : Session × Bytes} (h : takeBody s buf = some item) :
    item.1.Reads := by
  cases hchunked : s.req.chunked with
  | true =>
    by_cases hn : s.req.ntoread < 0
    · rw [takeBody_chunkLine hchunked hn] at h
      obtain ⟨line, -, rfl⟩ := Option.map_eq_some_iff.mp h
      exact chunkLineRead_reads hs line.1
    · rw [takeBody_chunk hchunked hn] at h
      obtain ⟨-, h⟩ := Option.ite_none_left_eq_some.mp h
      obtain rfl := Option.some.inj h
      exact ⟨hs.outgoing, hs.waits⟩
  | false =>
    by_cases hn : s.req.ntoread < 0
    · rw [takeBody_byte hchunked hn] at h
      obtain ⟨b, -, rfl⟩ := Option.map_eq_some_iff.mp h
      exact ⟨hs.outgoing, hs.waits⟩
    · rw [takeBody_length hchunked hn] at h
      obtain ⟨-, h⟩ := Option.ite_none_right_eq_some.mp h
      obtain rfl := Option.some.inj h
      exact reads_of_outcome hs.outgoing (Option.some_ne_none _)

theorem takeItem_reads (hin : s.incoming = false) {item : Session × Bytes}
    (h : takeItem s buf = some item) : item.1.Reads := by
  obtain ⟨hout, h⟩ := Option.ite_none_right_eq_some.mp h
  cases hstate : s.state with
  | idle | writing =>
    rw [hstate] at h
    cases h
  | readingFirstline =>
    rw [hstate] at h
    obtain ⟨line, -, rfl⟩ := Option.map_eq_some_iff.mp h
    exact firstlineRead_reads hin line.1
  | readingHeaders | readingTrailer =>
    have hs : s.Reads := reads_of_state _ hin hstate (by decide)
    rw [hstate] at h
    obtain ⟨line, -, rfl⟩ := Option.map_eq_some_iff.mp h
    exact headerRead_reads hs line.1
  | readingBody =>
    have hs : s.Reads := reads_of_state _ hin hstate (by decide)
    rw [hstate] at h
    exact takeBody_reads hs h

theorem takes_reads {x y : Session × Bytes} (hx : x.1.Reads) (h : takeItem.Takes x y) :
    y.1.Reads := by
  induction h with
  | refl => exact hx
  | tail _ htake ih => exact takeItem_reads ih.outgoing htake

end Session

/-- As long as the answer is not complete, it is read on. -/
theorem Con.evhttpRead_reads {con : Con} (hs : con.Reads) (hout : con.outcome = none)
    (event : Con.ReadEvent) : (con.evhttpRead event).Reads := by
  cases event with
  | timeout | closed => exact Session.reads_of_outcome hs.outgoing (Option.some_ne_none _)
  | error again =>
    cases again with
    | true => exact hs
    | false => exact Session.reads_of_outcome hs.outgoing (Option.some_ne_none _)
  | data bytes => exact Session.takes_reads hs (con.evhttpRead_readsTo hout bytes).1

/-- Whether a connection was on its way after the step, if it made one. -/
def ClientStep.up {τ : Type} : ClientStep τ → Bool
  | .makeRequest _ _ _ _ up | .retry up | .write _ up | .read _ up => up
  | .connection _ | .callNext | .detectClose => true

/-- Those for whom a request was made. -/
def ClientStep.made {τ : Type} : ClientStep τ → List τ
  | .makeRequest cbArg .. => [cbArg]
  | _ => []

namespace Client

variable {τ : Type} (date : Bytes) (c : Client τ)

/-- `evhttp_connection_reset`. -/
def evhttpConnectionReset : Client τ :=
  { c with ev := none, link := .disconnected, inputBuffer := [], outputBuffer := [] }

/-- `evhttp_connection_connect`. -/
def evhttpConnectionConnect (up : Bool) : Client τ :=
  if c.link = .connecting then c
  else
    let c := c.evhttpConnectionReset
    if up then { c with ev := some .connection, link := .connecting } else c

/-- `evhttp_request_dispatch`. -/
def evhttpRequestDispatch : Except Abort (Client τ) :=
  match c.requests with
  | [] => .ok c
  | asking :: requests =>
    if c.link ≠ .up .idle then .error .assertion
    else
      let (req, text) := evhttpMakeHeader date asking.req
      .ok { c with
        closeEv := false, link := .up .writing, requests := { asking with req := req } :: requests
        outputBuffer := c.outputBuffer ++ text, ev := some .write }

/-- `evhttp_make_request`. -/
def makeRequest (cbArg : τ) (req : Request) (type : Cmd) (uri : Bytes) (up : Bool) :
    Except Abort (Client τ) :=
  let first := c.requests.isEmpty
  let c := { c with requests := c.requests ++ [⟨cbArg, evhttpMakeRequest req type uri⟩] }
  if !c.link.evhttpConnected then .ok (c.evhttpConnectionConnect up)
  else if first then c.evhttpRequestDispatch date
  else .ok c

/-- `evhttp_connection_fail`. -/
def evhttpConnectionFail (up : Bool) : Except Abort (Client τ) :=
  match c.requests with
  | [] => .error .assertion
  | asking :: requests =>
    let c := { c with requests := requests }.evhttpConnectionReset
    let c := if c.requests ≠ [] then c.evhttpConnectionConnect up else c
    .ok { c with called := c.called ++ [(asking.cbArg, none)] }

/-- What `evhttp_connection_done` does before the callback is called. -/
def prepareNext (needClose up : Bool) : Except Abort (Client τ) :=
  let c := if needClose then c.evhttpConnectionReset else c
  if c.requests ≠ [] then
    if !c.link.evhttpConnected then .ok (c.evhttpConnectionConnect up)
    else c.evhttpRequestDispatch date
  else if !needClose then .ok { c with closeEv := true }
  else .ok c

/-- `evhttp_connection_done`. -/
def evhttpConnectionDone (up : Bool) : Except Abort (Client τ) :=
  match c.requests with
  | [] => .error .nullPointer
  | asking :: requests => do
    let needClose := evhttpIsConnectionClose asking.req.proxy asking.req.inputHeaders ||
      evhttpIsConnectionClose asking.req.proxy asking.req.outputHeaders
    let c ← { c with requests := requests, link := .up .idle }.prepareNext date needClose up
    return { c with called := c.called ++ [(asking.cbArg, some asking.req)] }

/-- `evhttp_write_connectioncb` and `evhttp_start_read`. -/
def evhttpWriteConnectioncb : Except Abort (Client τ) :=
  match c.requests with
  | [] => .error .assertion
  | asking :: requests =>
    if c.link ≠ .up .writing then .error .assertion
    else .ok { c with
      requests := { asking with req := { asking.req with kind := .response } } :: requests
      ev := some .read, link := .up .readingFirstline }

/-- `evhttp_write`. -/
def evhttpWrite (event : WriteEvent) (up : Bool) : Except Abort (Client τ) :=
  match event with
  | .timeout | .error | .wrote 0 => c.evhttpConnectionFail up
  | .wrote n =>
    let c := { c with outputBuffer := c.outputBuffer.drop n }
    if c.outputBuffer ≠ [] then .ok { c with ev := some .write } else c.evhttpWriteConnectioncb

/-- The end of `evhttp_read`. -/
def afterRead (outcome : Option Outcome) (up : Bool) : Except Abort (Client τ) :=
  match outcome with
  | none => .ok { c with ev := some .read }
  | some .done => c.evhttpConnectionDone date up
  | some (.failed _) => c.evhttpConnectionFail up

/-- `evhttp_read`. -/
def evhttpRead (event : Con.ReadEvent) (up : Bool) : Except Abort (Client τ) :=
  match event with
  | .timeout => c.evhttpConnectionFail up
  | .error again => if again then .ok { c with ev := some .read } else c.evhttpConnectionFail up
  | .closed => c.evhttpConnectionDone date up
  | .data bytes =>
    match c.link with
    | .disconnected | .connecting => .error .illegalState
    | .up state =>
      if state = .idle ∨ state = .writing then .error .illegalState
      else
        match c.requests with
        | [] => .error .nullPointer
        | asking :: requests =>
          let con : Con := Con.evhttpRead
            ⟨⟨false, state, asking.req, none⟩, c.inputBuffer⟩ (.data bytes)
          { c with
            link := .up con.state, requests := { asking with req := con.req } :: requests
            inputBuffer := con.inputBuffer }.afterRead date con.outcome up

/-- `evhttp_connectioncb`, up to the loop at its end. -/
def evhttpConnectioncb (ok : Bool) : Except Abort (Client τ) :=
  if ok then { c with retryCnt := 0, link := .up .idle }.evhttpRequestDispatch date
  else if c.retryMax < 0 ∨ c.retryCnt < c.retryMax then
    .ok { c with ev := addTimer .retry (retryTimeout c.retryCnt), retryCnt := c.retryCnt + 1 }
  else .ok { c.evhttpConnectionReset with failing := true }

/-- A pass of the loop at the end of `evhttp_connectioncb`. -/
def callNext : Client τ :=
  match c.requests with
  | [] => { c with failing := false }
  | asking :: requests => { c with
      requests := requests, called := c.called ++ [(asking.cbArg, some asking.req)] }

/-- `evhttp_connection_retry`. -/
def evhttpConnectionRetry (up : Bool) : Client τ :=
  { c with link := .disconnected }.evhttpConnectionConnect up

/-- One step. An event that is called back is pending no more. -/
def step : ClientStep τ → Except Abort (Client τ)
  | .makeRequest cbArg req type uri up => c.makeRequest date cbArg req type uri up
  | .connection ok => { c with ev := none }.evhttpConnectioncb date ok
  | .callNext => .ok c.callNext
  | .retry up => .ok ({ c with ev := none }.evhttpConnectionRetry up)
  | .write event up => { c with ev := none }.evhttpWrite event up
  | .read event up => { c with ev := none }.evhttpRead date event up
  | .detectClose => .ok { c with closeEv := false }.evhttpConnectionReset

/-- The event loop calls back only what is pending, and not within a callback. -/
def Enabled : ClientStep τ → Prop
  | .makeRequest .. => True
  | .callNext => c.failing
  | .connection _ => c.failing = false ∧ c.ev = some .connection
  | .retry _ => c.failing = false ∧ c.ev = some .retry
  | .write .. => c.failing = false ∧ c.ev = some .write
  | .read .. => c.failing = false ∧ c.ev = some .read
  | .detectClose => c.failing = false ∧ c.closeEv

/-- Step after step, as long as the program does not end. -/
def run : Client τ → List (ClientStep τ) → Except Abort (Client τ)
  | c, [] => .ok c
  | c, s :: steps => do
    let c ← c.step date s
    run c steps

/-- Every step can be taken where it is taken. -/
def Legal : Client τ → List (ClientStep τ) → Prop
  | _, [] => True
  | c, s :: steps => c.Enabled s ∧ ∀ c', c.step date s = .ok c' → Legal c' steps

/-! ## What every step keeps -/

/-- The requests that wait. -/
def waiting : List τ := c.requests.map Asking.cbArg

/-- The situations between two steps. -/
inductive Sound : Prop
  | disconnected (hlink : c.link = .disconnected) (hev : c.ev = none) (hclose : c.closeEv = false)
  | connecting (hlink : c.link = .connecting)
    (hev : c.ev = some .connection ∨ c.ev = some .retry) (hclose : c.closeEv = false)
  -- The timer of the 32nd retry in a row has no time.
  | stuck (hlink : c.link = .connecting) (hev : c.ev = none) (hclose : c.closeEv = false)
    (hcnt : 31 < c.retryCnt)
  | idle (hlink : c.link = .up .idle) (hev : c.ev = none) (hnil : c.requests = [])
    (hfailing : c.failing = false)
  | writing (hlink : c.link = .up .writing) (hev : c.ev = some .write) (hne : c.requests ≠ [])
    (hclose : c.closeEv = false) (hfailing : c.failing = false)
  | reading (state : ConState) (hstate : ¬ (state = .idle ∨ state = .writing))
    (hlink : c.link = .up state) (hev : c.ev = some .read) (hne : c.requests ≠ [])
    (hclose : c.closeEv = false) (hfailing : c.failing = false)

/-- No request waits for a connection that nobody makes. -/
def Fed : Prop := c.link = .disconnected → c.requests = [] ∨ c.failing

/-- What is left by a step, or by a part of one that calls and takes in no more than is said. -/
structure Keeps (up : Bool) (called : List (τ × Option Request)) (waiting : List τ) : Prop where
  sound : c.Sound
  fed : up → c.Fed
  called_eq : c.called = called
  waiting_eq : c.waiting = waiting

variable {c} {up : Bool}

theorem fed_of_link (h : c.link ≠ .disconnected) : c.Fed := fun hlink => absurd hlink h

/-- A callback is called at the end of a step. -/
theorem Keeps.call {called : List (τ × Option Request)} {waiting : List τ}
    (h : c.Keeps up called waiting) (call : τ × Option Request) :
    { c with called := c.called ++ [call] }.Keeps up (called ++ [call]) waiting := by
  refine ⟨?_, h.fed, congrArg (· ++ [call]) h.called_eq, h.waiting_eq⟩
  cases h.sound with
  | disconnected hlink hev hclose => exact .disconnected hlink hev hclose
  | connecting hlink hev hclose => exact .connecting hlink hev hclose
  | stuck hlink hev hclose hcnt => exact .stuck hlink hev hclose hcnt
  | idle hlink hev hnil hfailing => exact .idle hlink hev hnil hfailing
  | writing hlink hev hne hclose hfailing => exact .writing hlink hev hne hclose hfailing
  | reading state hstate hlink hev hne hclose hfailing =>
    exact .reading state hstate hlink hev hne hclose hfailing

variable (up)

theorem connect_keeps (hclose : c.closeEv = false) (hsound : c.link = .connecting → c.Sound) :
    (c.evhttpConnectionConnect up).Keeps up c.called c.waiting := by
  unfold evhttpConnectionConnect
  by_cases hlink : c.link = .connecting
  · rw [if_pos hlink]
    exact ⟨hsound hlink, fun _ => fed_of_link (by rw [hlink]; nofun), rfl, rfl⟩
  · rw [if_neg hlink]
    cases up with
    | false => exact ⟨.disconnected rfl rfl hclose, nofun, rfl, rfl⟩
    | true => exact ⟨.connecting rfl (Or.inl rfl) hclose, fun _ => fed_of_link nofun, rfl, rfl⟩

theorem connect_of_disconnected (hclose : c.closeEv = false) (hlink : c.link = .disconnected) :
    (c.evhttpConnectionConnect up).Keeps up c.called c.waiting :=
  connect_keeps up hclose fun h => by rw [hlink] at h; cases h

/-- The assertion of `evhttp_request_dispatch` holds on an idle connection. -/
theorem dispatch_keeps (hlink : c.link = .up .idle) (hev : c.ev = none)
    (hfailing : c.failing = false) :
    ∃ c', c.evhttpRequestDispatch date = .ok c' ∧ c'.Keeps up c.called c.waiting := by
  unfold evhttpRequestDispatch
  cases hreqs : c.requests with
  | nil =>
    exact ⟨c, rfl, .idle hlink hev hreqs hfailing,
      fun _ => fed_of_link (by rw [hlink]; nofun), rfl, rfl⟩
  | cons asking requests =>
    refine ⟨_, if_neg (not_not.mpr hlink), ?_, fun _ => fed_of_link nofun, rfl, ?_⟩
    · exact .writing rfl rfl (List.cons_ne_nil _ _) rfl hfailing
    · rw [waiting, waiting, hreqs]
      rfl

/-- A request goes to the end of the queue, and what else happens depends on whether the
connection is there, and on whether the queue was empty. -/
theorem makeRequest_keeps (hsound : c.Sound) (cbArg : τ) (req : Request) (type : Cmd)
    (uri : Bytes) :
    ∃ c', c.makeRequest date cbArg req type uri up = .ok c' ∧
      c'.Keeps up c.called (c.waiting ++ [cbArg]) := by
  obtain ⟨c₁, hc₁⟩ : ∃ c₁ : Client τ, c₁ = { c with
    requests := c.requests ++ [⟨cbArg, evhttpMakeRequest req type uri⟩] } := ⟨_, rfl⟩
  have hwaiting : c₁.waiting = c.waiting ++ [cbArg] := by
    rw [hc₁, waiting, waiting, List.map_append]
    rfl
  have hne : c₁.requests ≠ [] := by
    rw [hc₁]
    exact List.append_ne_nil_of_right_ne_nil _ (List.cons_ne_nil _ _)
  have hcalled : c₁.called = c.called := by rw [hc₁]
  have hlink₁ : c₁.link = c.link := by rw [hc₁]
  have hclose₁ : c₁.closeEv = c.closeEv := by rw [hc₁]
  have hev₁ : c₁.ev = c.ev := by rw [hc₁]
  have hfailing₁ : c₁.failing = c.failing := by rw [hc₁]
  have hcnt₁ : c₁.retryCnt = c.retryCnt := by rw [hc₁]
  have hmake : c.makeRequest date cbArg req type uri up =
      if !c.link.evhttpConnected then .ok (c₁.evhttpConnectionConnect up)
      else if c.requests.isEmpty then c₁.evhttpRequestDispatch date else .ok c₁ := by
    rw [hc₁]
    rfl
  rw [← hwaiting, ← hcalled, hmake]
  cases hsound with
  | disconnected hlink hev hclose =>
    rw [hlink]
    exact ⟨_, rfl, connect_of_disconnected up (hclose₁.trans hclose) (hlink₁.trans hlink)⟩
  | connecting hlink hev hclose =>
    rw [hlink]
    exact ⟨_, rfl, connect_keeps up (hclose₁.trans hclose) fun _ =>
      .connecting (hlink₁.trans hlink) (hev₁ ▸ hev) (hclose₁.trans hclose)⟩
  | stuck hlink hev hclose hcnt =>
    rw [hlink]
    exact ⟨_, rfl, connect_keeps up (hclose₁.trans hclose) fun _ =>
      .stuck (hlink₁.trans hlink) (hev₁.trans hev) (hclose₁.trans hclose) (hcnt₁ ▸ hcnt)⟩
  | idle hlink hev hnil hfailing =>
    rw [hlink, hnil]
    exact dispatch_keeps date up (hlink₁.trans hlink) (hev₁.trans hev) (hfailing₁.trans hfailing)
  | writing hlink hev hnil hclose hfailing =>
    rw [hlink, List.isEmpty_eq_false_iff.mpr hnil]
    exact ⟨_, rfl, .writing (hlink₁.trans hlink) (hev₁.trans hev) hne (hclose₁.trans hclose)
      (hfailing₁.trans hfailing), fun _ => fed_of_link (by rw [hlink₁, hlink]; nofun), rfl, rfl⟩
  | reading state hstate hlink hev hnil hclose hfailing =>
    rw [hlink, List.isEmpty_eq_false_iff.mpr hnil]
    exact ⟨_, rfl, .reading state hstate (hlink₁.trans hlink) (hev₁.trans hev) hne
      (hclose₁.trans hclose) (hfailing₁.trans hfailing),
      fun _ => fed_of_link (by rw [hlink₁, hlink]; nofun), rfl, rfl⟩

/-- The first request fails, and the next one gets a connection of its own. -/
theorem fail_keeps {asking : Asking τ} {requests : List (Asking τ)} (hclose : c.closeEv = false)
    (hreqs : c.requests = asking :: requests) :
    ∃ c', c.evhttpConnectionFail up = .ok c' ∧
      c'.Keeps up (c.called ++ [(asking.cbArg, none)]) (requests.map Asking.cbArg) := by
  unfold evhttpConnectionFail
  rw [hreqs]
  refine ⟨_, rfl, Keeps.call ?_ (asking.cbArg, none)⟩
  by_cases hrest : requests ≠ []
  · exact (if_pos hrest).symm ▸ connect_of_disconnected up hclose rfl
  · refine (if_neg hrest).symm ▸ ?_
    exact ⟨.disconnected rfl rfl hclose, fun _ _ => Or.inl (not_not.mp hrest), rfl, rfl⟩

theorem prepareNext_keeps (hlink : c.link = .up .idle) (hev : c.ev = none)
    (hclose : c.closeEv = false) (hfailing : c.failing = false) (needClose : Bool) :
    ∃ c', c.prepareNext date needClose up = .ok c' ∧ c'.Keeps up c.called c.waiting := by
  unfold prepareNext
  cases needClose with
  | true =>
    by_cases hrest : c.requests ≠ []
    · exact ⟨_, if_pos hrest, connect_of_disconnected up hclose rfl⟩
    · exact ⟨_, if_neg hrest, .disconnected rfl rfl hclose,
        fun _ _ => Or.inl (not_not.mp hrest), rfl, rfl⟩
  | false =>
    dsimp only
    rw [if_neg Bool.false_ne_true]
    by_cases hrest : c.requests ≠ []
    · rw [if_pos hrest, hlink]
      exact dispatch_keeps date up hlink hev hfailing
    · rw [if_neg hrest]
      exact ⟨_, rfl, .idle hlink hev (not_not.mp hrest) hfailing,
        fun _ => fed_of_link (by rw [hlink]; nofun), rfl, rfl⟩

/-- The first request is answered, and the next one is sent. -/
theorem done_keeps {asking : Asking τ} {requests : List (Asking τ)} (hev : c.ev = none)
    (hclose : c.closeEv = false) (hfailing : c.failing = false)
    (hreqs : c.requests = asking :: requests) :
    ∃ c', c.evhttpConnectionDone date up = .ok c' ∧
      c'.Keeps up (c.called ++ [(asking.cbArg, some asking.req)])
        (requests.map Asking.cbArg) := by
  unfold evhttpConnectionDone
  rw [hreqs]
  obtain ⟨c₁, hc₁, hkeeps⟩ := prepareNext_keeps date up
    (c := { c with requests := requests, link := .up .idle }) rfl hev hclose hfailing
    (evhttpIsConnectionClose asking.req.proxy asking.req.inputHeaders ||
      evhttpIsConnectionClose asking.req.proxy asking.req.outputHeaders)
  dsimp only
  rw [hc₁]
  exact ⟨_, rfl, hkeeps.call (asking.cbArg, some asking.req)⟩

/-- The assertions of `evhttp_write_connectioncb` hold on a connection that writes. -/
theorem writeConnectioncb_keeps (hlink : c.link = .up .writing) (hclose : c.closeEv = false)
    (hfailing : c.failing = false) (hne : c.requests ≠ []) :
    ∃ c', c.evhttpWriteConnectioncb = .ok c' ∧ c'.Keeps up c.called c.waiting := by
  obtain ⟨asking, requests, hreqs⟩ := List.exists_cons_of_ne_nil hne
  unfold evhttpWriteConnectioncb
  rw [hreqs]
  refine ⟨_, if_neg (not_not.mpr hlink), ?_, fun _ => fed_of_link nofun, rfl, ?_⟩
  · exact .reading .readingFirstline (by decide) rfl rfl (List.cons_ne_nil _ _) hclose hfailing
  · rw [waiting, waiting, hreqs]
    rfl

/-! ## Steps -/

section

variable {c c' : Client τ} {up : Bool}

/-- Those whose request was answered, then those whose request waits. -/
def asked (c : Client τ) : List τ := c.called.map Prod.fst ++ c.waiting

/-- What a step leads to: no request is lost, or called twice, or overtaken. -/
structure Advances (c : Client τ) (up : Bool) (made : List τ) (c' : Client τ) : Prop where
  sound : c'.Sound
  fed : up → c'.Fed
  asked_eq : c'.asked = c.asked ++ made

theorem Keeps.advances {called : List (τ × Option Request)} {waiting made : List τ}
    (h : c'.Keeps up called waiting) (hasked : called.map Prod.fst ++ waiting = c.asked ++ made) :
    c.Advances up made c' :=
  ⟨h.sound, h.fed, by rw [asked, h.called_eq, h.waiting_eq, hasked]⟩

theorem Keeps.advances_of_eq (h : c'.Keeps up c.called c.waiting) : c.Advances up [] c' :=
  h.advances (List.append_nil _).symm

/-- The first request is called, and the others still wait. -/
theorem Keeps.advances_of_cons {asking : Asking τ} {requests : List (Asking τ)}
    (answer : Option Request) (hreqs : c.requests = asking :: requests)
    (h : c'.Keeps up (c.called ++ [(asking.cbArg, answer)]) (requests.map Asking.cbArg)) :
    c.Advances up [] c' := by
  refine h.advances ?_
  rw [asked, waiting, hreqs, List.map_append, List.append_assoc, List.append_nil]
  rfl

variable (up)

theorem makeRequest_advances (hsound : c.Sound) (cbArg : τ) (req : Request) (type : Cmd)
    (uri : Bytes) :
    ∃ c', c.makeRequest date cbArg req type uri up = .ok c' ∧ c.Advances up [cbArg] c' := by
  obtain ⟨c', hc', hkeeps⟩ := makeRequest_keeps date up hsound cbArg req type uri
  exact ⟨c', hc', hkeeps.advances (List.append_assoc ..).symm⟩

theorem link_of_connecting (hsound : c.Sound)
    (hev : c.ev = some .connection ∨ c.ev = some .retry) :
    c.link = .connecting ∧ c.closeEv = false := by
  cases hsound with
  | connecting hlink _ hclose => exact ⟨hlink, hclose⟩
  | disconnected _ h | stuck _ h | idle _ h | writing _ h | reading _ _ _ h =>
    rw [h] at hev
    rcases hev with h | h <;> cases h

theorem connection_advances (hsound : c.Sound) (hfailing : c.failing = false)
    (hev : c.ev = some .connection) (ok : Bool) :
    ∃ c', { c with ev := none }.evhttpConnectioncb date ok = .ok c' ∧ c.Advances true [] c' := by
  obtain ⟨hlink, hclose⟩ := link_of_connecting hsound (Or.inl hev)
  unfold evhttpConnectioncb
  cases ok with
  | true =>
    obtain ⟨c', hc', hkeeps⟩ := dispatch_keeps date true
      (c := { c with ev := none, retryCnt := 0, link := .up .idle }) rfl rfl hfailing
    exact ⟨c', (if_pos rfl).trans hc', Keeps.advances_of_eq hkeeps⟩
  | false =>
    rw [if_neg Bool.false_ne_true]
    by_cases hretry : c.retryMax < 0 ∨ c.retryCnt < c.retryMax
    · have htimer := addTimer_cases c.retryCnt
      generalize htimeout : addTimer .retry (retryTimeout c.retryCnt) = timer at htimer
      refine ⟨{ c with ev := timer, retryCnt := c.retryCnt + 1 }, ?_, ?_,
        fun _ => fed_of_link (by rw [hlink]; nofun), ?_⟩
      · rw [if_pos hretry, ← htimeout]
      · rcases htimer with rfl | ⟨rfl, hcnt⟩
        · exact .connecting hlink (Or.inr rfl) hclose
        · exact .stuck hlink rfl hclose hcnt
      · rw [List.append_nil, asked, asked, waiting, waiting]
    · exact ⟨_, if_neg hretry, .disconnected rfl rfl hclose, fun _ _ => Or.inr rfl,
        (List.append_nil _).symm⟩

theorem retry_advances (hsound : c.Sound) (hev : c.ev = some .retry) :
    c.Advances up [] ({ c with ev := none }.evhttpConnectionRetry up) :=
  Keeps.advances_of_eq <| connect_of_disconnected up
    (c := { c with ev := none, link := .disconnected })
    (link_of_connecting hsound (Or.inr hev)).2 rfl

theorem callNext_advances (hsound : c.Sound) (hfailing : c.failing = true) :
    c.Advances true [] c.callNext := by
  have hkept : ∀ c' : Client τ, c'.link = c.link → c'.ev = c.ev → c'.closeEv = c.closeEv →
      c'.retryCnt = c.retryCnt → c'.Sound := by
    intro c' hlink' hev' hclose' hcnt'
    cases hsound with
    | disconnected hlink hev hclose =>
      exact .disconnected (hlink'.trans hlink) (hev'.trans hev) (hclose'.trans hclose)
    | connecting hlink hev hclose =>
      exact .connecting (hlink'.trans hlink) (hev' ▸ hev) (hclose'.trans hclose)
    | stuck hlink hev hclose hcnt =>
      exact .stuck (hlink'.trans hlink) (hev'.trans hev) (hclose'.trans hclose) (hcnt' ▸ hcnt)
    | idle _ _ _ h | writing _ _ _ _ h | reading _ _ _ _ _ _ h =>
      rw [hfailing] at h
      cases h
  unfold callNext
  cases hreqs : c.requests with
  | nil =>
    refine ⟨hkept _ rfl rfl rfl rfl, fun _ _ => Or.inl rfl, ?_⟩
    rw [asked, asked, waiting, waiting, hreqs]
    exact (List.append_nil _).symm
  | cons asking requests =>
    refine Keeps.advances_of_cons (some asking.req) hreqs ?_
    exact ⟨hkept _ rfl rfl rfl rfl, fun _ _ => Or.inr hfailing, rfl, rfl⟩

/-- Only an idle connection is watched, and no request waits for it. -/
theorem detectClose_advances (hsound : c.Sound) (hclose : c.closeEv = true) :
    c.Advances true [] { c with closeEv := false }.evhttpConnectionReset := by
  cases hsound with
  | idle _ _ hnil _ =>
    exact ⟨.disconnected rfl rfl rfl, fun _ _ => Or.inl hnil, (List.append_nil _).symm⟩
  | disconnected _ _ h | connecting _ _ h | stuck _ _ h | writing _ _ _ h | reading _ _ _ _ _ h =>
    rw [hclose] at h
    cases h

theorem write_advances (hsound : c.Sound) (hev : c.ev = some .write) (event : WriteEvent) :
    ∃ c', { c with ev := none }.evhttpWrite event up = .ok c' ∧ c.Advances up [] c' := by
  cases hsound with
  | disconnected _ h | stuck _ h | idle _ h | reading _ _ _ h => rw [hev] at h; cases h
  | connecting _ h => rw [hev] at h; rcases h with h | h <;> cases h
  | writing hlink _ hne hclose hfailing =>
    obtain ⟨asking, requests, hreqs⟩ := List.exists_cons_of_ne_nil hne
    have hfail : ∃ c', { c with ev := none }.evhttpConnectionFail up = .ok c' ∧
        c.Advances up [] c' := by
      obtain ⟨c', hc', hkeeps⟩ :=
        fail_keeps (c := { c with ev := none }) up hclose hreqs
      exact ⟨c', hc', Keeps.advances_of_cons _ hreqs hkeeps⟩
    match event with
    | .timeout | .error | .wrote 0 => exact hfail
    | .wrote (n + 1) =>
      by_cases hrest : c.outputBuffer.drop (n + 1) ≠ []
      · exact ⟨_, if_pos hrest, .writing hlink rfl hne hclose hfailing,
          fun _ => fed_of_link (by rw [hlink]; nofun), (List.append_nil _).symm⟩
      · obtain ⟨c', hc', hkeeps⟩ := writeConnectioncb_keeps up
          (c := { c with ev := none, outputBuffer := c.outputBuffer.drop (n + 1) })
          hlink hclose hfailing hne
        exact ⟨c', (if_neg hrest).trans hc', Keeps.advances_of_eq hkeeps⟩

/-- What comes is read on, or the first request is called. -/
theorem data_advances {state : ConState} (hstate : ¬ (state = .idle ∨ state = .writing))
    (hlink : c.link = .up state) (hclose : c.closeEv = false) (hfailing : c.failing = false)
    {asking : Asking τ} {requests : List (Asking τ)} (hreqs : c.requests = asking :: requests)
    (bytes : Bytes) :
    ∃ c', { c with ev := none }.evhttpRead date (.data bytes) up = .ok c' ∧
      c.Advances up [] c' := by
  obtain ⟨con, hcon⟩ : ∃ con : Con, con = Con.evhttpRead
      ⟨⟨false, state, asking.req, none⟩, c.inputBuffer⟩ (.data bytes) := ⟨_, rfl⟩
  obtain ⟨c₁, hc₁⟩ : ∃ c₁ : Client τ, c₁ = { c with
      link := .up con.state, requests := { asking with req := con.req } :: requests
      inputBuffer := con.inputBuffer, ev := none } := ⟨_, rfl⟩
  have hread : { c with ev := none }.evhttpRead date (.data bytes) up =
      c₁.afterRead date con.outcome up := by
    unfold evhttpRead
    dsimp only
    rw [hlink]
    dsimp only
    rw [if_neg hstate, hreqs, hc₁, hcon]
  have hcalled : c₁.called = c.called := by rw [hc₁]
  have hreqs₁ : c₁.requests = { asking with req := con.req } :: requests := by rw [hc₁]
  have hclose₁ : c₁.closeEv = false := by rw [hc₁]; exact hclose
  rw [hread]
  cases hout : con.outcome with
  | none =>
    have hstate' : ¬ (con.state = .idle ∨ con.state = .writing) := by
      rw [hcon] at hout ⊢
      exact (Con.evhttpRead_reads ⟨rfl, fun _ => hstate⟩ rfl (.data bytes)).waits hout
    refine ⟨_, rfl, ?_⟩
    rw [hc₁]
    refine ⟨.reading con.state hstate' rfl rfl (List.cons_ne_nil _ _) hclose hfailing,
      fun _ => fed_of_link nofun, ?_⟩
    rw [asked, asked, waiting, waiting, hreqs]
    exact (List.append_nil _).symm
  | some outcome =>
    cases outcome with
    | done =>
      obtain ⟨c', hc', hkeeps⟩ := done_keeps date up (c := c₁) (by rw [hc₁]) hclose₁
        (by rw [hc₁]; exact hfailing) hreqs₁
      rw [hcalled] at hkeeps
      exact ⟨c', hc', Keeps.advances_of_cons _ hreqs hkeeps⟩
    | failed error =>
      obtain ⟨c', hc', hkeeps⟩ := fail_keeps up (c := c₁) hclose₁ hreqs₁
      rw [hcalled] at hkeeps
      exact ⟨c', hc', Keeps.advances_of_cons _ hreqs hkeeps⟩

theorem read_advances (hsound : c.Sound) (hev : c.ev = some .read) (event : Con.ReadEvent) :
    ∃ c', { c with ev := none }.evhttpRead date event up = .ok c' ∧ c.Advances up [] c' := by
  cases hsound with
  | disconnected _ h | stuck _ h | idle _ h | writing _ h => rw [hev] at h; cases h
  | connecting _ h => rw [hev] at h; rcases h with h | h <;> cases h
  | reading state hstate hlink _ hne hclose hfailing =>
    obtain ⟨asking, requests, hreqs⟩ := List.exists_cons_of_ne_nil hne
    have hfail : ∃ c', { c with ev := none }.evhttpConnectionFail up = .ok c' ∧
        c.Advances up [] c' := by
      obtain ⟨c', hc', hkeeps⟩ := fail_keeps (c := { c with ev := none }) up hclose hreqs
      exact ⟨c', hc', Keeps.advances_of_cons _ hreqs hkeeps⟩
    match event with
    | .timeout | .error false => exact hfail
    | .error true =>
      exact ⟨_, rfl, .reading state hstate hlink rfl hne hclose hfailing,
        fun _ => fed_of_link (by rw [hlink]; nofun), (List.append_nil _).symm⟩
    | .closed =>
      obtain ⟨c', hc', hkeeps⟩ :=
        done_keeps (c := { c with ev := none }) date up rfl hclose hfailing hreqs
      exact ⟨c', hc', Keeps.advances_of_cons _ hreqs hkeeps⟩
    | .data bytes => exact data_advances date up hstate hlink hclose hfailing hreqs bytes

theorem step_advances (hsound : c.Sound) (s : ClientStep τ) (henabled : c.Enabled s) :
    ∃ c', c.step date s = .ok c' ∧ c.Advances s.up s.made c' := by
  cases s with
  | makeRequest cbArg req type uri up =>
    exact makeRequest_advances date up hsound cbArg req type uri
  | connection ok => exact connection_advances date hsound henabled.1 henabled.2 ok
  | callNext => exact ⟨_, rfl, callNext_advances hsound henabled⟩
  | retry up => exact ⟨_, rfl, retry_advances up hsound henabled.2⟩
  | write event up => exact write_advances up hsound henabled.2 event
  | read event up => exact read_advances date up hsound henabled.2 event
  | detectClose => exact ⟨_, rfl, detectClose_advances hsound henabled.2⟩

/-! ## Runs -/

theorem run_advances (hsound : c.Sound) {steps : List (ClientStep τ)}
    (hlegal : Legal date c steps) :
    ∃ c', run date c steps = .ok c' ∧ c'.Sound ∧ ((∀ s ∈ steps, s.up) → c.Fed → c'.Fed) ∧
      c'.asked = c.asked ++ steps.flatMap ClientStep.made := by
  induction steps generalizing c with
  | nil => exact ⟨c, rfl, hsound, fun _ hfed => hfed, (List.append_nil _).symm⟩
  | cons s steps ih =>
    obtain ⟨c₁, hc₁, hadvances⟩ := step_advances date hsound s hlegal.1
    obtain ⟨c', hc', hsound', hfed', hasked'⟩ := ih hadvances.sound (hlegal.2 c₁ hc₁)
    refine ⟨c', ?_, hsound', fun hup _ => ?_, ?_⟩
    · rw [run, hc₁]
      exact hc'
    · obtain ⟨hs, hsteps⟩ := List.forall_mem_cons.mp hup
      exact hfed' hsteps (hadvances.fed hs)
    · rw [hasked', hadvances.asked_eq, List.flatMap_cons, List.append_assoc]

/-- When nothing is pending, no request waits, unless the timer of a retry had no time. -/
theorem waiting_eq_nil (hsound : c.Sound) (hfed : c.Fed) (hev : c.ev = none)
    (hfailing : c.failing = false) (hcnt : c.retryCnt ≤ 31) : c.waiting = [] := by
  have hnil : c.requests = [] := by
    cases hsound with
    | disconnected hlink _ _ => exact (hfed hlink).resolve_right (by rw [hfailing]; nofun)
    | idle _ _ hnil _ => exact hnil
    | stuck _ _ _ h => exact absurd h (Nat.not_lt.mpr hcnt)
    | connecting _ h => rw [hev] at h; rcases h with h | h <;> cases h
    | writing _ h | reading _ _ _ h => rw [hev] at h; cases h
  rw [waiting, hnil]
  rfl

/-! ## The retries -/

variable {up}

/-- Only `evhttp_connectioncb` changes the counter of the retries. -/
def retries (c : Client τ) : ℤ × ℕ := (c.retryMax, c.retryCnt)

theorem connect_retries (c : Client τ) (up : Bool) :
    (c.evhttpConnectionConnect up).retries = c.retries := by
  unfold evhttpConnectionConnect
  split
  · rfl
  · cases up <;> rfl

theorem dispatch_retries (h : c.evhttpRequestDispatch date = .ok c') : c'.retries = c.retries := by
  unfold evhttpRequestDispatch at h
  split at h
  · cases h
    rfl
  · split at h
    · cases h
    · cases h
      rfl

theorem fail_retries (h : c.evhttpConnectionFail up = .ok c') : c'.retries = c.retries := by
  unfold evhttpConnectionFail at h
  split at h
  · cases h
  · dsimp only at h
    split at h
    · cases h
      exact connect_retries _ up
    · cases h
      rfl

theorem prepareNext_retries {needClose : Bool} (h : c.prepareNext date needClose up = .ok c') :
    c'.retries = c.retries := by
  have hfirst : ∀ c₁ : Client τ, c₁.retries = c.retries → (if c₁.requests ≠ [] then
      (if !c₁.link.evhttpConnected then .ok (c₁.evhttpConnectionConnect up)
        else c₁.evhttpRequestDispatch date)
      else if !needClose then .ok { c₁ with closeEv := true } else .ok c₁) = Except.ok c' →
      c'.retries = c.retries := by
    intro c₁ hc₁ h
    split at h
    · split at h
      · cases h
        exact (connect_retries c₁ up).trans hc₁
      · exact (dispatch_retries date h).trans hc₁
    · split at h
      · cases h
        exact hc₁
      · cases h
        exact hc₁
  cases needClose with
  | true => exact hfirst c.evhttpConnectionReset rfl h
  | false => exact hfirst c rfl h

theorem done_retries (h : c.evhttpConnectionDone date up = .ok c') : c'.retries = c.retries := by
  unfold evhttpConnectionDone at h
  split at h
  · cases h
  · dsimp only at h
    generalize hprepare : prepareNext _ _ _ _ = r at h
    cases r with
    | error abort => cases h
    | ok c₁ =>
      obtain rfl := Except.ok.inj h
      have hkept := prepareNext_retries date hprepare
      exact hkept

theorem write_retries {event : WriteEvent} (h : c.evhttpWrite event up = .ok c') :
    c'.retries = c.retries := by
  match event with
  | .timeout | .error | .wrote 0 => exact fail_retries h
  | .wrote (n + 1) =>
    simp only [evhttpWrite, evhttpWriteConnectioncb] at h
    split at h
    · cases h
      rfl
    · split at h
      · cases h
      · split at h
        · cases h
        · cases h
          rfl

theorem read_retries {event : Con.ReadEvent} (h : c.evhttpRead date event up = .ok c') :
    c'.retries = c.retries := by
  cases event with
  | timeout => exact fail_retries h
  | error again =>
    cases again with
    | true =>
      cases h
      rfl
    | false => exact fail_retries h
  | closed => exact done_retries date h
  | data bytes =>
    simp only [evhttpRead] at h
    split at h
    · cases h
    · cases h
    · split at h
      · cases h
      · split at h
        · cases h
        · simp only [afterRead] at h
          split at h
          · obtain rfl := Except.ok.inj h
            rfl
          · have hkept := done_retries date h
            exact hkept
          · have hkept := fail_retries h
            exact hkept

theorem makeRequest_retries {cbArg : τ} {req : Request} {type : Cmd} {uri : Bytes}
    (h : c.makeRequest date cbArg req type uri up = .ok c') : c'.retries = c.retries := by
  simp only [makeRequest] at h
  split at h
  · cases h
    exact connect_retries _ up
  · split at h
    · have hkept := dispatch_retries date h
      exact hkept
    · obtain rfl := Except.ok.inj h
      rfl

/-- No more retries are made than `evhttp_connection_set_retries` allows. -/
def Bounded (c : Client τ) : Prop := 0 ≤ c.retryMax → c.retryCnt ≤ c.retryMax

theorem step_bounded {s : ClientStep τ} (h : c.step date s = .ok c') (hbounded : c.Bounded) :
    c'.retryMax = c.retryMax ∧ c'.Bounded := by
  have hkept : c'.retries = c.retries → c'.retryMax = c.retryMax ∧ c'.Bounded := by
    intro heq
    obtain ⟨hmax, hcnt⟩ := Prod.mk.inj heq
    rw [Bounded, hmax, hcnt]
    exact ⟨rfl, hbounded⟩
  cases s with
  | makeRequest cbArg req type uri up => exact hkept (makeRequest_retries date h)
  | connection ok =>
    cases ok with
    | true =>
      obtain ⟨hmax, hcnt⟩ := Prod.mk.inj (dispatch_retries date h)
      refine ⟨hmax, fun hnonneg => ?_⟩
      rw [hmax] at hnonneg ⊢
      rw [hcnt]
      exact hnonneg
    | false =>
      simp only [step, evhttpConnectioncb, Bool.false_eq_true, if_false] at h
      split at h
      next hretry =>
        obtain rfl := Except.ok.inj h
        refine ⟨rfl, fun hnonneg => ?_⟩
        have hlt : (c.retryCnt : ℤ) < c.retryMax := hretry.resolve_left (Int.not_lt.mpr hnonneg)
        exact hlt
      next =>
        obtain rfl := Except.ok.inj h
        exact hkept rfl
  | callNext =>
    obtain rfl := Except.ok.inj h
    apply hkept
    unfold callNext
    split <;> rfl
  | retry up =>
    obtain rfl := Except.ok.inj h
    exact hkept (connect_retries _ up)
  | write event up =>
    have hwrite := write_retries (c := { c with ev := none }) h
    exact hkept hwrite
  | read event up =>
    have hread := read_retries (c := { c with ev := none }) date h
    exact hkept hread
  | detectClose =>
    obtain rfl := Except.ok.inj h
    exact hkept rfl

theorem run_bounded {steps : List (ClientStep τ)} (h : run date c steps = .ok c')
    (hbounded : c.Bounded) : c'.retryMax = c.retryMax ∧ c'.Bounded := by
  induction steps generalizing c with
  | nil =>
    cases h
    exact ⟨rfl, hbounded⟩
  | cons s steps ih =>
    rw [run] at h
    generalize hstep : c.step date s = r at h
    cases r with
    | error abort => cases h
    | ok c₁ =>
      obtain ⟨hmax, hbounded₁⟩ := step_bounded date hstep hbounded
      obtain ⟨hmax', hbounded'⟩ := ih h hbounded₁
      exact ⟨hmax'.trans hmax, hbounded'⟩

/-- Whatever becomes of the connection, and whenever requests are made, the program does not
end, and the callbacks of the requests are called in the order in which these were made, each
once. As long as every connection gets on its way, and there are fewer than 32 retries in a
row, none is forgotten: when nothing is pending any more, all have been called. With a bound
on the retries below 32 there are never so many. -/
theorem run_called (retryMax : ℤ) {steps : List (ClientStep τ)}
    (hlegal : Legal date { retryMax := retryMax } steps) :
    ∃ c, run date { retryMax := retryMax } steps = .ok c ∧
      c.called.map Prod.fst ++ c.waiting = steps.flatMap ClientStep.made ∧
      ((∀ s ∈ steps, s.up) → c.retryCnt < 32 → c.ev = none → c.failing = false →
        c.waiting = []) ∧
      (0 ≤ retryMax → c.retryCnt ≤ retryMax) := by
  obtain ⟨c, hc, hsound, hfed, hasked⟩ :=
    run_advances date (.disconnected rfl rfl rfl) hlegal
  obtain ⟨hmax, hbounded⟩ := run_bounded date hc id
  refine ⟨c, hc, hasked, fun hup hcnt hev hfailing => ?_, fun hnonneg => ?_⟩
  · exact waiting_eq_nil hsound (hfed hup fun _ => Or.inl rfl) hev hfailing
      (Nat.le_of_lt_succ hcnt)
  · rw [Bounded, hmax] at hbounded
    exact hbounded hnonneg

/-- Two requests wait while no connection is made, and are called one after the other. -/
theorem run_called_sample :
    ∃ c, run [] ({ retryMax := 0 } : Client ℕ)
        [.makeRequest 1 {} .get [47] true, .makeRequest 2 {} .get [47] true, .connection false,
          .callNext, .callNext, .callNext] = .ok c ∧
      c.called.map Prod.fst ++ c.waiting = [1, 2] ∧
      ((∀ s ∈ ([.makeRequest 1 {} .get [47] true, .makeRequest 2 {} .get [47] true,
          .connection false, .callNext, .callNext, .callNext] : List (ClientStep ℕ)), s.up) →
        c.retryCnt < 32 → c.ev = none → c.failing = false → c.waiting = []) ∧
      ((0 : ℤ) ≤ 0 → c.retryCnt ≤ (0 : ℤ)) := by
  refine run_called [] 0 ⟨trivial, fun c h => ?_⟩
  obtain rfl := Except.ok.inj h
  refine ⟨trivial, fun c h => ?_⟩
  obtain rfl := Except.ok.inj h
  refine ⟨⟨rfl, rfl⟩, fun c h => ?_⟩
  obtain rfl := Except.ok.inj h
  refine ⟨rfl, fun c h => ?_⟩
  obtain rfl := Except.ok.inj h
  refine ⟨rfl, fun c h => ?_⟩
  obtain rfl := Except.ok.inj h
  exact ⟨rfl, fun _ _ => trivial⟩

/-- A request whose connection does not get on its way waits, and nothing is pending. -/
example : ∃ c, run [] ({} : Client ℕ) [.makeRequest 1 {} .get [47] false] = .ok c ∧
    c.waiting = [1] ∧ c.ev = none ∧ c.failing = false :=
  ⟨_, rfl, rfl, rfl, rfl⟩

/-- So does one whose connection has failed 32 times in a row, if it may be tried for ever. -/
example : (run [] ({ retryMax := -1 } : Client ℕ) (.makeRequest 1 {} .get [47] true ::
    (List.replicate 31 [.connection false, .retry true]).flatten ++ [.connection false])).map
      (fun c => (c.waiting, c.ev, c.failing)) = .ok ([1], none, false) := by
  decide +kernel

end

end Client

end SearchTools.Libevent.Http
