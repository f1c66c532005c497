/-
# Messages that come in pieces

A connection takes its message off the buffer item by item: lines, chunks, a body of
known length, or single bytes until the connection is closed. The functions that read a
message do just that, so what they have read does not depend on how the network cut the
message into segments, as long as no end of a line is cut in two.
-/

import SearchTools.Libevent.Message
import SearchTools.Library.Runs

namespace SearchTools.Libevent.Http

open SearchTools.Library

namespace Session

variable (s : Session)

/-- The first line has come. -/
def firstlineRead (line : Bytes) : Session :=
  match parseFirstlineOf s.req (cstr line) with
  | (req, true) => { s with req := req, state := .readingHeaders }
  | (req, false) => { s with req := req }.fail .invalidHeader

/-- The headers, or the trailer, have come to their end, or not. -/
def afterParse : ReadStatus → Session
  | .allDataRead => if s.state = .readingTrailer then s.done else s.headersRead
  | .moreDataExpected => s
  | .dataCorrupted => s.fail .invalidHeader

/-- A line of the headers or the trailer has come. -/
def headerRead (line : Bytes) : Session :=
  match parseHeaderLine s.req.inputHeaders (cstr line) with
  | .error status => s.afterParse status
  | .ok headers => s.withHeaders headers

/-- The chunks have come to their end, or not. -/
def afterChunks : ReadStatus → Session
  | .allDataRead => { s with state := .readingTrailer }
  | .moreDataExpected => s
  | .dataCorrupted => s.fail .invalidHeader

/-- A line before a chunk has come. -/
def chunkLineRead (line : Bytes) : Session :=
  match chunkSize (cstr line) with
  | .error status => s.afterChunks status
  | .ok none => s
  | .ok (some ntoread) =>
    let s := { s with req := { s.req with ntoread := ntoread } }
    if ntoread = 0 then s.afterChunks .allDataRead else s

/-- A part of the body that is not sent in chunks. -/
def bodyRead (data : Bytes) : Session :=
  { s with req := { s.req with inputBuffer := s.req.inputBuffer ++ data } }

/-- A part of the body off the buffer. -/
def takeBody : Framer Session UInt8 := fun s buf =>
  let n := s.req.ntoread.toNat
  if s.req.chunked then
    if s.req.ntoread < 0 then
      (firstLine buf).map fun item => (s.chunkLineRead item.1, item.2)
    else if buf.length = 0 ∨ (buf.length : ℤ) < s.req.ntoread then none
    else some ({ s with req := completeChunk s.req (buf.take n) }, buf.drop n)
  else if s.req.ntoread < 0 then
    buf.head?.map fun b => (s.bodyRead [b], buf.tail)
  else if (buf.length : ℤ) ≥ s.req.ntoread then
    let s := s.bodyRead (buf.take n)
    some ({ s with req := { s.req with ntoread := 0 } }.done, buf.drop n)
  else none

/-- One item off the buffer, in some state of the connection. -/
def takeIn : ConState → Framer Session UInt8
  | .readingFirstline => fun s buf =>
    (firstLine buf).map fun item => (s.firstlineRead item.1, item.2)
  | .readingHeaders | .readingTrailer => fun s buf =>
    (firstLine buf).map fun item => (s.headerRead item.1, item.2)
  | .readingBody => takeBody
  | .idle | .writing => fun _ _ => none

/-- One item off the buffer, as long as the connection waits. -/
def takeItem : Framer Session UInt8 := fun s buf =>
  if s.outcome = none then takeIn s.state s buf else none

variable {s} {buf : Bytes}

theorem takeItem_of_outcome (h : s.outcome ≠ none) : takeItem s buf = none := if_neg h

theorem takeItem_firstline (hout : s.outcome = none) (hstate : s.state = .readingFirstline)
    (buf : Bytes) :
    takeItem s buf = (firstLine buf).map fun item => (s.firstlineRead item.1, item.2) := by
  unfold takeItem
  rw [if_pos hout, hstate, takeIn]

theorem takeItem_header (hout : s.outcome = none)
    (hstate : s.state = .readingHeaders ∨ s.state = .readingTrailer) (buf : Bytes) :
    takeItem s buf = (firstLine buf).map fun item => (s.headerRead item.1, item.2) := by
  unfold takeItem
  rcases hstate with hstate | hstate <;> rw [if_pos hout, hstate, takeIn]

theorem takeItem_body (hout : s.outcome = none) (hstate : s.state = .readingBody)
    (buf : Bytes) :
    takeItem s buf = takeBody s buf := by
  unfold takeItem
  rw [if_pos hout, hstate, takeIn]

theorem takeBody_chunkLine (hchunked : s.req.chunked = true) (hn : s.req.ntoread < 0) :
    takeBody s buf = (firstLine buf).map fun item => (s.chunkLineRead item.1, item.2) := by
  unfold takeBody
  rw [if_pos hchunked, if_pos hn]

theorem takeBody_chunk (hchunked : s.req.chunked = true) (hn : ¬ s.req.ntoread < 0) :
    takeBody s buf = if buf.length = 0 ∨ (buf.length : ℤ) < s.req.ntoread then none
      else some ({ s with req := completeChunk s.req (buf.take s.req.ntoread.toNat) },
        buf.drop s.req.ntoread.toNat) := by
  unfold takeBody
  rw [if_pos hchunked, if_neg hn]

theorem takeBody_byte (hchunked : s.req.chunked = false) (hn : s.req.ntoread < 0) :
    takeBody s buf = buf.head?.map fun b => (s.bodyRead [b], buf.tail) := by
  unfold takeBody
  rw [hchunked, if_neg Bool.false_ne_true, if_pos hn]

theorem takeBody_length (hchunked : s.req.chunked = false) (hn : ¬ s.req.ntoread < 0) :
    takeBody s buf = if (buf.length : ℤ) ≥ s.req.ntoread then
      some ({ s.bodyRead (buf.take s.req.ntoread.toNat) with
        req := { (s.bodyRead (buf.take s.req.ntoread.toNat)).req with ntoread := 0 } }.done,
        buf.drop s.req.ntoread.toNat)
      else none := by
  unfold takeBody
  rw [hchunked, if_neg Bool.false_ne_true, if_neg hn]

/-! ## The functions take item by item -/

theorem parseHeaderLine_ne_more {headers : Headers} {line : Bytes} :
    parseHeaderLine headers line ≠ .error .moreDataExpected := by
  intro h
  unfold parseHeaderLine at h
  split at h
  · cases h
  · split at h
    · split at h <;> cases h
    · split at h
      · cases h
      · split at h <;> cases h

theorem takes_step {s' : Session} {buf' : Bytes} {y : Session × Bytes}
    (h : takeItem s buf = some (s', buf')) (hrest : takeItem.Takes (s', buf') y) :
    takeItem.Takes (s, buf) y :=
  .head h hrest

theorem chunkSize_ne_more {p : Bytes} : chunkSize p ≠ .error .moreDataExpected := by
  intro h
  unfold chunkSize at h
  split at h
  · cases h
  · dsimp only at h
    split at h <;> cases h

/-- `evhttp_parse_headers` takes lines. -/
theorem takes_parseHeaders (hout : s.outcome = none)
    (hstate : s.state = .readingHeaders ∨ s.state = .readingTrailer)
    {headers : Headers} {buf' : Bytes} {status : ReadStatus}
    (h : evhttpParseHeaders s.req.inputHeaders buf = (headers, buf', status)) :
    takeItem.Takes (s, buf) ((s.withHeaders headers).afterParse status, buf') ∧
      (status = .moreDataExpected → takeItem (s.withHeaders headers) buf' = none) := by
  induction hn : buf.length using Nat.strongRecOn generalizing s buf with
  | ind n ih =>
    have htake := takeItem_header hout hstate buf
    cases hline : firstLine buf with
    | none =>
      rw [evhttpParseHeaders_of_none hline] at h
      obtain ⟨rfl, hrest⟩ := Prod.mk.inj h
      obtain ⟨rfl, rfl⟩ := Prod.mk.inj hrest
      rw [hline] at htake
      exact ⟨.refl, fun _ => htake⟩
    | some pair =>
      obtain ⟨line, rest⟩ := pair
      have hlen := length_lt_of_firstLine hline
      rw [evhttpParseHeaders_of_line hline] at h
      rw [hline, Option.map_some] at htake
      cases hparse : parseHeaderLine s.req.inputHeaders (cstr line) with
      | error other =>
        rw [hparse] at h
        obtain ⟨rfl, hrest⟩ := Prod.mk.inj h
        obtain ⟨rfl, rfl⟩ := Prod.mk.inj hrest
        have hread : s.headerRead line = s.afterParse other := by rw [headerRead, hparse]
        rw [hread] at htake
        refine ⟨takes_step htake .refl, fun hmore => ?_⟩
        rw [hmore] at hparse
        exact absurd hparse parseHeaderLine_ne_more
      | ok headers' =>
        rw [hparse] at h
        have hread : s.headerRead line = s.withHeaders headers' := by rw [headerRead, hparse]
        rw [hread] at htake
        obtain ⟨htakes, hmore⟩ := ih rest.length (hn ▸ hlen) (s := s.withHeaders headers')
          hout hstate h rfl
        exact ⟨takes_step htake htakes, hmore⟩

/-- `evhttp_handle_chunked_read` takes lines and chunks. -/
theorem takes_chunkedLoop (hout : s.outcome = none) (hstate : s.state = .readingBody)
    (hchunked : s.req.chunked = true) {fuel : ℕ}
    (hfuel : 2 * buf.length + (if s.req.ntoread = 0 then 1 else 0) < fuel)
    {req : Request} {buf' : Bytes} {status : ReadStatus}
    (h : handleChunkedLoop fuel s.req buf = (req, buf', status)) :
    takeItem.Takes (s, buf) ({ s with req := req }.afterChunks status, buf') ∧
      (status = .moreDataExpected → takeItem { s with req := req } buf' = none) := by
  induction fuel generalizing s buf with
  | zero => exact absurd hfuel (Nat.not_lt_zero _)
  | succ fuel ih =>
    have htake := takeItem_body hout hstate buf
    -- What is returned when nothing can be taken.
    have hstay : takeItem s buf = none → (s.req, buf, ReadStatus.moreDataExpected) =
        (req, buf', status) → takeItem.Takes (s, buf)
          ({ s with req := req }.afterChunks status, buf') ∧
        (status = .moreDataExpected → takeItem { s with req := req } buf' = none) := by
      intro hnone heq
      obtain ⟨rfl, hrest⟩ := Prod.mk.inj heq
      obtain ⟨rfl, rfl⟩ := Prod.mk.inj hrest
      exact ⟨.refl, fun _ => hnone⟩
    rw [handleChunkedLoop] at h
    by_cases hn : s.req.ntoread < 0
    · rw [takeBody_chunkLine hchunked hn] at htake
      by_cases hbuf : buf.length = 0
      · rw [if_pos hbuf] at h
        refine hstay ?_ h
        rw [htake, List.length_eq_zero_iff.mp hbuf]
        rfl
      rw [if_neg hbuf, if_pos hn] at h
      cases hline : firstLine buf with
      | none =>
        rw [hline] at h htake
        exact hstay htake h
      | some pair =>
        obtain ⟨p, rest⟩ := pair
        have hlen := length_lt_of_firstLine hline
        rw [hline] at h htake
        rw [Option.map_some] at htake
        dsimp only at h htake
        cases hsize : chunkSize (cstr p) with
        | error other =>
          have hread : s.chunkLineRead p = s.afterChunks other := by rw [chunkLineRead, hsize]
          rw [hsize] at h
          obtain ⟨rfl, hrest⟩ := Prod.mk.inj h
          obtain ⟨rfl, rfl⟩ := Prod.mk.inj hrest
          rw [hread] at htake
          refine ⟨takes_step htake .refl, fun hmore => ?_⟩
          rw [hmore] at hsize
          exact absurd hsize chunkSize_ne_more
        | ok size =>
          rw [hsize] at h
          cases size with
          | none =>
            have hread : s.chunkLineRead p = s := by rw [chunkLineRead, hsize]
            rw [hread] at htake
            obtain ⟨htakes, hmore⟩ := ih (s := s) hout hstate hchunked
              (by split <;> omega) h
            exact ⟨takes_step htake htakes, hmore⟩
          | some ntoread =>
            dsimp only at h
            have hread : s.chunkLineRead p =
                if ntoread = 0 then
                  { s with req := { s.req with ntoread := ntoread } }.afterChunks .allDataRead
                else { s with req := { s.req with ntoread := ntoread } } := by
              rw [chunkLineRead, hsize]
            by_cases hzero : ntoread = 0
            · rw [if_pos hzero] at h hread
              obtain ⟨rfl, hrest⟩ := Prod.mk.inj h
              obtain ⟨rfl, rfl⟩ := Prod.mk.inj hrest
              rw [hread] at htake
              exact ⟨takes_step htake .refl, fun hmore => by cases hmore⟩
            · rw [if_neg hzero] at h hread
              rw [hread] at htake
              obtain ⟨htakes, hmore⟩ := ih
                (s := { s with req := { s.req with ntoread := ntoread } }) hout hstate hchunked (by dsimp only; rw [if_neg hzero]; omega) h
              exact ⟨takes_step htake htakes, hmore⟩
    · rw [takeBody_chunk hchunked hn] at htake
      by_cases hbuf : buf.length = 0
      · rw [if_pos hbuf] at h
        exact hstay (htake.trans (if_pos (Or.inl hbuf))) h
      rw [if_neg hbuf, if_neg hn] at h
      by_cases hlen : (buf.length : ℤ) < s.req.ntoread
      · rw [if_pos hlen] at h
        exact hstay (htake.trans (if_pos (Or.inr hlen))) h
      rw [if_neg hlen] at h
      rw [if_neg (not_or.mpr ⟨hbuf, hlen⟩)] at htake
      have hntoread : (completeChunk s.req (buf.take s.req.ntoread.toNat)).ntoread = -1 := by
        unfold completeChunk
        dsimp only
        split <;> rfl
      have hsame : (completeChunk s.req (buf.take s.req.ntoread.toNat)).chunked = true := by
        unfold completeChunk
        dsimp only
        split <;> exact hchunked
      have hdrop : (buf.drop s.req.ntoread.toNat).length = buf.length - s.req.ntoread.toNat :=
        List.length_drop
      obtain ⟨htakes, hmore⟩ := ih
        (s := { s with req := completeChunk s.req (buf.take s.req.ntoread.toNat) })
        hout hstate hsame
        (by dsimp only; rw [hntoread, if_neg (by decide), hdrop]; split at hfuel <;> omega) h
      exact ⟨takes_step htake htakes, hmore⟩

/-- Until the connection is closed, single bytes are as good as many. -/
theorem takes_bytes (hout : s.outcome = none) (hstate : s.state = .readingBody)
    (hchunked : s.req.chunked = false) (hn : s.req.ntoread < 0) :
    takeItem.Takes (s, buf) (s.bodyRead buf, []) := by
  induction buf generalizing s with
  | nil =>
    have hsame : s.bodyRead [] = s := by rw [bodyRead, List.append_nil]
    rw [hsame]
    exact .refl
  | cons b rest ih =>
    have htake := takeItem_body hout hstate (b :: rest)
    rw [takeBody_byte hchunked hn] at htake
    have hrest := ih (s := s.bodyRead [b]) hout hstate hchunked hn
    have hassoc : (s.bodyRead [b]).bodyRead rest = s.bodyRead (b :: rest) := by
      simp only [bodyRead, List.append_assoc, List.singleton_append]
    rw [hassoc] at hrest
    exact takes_step htake hrest

theorem headersRead_state (h : s.headersRead.outcome = none) :
    s.headersRead.state = .readingBody := by
  have hbody : s.getBody.outcome = none → s.getBody.state = .readingBody := by
    intro h
    unfold getBody at h ⊢
    split at h
    · cases h
    · next hpost =>
      rw [if_neg hpost]
      dsimp only at h ⊢
      split at h
      · next hchunked => rw [if_pos hchunked]
      · next hchunked =>
        rw [if_neg hchunked]
        split at h
        · cases h
        · rfl
  unfold headersRead at h ⊢
  split at h
  · exact hbody h
  · split at h
    · cases h
    · next hcode => rw [if_neg hcode]; exact hbody h

end Session

namespace Con

variable {con : Con}

/-- What the connection has become, and that nothing more can be taken. -/
def ReadsTo (s : Session) (buf : Bytes) (con : Con) : Prop :=
  Session.takeItem.Stops (s, buf) (con.toSession, con.inputBuffer)

theorem readsTo_of_outcome (con : Con) (h : con.outcome ≠ none) : ReadsTo con.toSession con.inputBuffer con :=
  ⟨.refl, Session.takeItem_of_outcome h⟩

theorem ReadsTo.of_takes {s s' : Session} {buf buf' : Bytes}
    (h : Session.takeItem.Takes (s, buf) (s', buf')) (hrest : ReadsTo s' buf' con) :
    ReadsTo s buf con :=
  ⟨h.trans hrest.1, hrest.2⟩

theorem readsTo_done {s : Session} {buf : Bytes} : ReadsTo s.done buf ⟨s.done, buf⟩ :=
  readsTo_of_outcome ⟨s.done, buf⟩ (Option.some_ne_none _)

theorem readsTo_fail {s : Session} {error : ConError} {buf : Bytes} :
    ReadsTo (s.fail error) buf ⟨s.fail error, buf⟩ :=
  readsTo_of_outcome ⟨s.fail error, buf⟩ (Option.some_ne_none _)

theorem readTrailer_readsTo (con : Con) (hout : con.outcome = none) (hstate : con.state = .readingTrailer) :
    ReadsTo con.toSession con.inputBuffer con.evhttpReadTrailer := by
  unfold evhttpReadTrailer
  rcases hparse : evhttpParseHeaders con.req.inputHeaders con.inputBuffer with
    ⟨headers, buffer, status⟩
  obtain ⟨htakes, hmore⟩ := Session.takes_parseHeaders hout (Or.inr hstate) hparse
  cases status with
  | allDataRead =>
    rw [Session.afterParse, if_pos (show (con.toSession.withHeaders headers).state = _ from hstate)]
      at htakes
    exact .of_takes htakes readsTo_done
  | moreDataExpected => exact ⟨htakes, hmore rfl⟩
  | dataCorrupted => exact .of_takes htakes readsTo_fail

theorem readBody_readsTo (con : Con) (hout : con.outcome = none) (hstate : con.state = .readingBody) :
    ReadsTo con.toSession con.inputBuffer con.evhttpReadBody := by
  have htake := Session.takeItem_body hout hstate con.inputBuffer
  unfold evhttpReadBody
  cases hchunked : con.req.chunked with
  | true =>
    rw [if_pos rfl]
    rcases hread : evhttpHandleChunkedRead con.req con.inputBuffer with ⟨req, buffer, status⟩
    obtain ⟨htakes, hmore⟩ := Session.takes_chunkedLoop hout hstate hchunked
      (by split <;> omega) hread
    cases status with
    | allDataRead =>
      exact .of_takes htakes (readTrailer_readsTo
        ⟨{ con.toSession with req := req, state := .readingTrailer }, buffer⟩ hout rfl)
    | moreDataExpected => exact ⟨htakes, hmore rfl⟩
    | dataCorrupted => exact .of_takes htakes readsTo_fail
  | false =>
    rw [if_neg Bool.false_ne_true]
    by_cases hn : con.req.ntoread < 0
    · rw [if_pos hn]
      have hstop : Session.takeItem (con.toSession.bodyRead con.inputBuffer) [] = none := by
        rw [Session.takeItem_body (s := con.toSession.bodyRead con.inputBuffer) hout hstate,
          Session.takeBody_byte (s := con.toSession.bodyRead con.inputBuffer) hchunked hn]
        rfl
      exact ⟨Session.takes_bytes hout hstate hchunked hn, hstop⟩
    · rw [if_neg hn]
      rw [Session.takeBody_length hchunked hn] at htake
      by_cases hlen : (con.inputBuffer.length : ℤ) ≥ con.req.ntoread
      · rw [if_pos hlen] at htake ⊢
        exact .of_takes (Session.takes_step htake .refl) readsTo_done
      · rw [if_neg hlen] at htake ⊢
        exact ⟨.refl, htake⟩

theorem afterHeaders_readsTo (con : Con) :
    ReadsTo con.toSession.headersRead con.inputBuffer con.afterHeaders := by
  unfold afterHeaders
  by_cases hout : con.toSession.headersRead.outcome = none
  · rw [if_pos hout]
    exact readBody_readsTo ⟨con.toSession.headersRead, con.inputBuffer⟩ hout
      (Session.headersRead_state hout)
  · rw [if_neg hout]
    exact readsTo_of_outcome ⟨con.toSession.headersRead, con.inputBuffer⟩ hout

theorem readHeader_readsTo (con : Con) (hout : con.outcome = none) (hstate : con.state = .readingHeaders) :
    ReadsTo con.toSession con.inputBuffer con.evhttpReadHeader := by
  unfold evhttpReadHeader
  rcases hparse : evhttpParseHeaders con.req.inputHeaders con.inputBuffer with
    ⟨headers, buffer, status⟩
  obtain ⟨htakes, hmore⟩ := Session.takes_parseHeaders hout (Or.inl hstate) hparse
  cases status with
  | allDataRead =>
    have hne : (con.toSession.withHeaders headers).state ≠ .readingTrailer := by
      show con.state ≠ _
      rw [hstate]
      decide
    rw [Session.afterParse, if_neg hne] at htakes
    exact .of_takes htakes
      (afterHeaders_readsTo ⟨con.toSession.withHeaders headers, buffer⟩)
  | moreDataExpected => exact ⟨htakes, hmore rfl⟩
  | dataCorrupted => exact .of_takes htakes readsTo_fail

theorem readFirstline_readsTo (con : Con) (hout : con.outcome = none)
    (hstate : con.state = .readingFirstline) :
    ReadsTo con.toSession con.inputBuffer con.evhttpReadFirstline := by
  have htake := Session.takeItem_firstline hout hstate con.inputBuffer
  unfold evhttpReadFirstline evhttpParseFirstline
  cases hline : firstLine con.inputBuffer with
  | none =>
    rw [hline] at htake
    exact ⟨.refl, htake⟩
  | some item =>
    obtain ⟨line, rest⟩ := item
    rw [hline, Option.map_some] at htake
    dsimp only at htake ⊢
    rcases hparse : parseFirstlineOf con.req (cstr line) with ⟨req, ok⟩
    cases ok with
    | true =>
      have hread : con.toSession.firstlineRead line =
          { con.toSession with req := req, state := .readingHeaders } := by
        rw [Session.firstlineRead, hparse]
      rw [hread] at htake
      exact .of_takes (Session.takes_step htake .refl)
        (readHeader_readsTo
          ⟨{ con.toSession with req := req, state := .readingHeaders }, rest⟩ hout rfl)
    | false =>
      have hread : con.toSession.firstlineRead line =
          { con.toSession with req := req }.fail .invalidHeader := by
        rw [Session.firstlineRead, hparse]
      rw [hread] at htake
      exact .of_takes (Session.takes_step htake .refl) readsTo_fail

/-- A read takes off all items that the buffer has then. -/
theorem evhttpRead_readsTo (hout : con.outcome = none) (data : Bytes) :
    ReadsTo con.toSession (con.inputBuffer ++ data) (con.evhttpRead (.data data)) := by
  have hread : ReadsTo con.toSession (con.inputBuffer ++ data)
      (readState { con with inputBuffer := con.inputBuffer ++ data }) := by
    unfold readState
    dsimp only
    cases hstate : con.state with
    | readingFirstline =>
      exact readFirstline_readsTo ⟨con.toSession, con.inputBuffer ++ data⟩ hout hstate
    | readingHeaders =>
      exact readHeader_readsTo ⟨con.toSession, con.inputBuffer ++ data⟩ hout hstate
    | readingBody =>
      exact readBody_readsTo ⟨con.toSession, con.inputBuffer ++ data⟩ hout hstate
    | readingTrailer =>
      exact readTrailer_readsTo ⟨con.toSession, con.inputBuffer ++ data⟩ hout hstate
    | idle | writing =>
      refine ⟨.refl, ?_⟩
      unfold Session.takeItem
      rw [if_pos hout, hstate, Session.takeIn]
  exact hread

end Con

/-! ## Segments -/

namespace Session

variable {s : Session} {buf more : Bytes}

/-- The next item is a line. -/
def ReadsLine (s : Session) : Prop :=
  s.state = .readingFirstline ∨ s.state = .readingHeaders ∨ s.state = .readingTrailer ∨
    s.state = .readingBody ∧ s.req.chunked = true ∧ s.req.ntoread < 0

/-- An item that was taken is taken in the same way when more stands behind it. -/
theorem takeItem_append {item : Session × Bytes} (h : takeItem s buf = some item)
    (hcut : s.ReadsLine → ¬ CutsEol buf more) :
    takeItem s (buf ++ more) = some (item.1, item.2 ++ more) := by
  have hout : s.outcome = none := by
    by_contra hout
    rw [takeItem_of_outcome hout] at h
    cases h
  -- The same for lines, whatever becomes of them.
  have hline : ∀ read : Bytes → Session, s.ReadsLine →
      (firstLine buf).map (fun item => (read item.1, item.2)) = some item →
      (firstLine (buf ++ more)).map (fun item => (read item.1, item.2)) =
        some (item.1, item.2 ++ more) := by
    intro read hreads hitem
    obtain ⟨⟨line, rest⟩, hfirst, rfl⟩ := Option.map_eq_some_iff.mp hitem
    rw [firstLine_append hfirst (hcut hreads)]
    rfl
  cases hstate : s.state with
  | readingFirstline =>
    rw [takeItem_firstline hout hstate] at h ⊢
    exact hline _ (Or.inl hstate) h
  | readingHeaders =>
    rw [takeItem_header hout (Or.inl hstate)] at h ⊢
    exact hline _ (Or.inr (Or.inl hstate)) h
  | readingTrailer =>
    rw [takeItem_header hout (Or.inr hstate)] at h ⊢
    exact hline _ (Or.inr (Or.inr (Or.inl hstate))) h
  | readingBody =>
    rw [takeItem_body hout hstate] at h ⊢
    have hlen : (buf ++ more).length = buf.length + more.length := List.length_append
    by_cases hn : s.req.ntoread < 0
    · cases hchunked : s.req.chunked with
      | true =>
        rw [takeBody_chunkLine hchunked hn] at h ⊢
        exact hline _ (Or.inr (Or.inr (Or.inr ⟨hstate, hchunked, hn⟩))) h
      | false =>
        rw [takeBody_byte hchunked hn] at h ⊢
        obtain ⟨b, hhead, rfl⟩ := Option.map_eq_some_iff.mp h
        cases buf with
        | nil => cases hhead
        | cons c buf =>
          obtain rfl := Option.some.inj hhead
          rfl
    · -- What is taken stands before what follows.
      have hpart : s.req.ntoread ≤ buf.length →
          (buf ++ more).take s.req.ntoread.toNat = buf.take s.req.ntoread.toNat ∧
            (buf ++ more).drop s.req.ntoread.toNat = buf.drop s.req.ntoread.toNat ++ more := by
        intro hle
        exact ⟨List.take_append_of_le_length (by omega), List.drop_append_of_le_length (by omega)⟩
      cases hchunked : s.req.chunked with
      | true =>
        rw [takeBody_chunk hchunked hn] at h ⊢
        by_cases hshort : buf.length = 0 ∨ (buf.length : ℤ) < s.req.ntoread
        · rw [if_pos hshort] at h
          cases h
        · rw [if_neg hshort] at h
          obtain rfl := Option.some.inj h
          obtain ⟨htake, hdrop⟩ := hpart (by omega)
          rw [if_neg (by omega), htake, hdrop]
      | false =>
        rw [takeBody_length hchunked hn] at h ⊢
        by_cases hlong : (buf.length : ℤ) ≥ s.req.ntoread
        · rw [if_pos hlong] at h
          obtain rfl := Option.some.inj h
          obtain ⟨htake, hdrop⟩ := hpart hlong
          rw [if_pos (by omega), htake, hdrop]
        · rw [if_neg hlong] at h
          cases h
  | idle | writing =>
    unfold takeItem at h
    rw [if_pos hout, hstate, takeIn] at h
    cases h

/-- An item is taken off the front. -/
theorem takeItem_suffix {item : Session × Bytes} (h : takeItem s buf = some item) :
    item.2 <:+ buf := by
  have hline : ∀ read : Bytes → Session,
      (firstLine buf).map (fun item => (read item.1, item.2)) = some item → item.2 <:+ buf := by
    intro read hitem
    obtain ⟨⟨line, rest⟩, hfirst, rfl⟩ := Option.map_eq_some_iff.mp hitem
    exact firstLine_suffix hfirst
  unfold takeItem at h
  split at h
  · revert h
    cases s.state with
    | readingFirstline | readingHeaders | readingTrailer => exact hline _
    | readingBody =>
      intro h
      rw [takeIn] at h
      unfold takeBody at h
      dsimp only at h
      split at h
      · split at h
        · exact hline _ h
        · split at h
          · cases h
          · exact Option.some.inj h ▸ List.drop_suffix _ _
      · split at h
        · obtain ⟨b, -, rfl⟩ := Option.map_eq_some_iff.mp h
          exact List.tail_suffix buf
        · split at h
          · exact Option.some.inj h ▸ List.drop_suffix _ _
          · cases h
    | idle | writing =>
      intro h
      cases h
  · cases h

theorem takes_suffix {x y : Session × Bytes} (h : takeItem.Takes x y) : y.2 <:+ x.2 := by
  induction h with
  | refl => exact List.suffix_rfl
  | tail _ hstep ih => exact (takeItem_suffix hstep).trans ih

end Session

namespace Con

variable {con : Con} {segments : List Bytes}

/-- No segment ends in the middle of the end of a line that is read. -/
def Uncut : Con → List Bytes → Prop
  | _, [] => True
  | con, segment :: segments =>
    (∀ y, Session.takeItem.Takes (con.toSession, con.inputBuffer ++ segment) y →
      y.1.ReadsLine → ¬ CutsEol y.2 segments.flatten) ∧
    ((con.evhttpRead (.data segment)).outcome = none →
      Uncut (con.evhttpRead (.data segment)) segments)

/-- What the connection has become in the end, with all that came behind it. -/
def after (result : Con × List Bytes) : Con :=
  { result.1 with inputBuffer := result.1.inputBuffer ++ result.2.flatten }

theorem receive_readsTo (hout : con.outcome = none)
    (hquiet : Session.takeItem con.toSession con.inputBuffer = none)
    (huncut : Uncut con segments) :
    ReadsTo con.toSession (con.inputBuffer ++ segments.flatten) (after (con.receive segments)) := by
  induction segments generalizing con with
  | nil =>
    rw [List.flatten_nil, List.append_nil]
    refine ⟨?_, ?_⟩ <;> simp only [receive, after, List.flatten_nil, List.append_nil]
    · exact .refl
    · exact hquiet
  | cons segment segments ih =>
    have hread := evhttpRead_readsTo hout segment
    have hwhole : Session.takeItem.Whole (con.toSession, con.inputBuffer ++ segment)
        segments.flatten := fun y hy z hz => Session.takeItem_append hz (huncut.1 y hy)
    rw [List.flatten_cons, ← List.append_assoc, receive, if_pos hout]
    refine hread.append hwhole ?_
    by_cases hend : (con.evhttpRead (.data segment)).outcome = none
    · exact ih hend hread.2 (huncut.2 hend)
    · have hstay : (con.evhttpRead (.data segment)).receive segments =
          (con.evhttpRead (.data segment), segments) := by
        cases segments with
        | nil => rfl
        | cons next segments => rw [receive, if_neg hend]
      rw [hstay]
      exact readsTo_of_outcome (after (con.evhttpRead (.data segment), segments)) hend

/-- Between segments no byte of a line end is followed by the other one. -/
def CleanCuts : List Bytes → Prop
  | [] => True
  | segment :: segments => segment ≠ [] ∧
      (∀ fch ∈ segment.getLast?, ∀ sch ∈ segments.flatten.head?, isEol fch → isEol sch →
        sch = fch) ∧ CleanCuts segments

theorem uncut_of_cleanCuts (h : CleanCuts segments) : Uncut con segments := by
  induction segments generalizing con with
  | nil => trivial
  | cons segment segments ih =>
    refine ⟨fun y hy _ hcut => ?_, fun _ => ih h.2.2⟩
    obtain ⟨line, fch, hbuf, -, hfch, sch, hsch, hschEol, hne⟩ := hcut
    have hlast : segment.getLast? = some fch := by
      obtain ⟨start, hstart⟩ := Session.takes_suffix hy
      have hwhole : (con.inputBuffer ++ segment).getLast? = some fch := by
        rw [show con.inputBuffer ++ segment = start ++ y.2 from hstart.symm, hbuf,
          ← List.append_assoc, List.getLast?_concat]
      rwa [List.getLast?_append, List.getLast?_eq_some_getLast h.1, Option.some_or,
        ← List.getLast?_eq_some_getLast h.1] at hwhole
    exact hne (h.2.1 fch hlast sch hsch hfch hschEol)

theorem cleanCuts_singleton {segment : Bytes} (h : segment ≠ []) : CleanCuts [segment] := by
  refine ⟨h, ?_, trivial⟩
  intro fch _ sch hsch
  cases hsch

end Con

end SearchTools.Libevent.Http
