import Manwe.Soccer.Http2.Client.Streams

/-!
# What a response is

The callbacks for one stream, **in an order that the rules of HTTP messages allow** (RFC 9113, 8.1),
are the interim responses, the block of the final response, the DATA, the trailers if there are any,
and the end of the stream; the stream may be closed at any point. `hear` reads them off one by one,
and is undefined where nghttp2 would have reset the stream instead of calling back. It knows nothing
of limits, flags or other streams.

`Tells` relates it to the stream object that the callbacks fill in.
-/

namespace Manwe.Http2

open Http

/-- How far the response has come. -/
inductive Stage where
  /-- no final response yet, and outside of a header block -/
  | waiting
  /-- a header block has begun -/
  | opening
  /-- in the block of an interim response -/
  | interim
  /-- in the block of the final response -/
  | final
  | body
  | trailers
  | ended
  deriving DecidableEq

/-- What was heard of a response. -/
structure Message where
  stage : Stage := .waiting
  /-- a final `:status` was received -/
  final : Bool := false
  status : ℕ := 0
  headers : List HttpHeader := []
  body : Bytes := []
  trailers : List HttpHeader := []
  /-- the size of all header fields, interim responses and trailers included -/
  headerBytes : ℕ := 0
  interims : ℕ := 0
  closed : Option ℕ := none
  deriving DecidableEq

/-- END_STREAM was received. -/
def Message.ended (m : Message) : Bool := m.stage == .ended

/-- A status as nghttp2 lets it through: three digits. -/
def isStatus (value : Bytes) : Bool := value.length == 3 && value.all isDigit

/-- `:status`, the first field of a block. -/
def Message.hearStatus (m : Message) (value : Bytes) : Message :=
  if 100 ≤ stoull value ∧ stoull value < 200 then
    { m with stage := .interim, interims := m.interims + 1 }
  else { m with stage := .final, final := true, status := stoull value }

/-- A field of a header block. -/
@[simp] def Message.hearField (m : Message) (name value : Bytes) : Option Message :=
  match m.stage with
  | .opening => if name = bytes ":status" ∧ isStatus value then some (m.hearStatus value) else none
  | .interim => if isPseudo name then none else some m
  | .final =>
    if isPseudo name then none else some { m with headers := m.headers ++ [⟨name, value⟩] }
  | .trailers =>
    if isPseudo name then none else some { m with trailers := m.trailers ++ [⟨name, value⟩] }
  | _ => none

/-- The end of a HEADERS or DATA frame. -/
@[simp] def Message.hearFrame (m : Message) (endStream : Bool) : Option Message :=
  match m.stage, endStream with
  | .interim, false => some { m with stage := .waiting }
  | .final, false => some { m with stage := .body }
  | .final, true => some { m with stage := .ended }
  | .body, false => some m
  | .body, true => some { m with stage := .ended }
  | .trailers, true => some { m with stage := .ended }
  | _, _ => none

/-- A callback on a stream that is not closed. -/
@[simp] def Message.next (m : Message) : Callback → Option Message
  | .beginHeaders =>
    match m.stage with
    | .waiting => some { m with stage := .opening }
    | .body => some { m with stage := .trailers }
    | _ => none
  | .header name value =>
    { m with headerBytes := m.headerBytes + name.length + value.length + 32 }.hearField name value
  | .data chunk =>
    match m.stage with
    | .body => some { m with body := m.body ++ chunk }
    | _ => none
  | .frame endStream => m.hearFrame endStream
  | .close errorCode => some { m with closed := some errorCode }

/-- **One callback.** -/
@[simp] def Message.hear (m : Message) (c : Callback) : Option Message :=
  if m.closed.isSome then none else m.next c

/-- Everything that was called back for a stream. -/
def hearAll (cs : List Callback) : Option Message := cs.foldlM Message.hear {}

/-! ### The stream object -/

variable {ι : Type}

/-- The flags that tell the blocks apart. -/
def Flags (st : Http2Stream ι) (m : Message) : Prop := match m.stage with
  | .waiting => st.finalSeen = false
  | .opening => st.finalSeen = false ∧ st.statusInBlock = false
  | .interim => st.finalSeen = false ∧ st.informational = true
  | .final => st.finalSeen = true ∧ st.informational = false ∧ st.statusInBlock = true
  | .body => st.finalSeen = true ∧ st.informational = false
  | .trailers => st.finalSeen = true ∧ st.informational = false ∧ st.statusInBlock = false
  | .ended => st.finalSeen = true

/-- The headers, as long as the limits are kept. -/
structure TellsHeaders (st : Http2Stream ι) (m : Message) : Prop where
  flags : Flags st m
  headerBytes : st.headerBytes = m.headerBytes
  interims : st.interimCount = m.interims
  short : m.headerBytes ≤ kHttp2MaxHeaderBytes
  few : m.interims ≤ kHttp2MaxInterimResponses
  final : m.final = st.finalSeen
  status : m.final = true → st.response.status = m.status
  headers : st.response.headers = m.headers
  trailers : st.response.trailers = m.trailers

/-- **The stream object tells the message**, if it was not given up. -/
structure Tells (st : Http2Stream ι) (m : Message) : Prop where
  done : st.done = m.closed.isSome
  errorCode : st.errorCode = m.closed.getD 0
  ended : st.endStreamSeen = m.ended
  header : st.headersRejected = false → TellsHeaders st m
  body : st.bodyRejected = false → st.response.body = m.body ∧ m.body.length ≤ kHttp2MaxBodyBytes

theorem Tells.init : Tells ({} : Http2Stream ι) {} where
  done := rfl
  errorCode := rfl
  ended := rfl
  header := fun _ => ⟨rfl, rfl, rfl, Nat.zero_le _, Nat.zero_le _, rfl, nofun, rfl, rfl⟩
  body := fun _ => ⟨rfl, Nat.zero_le _⟩

end Manwe.Http2
