import Manwe.Data.Gather
import Manwe.Soccer.Http2.Server.Steps

/-!
# What a request is

The callbacks for one stream, in an order that the rules of HTTP messages allow (RFC 9113, 8.1): the
block of the request, **its pseudo-header fields first**, the DATA, the trailers if there are any,
and END_STREAM, after which only the end of the stream comes. `hear` reads them off one by one, and
`requestOf` says what the handler should see of them: the pseudo-headers in fields of their own, one
`host` in front for `:authority`, the crumbs of the cookie joined, and no trailers.

Neither knows of limits, flags or other streams. `Tells` relates them to the stream object.
-/

namespace Manwe.Http2

open Http

namespace Server

/-- How far the request has come. -/
inductive RequestStage where
  | idle
  /-- in the request block, before its regular fields -/
  | pseudo
  | regular
  /-- past the request block -/
  | content
  | ended
  deriving DecidableEq

/-- What was heard of a request. -/
structure RequestMessage where
  stage : RequestStage := .idle
  /-- the fields of the request block -/
  fields : List HttpHeader := []
  body : Bytes := []
  closed : Bool := false
  deriving DecidableEq

namespace RequestMessage

variable (m : RequestMessage)

/-- END_STREAM was received. -/
@[simp] def ended : Bool := m.stage == .ended

/-- A callback on a stream that is not closed. -/
@[simp] def next : Part → Option RequestMessage
  | .begin => if m = {} then some { stage := .pseudo } else none
  | .field name value =>
    match m.stage, isPseudo name with
    | .pseudo, true => some { m with fields := m.fields ++ [⟨name, value⟩] }
    | .pseudo, false => some { m with stage := .regular, fields := m.fields ++ [⟨name, value⟩] }
    | .regular, false => some { m with fields := m.fields ++ [⟨name, value⟩] }
    | _, _ => none
  | .trailer _ _ => if m.stage = .content then some m else none
  | .data chunk => if m.stage = .content then some { m with body := m.body ++ chunk } else none
  | .frame endStream =>
    match m.stage with
    | .pseudo | .regular | .content =>
      some { m with stage := if endStream then .ended else .content }
    | _ => none
  | .close => if m.stage = .idle then none else some { m with closed := true }

/-- **One callback.** -/
def hear (c : Part) : Option RequestMessage := if m.closed then none else m.next c

end RequestMessage

/-- Everything that was called back for a stream. -/
def hearRequest (cs : List Part) : Option RequestMessage := cs.foldlM RequestMessage.hear {}

theorem hearRequest_append (cs cs' : List Part) :
    hearRequest (cs ++ cs') = (hearRequest cs).bind fun m => cs'.foldlM RequestMessage.hear m :=
  List.foldlM_append ..

/-! ### The request of a message -/

def isHost (h : HttpHeader) : Bool := h.name = bytes "host"

def isCookie (h : HttpHeader) : Bool := h.name = bytes "cookie"

/-- The values of a field. -/
def valuesOf (name : Bytes) (fields : List HttpHeader) : List Bytes :=
  (fields.filter fun f => f.name = name).map HttpHeader.value

/-- The value of a pseudo-header, empty if there is none. nghttp2 lets each of them through once. -/
def pseudoValue (name : Bytes) (fields : List HttpHeader) : Bytes := (valuesOf name
    fields).getLast?.getD []

/-- The `host` that stands for `:authority`. -/
def authorityHost (fields : List HttpHeader) : List HttpHeader :=
  ((valuesOf (bytes ":authority") fields).head?.map fun value => ⟨bytes "host", value⟩).toList

def regularFields (fields : List HttpHeader) : List HttpHeader :=
  fields.filter fun f => !isPseudo f.name

/-- Only the first `host` stays. -/
def oneHost : List HttpHeader → List HttpHeader := gather isHost fun h _ => h

/-- The crumbs of the cookie are joined at the place of the first. -/
def joinCookies : List HttpHeader → List HttpHeader :=
  gather isCookie fun h crumb => ⟨h.name, h.value ++ bytes "; " ++ crumb.value⟩

/-- **The headers that the handler sees.** -/
def headersOf (fields : List HttpHeader) : List HttpHeader :=
  joinCookies (oneHost (authorityHost fields ++ regularFields fields))

/-- **The request that the handler sees.** -/
def requestOf (fields : List HttpHeader) (body : Bytes) : Http2Request where
  method := pseudoValue (bytes ":method") fields
  path := (splitQuery (pseudoValue (bytes ":path") fields)).1
  query := (splitQuery (pseudoValue (bytes ":path") fields)).2
  headers := headersOf fields
  body := body
  authority := pseudoValue (bytes ":authority") fields
  scheme := pseudoValue (bytes ":scheme") fields

/-- The size of a header list (RFC 9113, 6.5.2). -/
def listBytes (fields : List HttpHeader) : ℕ :=
  (fields.map fun f => f.name.length + f.value.length + 32).sum

/-- **No limit was exceeded**: neither the size of the list, nor the number of headers when a field
came, nor the size of the body. -/
structure RequestMessage.Within (o : Http2ServerOptions) (m : RequestMessage) : Prop where
  list : o.maxHeaderListBytes ≠ 0 → listBytes m.fields ≤ o.maxHeaderListBytes
  count : o.maxHeaderCount ≠ 0 → ∀ fs f, (fs ++ [f]).IsPrefix m.fields →
    (headersOf fs).length < o.maxHeaderCount
  body : o.maxBodyBytes ≠ 0 → m.body.length ≤ o.maxBodyBytes

/-! ### The stream object -/

/-- **The stream object tells the message.** -/
structure Tells (o : Http2ServerOptions) (st : ServerStream) (m : RequestMessage) : Prop where
  req : st.req = requestOf m.fields m.body
  hasHost : st.hasHost = (authorityHost m.fields ++ regularFields m.fields).any isHost
  cookie : st.cookieIndex = (headersOf m.fields).findIdx? isCookie
  headerBytes : st.headerBytes = listBytes m.fields
  within : m.Within o
  pseudo : m.stage = .pseudo → regularFields m.fields = []

/-- Nothing was rejected, and the request was not handed over. -/
def live (st : ServerStream) : Bool := !(st.bodyRejected || st.rejected || st.responseSubmitted)

/-- **What a stream of the map is worth.** -/
structure Follows (o : Http2ServerOptions) (st : ServerStream) (m : RequestMessage) : Prop where
  begun : m.stage ≠ .idle
  started : st.handlerStarted = m.ended
  tells : live st = true → Tells o st m

end Server

end Manwe.Http2
