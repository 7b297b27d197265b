import Manwe.Soccer.Http2.Exchange.Response
import Manwe.Soccer.Http2.Server.Kept

/-!
# Requests and responses survive the trip

The two directions over the connections as they run. A request that `Http2Connection::request`
submits is handed to a handler as `expectedRequest`, and a response that a handler returns comes out
of the awaiter with what `submitResponseLocked` made of it, **whatever the other streams do
meanwhile**, as long as the limits of the receiving side are kept and nothing gives the stream up.
-/

namespace Manwe.Http2

open Http Server

/-- **The round trip of a request and a response.** -/
theorem exchange_roundTrip :
    (∀ (o : Http2ServerOptions) (authority scheme method path : Bytes) (headers : List HttpHeader)
      (body : Bytes) (fields : List HttpHeader) (parts : List Part)
      (tr : List (State × Event)) (s : State) (id : ℕ),
      requestFields authority scheme method path headers body = .ok fields →
      RequestDelivery fields body parts →
      Run (step o) {} tr s → logOf (heard id) tr = parts →
      ({ fields, body } : RequestMessage).Within o →
      (∀ s₁ chunk, (s₁, Event.data id chunk) ∈ tr → ¬ s₁.overBudget o chunk.length) →
      s.streams.find id ≠ none →
      (id, expectedRequest authority scheme method path headers body) ∈
        logOf dispatched tr ++ dispatched s .dispatch) ∧
    ∀ (ι : Type) [DecidableEq ι] (resp : Http2Response) (head : Bool) (cs : List Callback)
      (tr : List (Client.State ι × Client.Event ι)) (s : Client.State ι) (i : ι) (id : ℕ),
      validResponse resp = true →
      ResponseDelivery (responseFields resp head) (respBody resp head) (respTrailers resp head) cs →
      Run Client.step {} tr s → (∀ p ∈ tr, p.2.destroys = false) →
      logOf (Client.heard id) tr = cs ++ [.close 0] →
      (∀ p ∈ tr, Client.marks id p.1 p.2 = false) → s.ops i = .resumed id →
      listBytes (responseFields resp head) + listBytes (respTrailers resp head) ≤
        kHttp2MaxHeaderBytes →
      (respBody resp head).length ≤ kHttp2MaxBodyBytes →
      ∃ resp', Client.results s (.take i) = [(i, id, .ok resp')] ∧ resp'.status = resp.status ∧
        resp'.headers = (resp.headers.filter fun h => !isServerManagedResponseHeader h).map
          lowerName ++
          (if (responseLength resp head).isEmpty then []
            else [⟨bytes "content-length", responseLength resp head⟩]) ∧
        resp'.body = (if sendBody resp.status head then resp.body else []) ∧
        resp'.trailers = if sendBody resp.status head then
          (resp.trailers.filter fun h => !(isServerManagedResponseHeader h || h.named "te")).map
            lowerName
          else [] := by
  constructor
  · intro o authority scheme method path headers body fields parts tr s id hok hd hrun hheard hw
      hbudget hst
    obtain ⟨st, hst⟩ := Option.ne_none_iff_exists'.1 hst
    have hm := hd.hear hok
    rw [← hheard] at hm
    rw [← requestOf_requestFields hok]
    exact handedOver_run hrun hm rfl ⟨hw.list, hw.count, hw.body⟩ hbudget hst
  · intro ι _ resp head cs tr s i id hvalid hd hrun hdestroys hheard hmarks hi hbytes hbody
    have hm := hd.hear hvalid
    rw [← hheard] at hm
    exact Client.returned_run hrun hdestroys hi hm hmarks ⟨hbytes, Nat.zero_le _, hbody⟩ rfl rfl rfl

/-- A request with a body in two pulls, on a connection that another stream is opened on. -/
def postedEvents : List Event := [.beginHeaders 1, .header 1 (bytes ":method") (bytes "POST"),
    .header 1 (bytes ":scheme") (bytes "http"),
    .header 1 (bytes ":authority") (bytes "b"), .header 1 (bytes ":path") (bytes "/x?y"),
    .header 1 (bytes "cookie") (bytes "k=1"), .header 1 (bytes "cookie") (bytes "l=2"),
    .header 1 (bytes "content-length") (bytes "5"), .frame 1 false, .beginHeaders 3,
    .data 1 (bytes "he"),
    .data 1 (bytes "l"), .frame 1 false, .data 1 (bytes "lo"), .frame 1 true]

def postedHeaders : List HttpHeader :=
  [⟨bytes "Host", bytes "b"⟩, ⟨bytes "Cookie", bytes "k=1"⟩, ⟨bytes "Connection", bytes "close"⟩,
    ⟨bytes "cookie", bytes "l=2"⟩]

def postedFields : List HttpHeader :=
  pseudoFields (bytes "b") (bytes "http") (bytes "POST") (bytes "/x?y") ++
    sentHeaders (bytes "POST") postedHeaders (bytes "hello")

def unlimited : Http2ServerOptions := ⟨0, 0, 0, 0, 0⟩

/-- A response that consists of headers and trailers. -/
def trailersOnly : Http2Response where
  status := 200
  headers := [⟨bytes "Via", bytes "v"⟩, ⟨bytes "Connection", bytes "close"⟩]
  trailers := [⟨bytes "Grpc-Status", bytes "0"⟩]

def answeredEvents : List (Client.Event ℕ) :=
  [.request 0, .register 0, .flushed 0, .ready 0, .suspend 0, .callback 1 .beginHeaders,
    .callback 1 (.header (bytes ":status") (bytes "200")),
    .callback 1 (.header (bytes "via") (bytes "v")),
    .callback 1 (.header (bytes "content-length") (bytes "0")), .callback 1 (.frame false),
    .callback 1 .beginHeaders, .callback 1 (.header (bytes "grpc-status") (bytes "0")),
    .callback 1 (.frame true), .callback 1 (.close 0), .resume 0]

theorem exchange_roundTrip_postAndTrailers : (∃ tr s, Run (step unlimited) {} tr s ∧
      (1, expectedRequest (bytes "a") (bytes "http") (bytes "POST") (bytes "/x?y") postedHeaders
        (bytes "hello")) ∈ logOf dispatched tr ++ dispatched s .dispatch) ∧
    ∃ tr, ∃ s : Client.State ℕ, ∃ resp', Run Client.step {} tr s ∧
      Client.results s (.take 0) = [(0, 1, .ok resp')] ∧
      resp'.trailers = [⟨bytes "grpc-status", bytes "0"⟩] := by
  constructor
  · have hpulls : Pulls (requestBodyRead (bytes "hello")) 0 (bytes "hello") _ :=
      @Pulls.more _ 0 3 (bytes "lo") _ rfl (@Pulls.last _ 3 10 rfl)
    obtain ⟨tr, s, h, hl, hs⟩ : ∃ tr s, Run (step unlimited) {} tr s ∧
        logOf (heard 1) tr = requestBlock postedFields false ++ dataFrames Part.data Part.frame true
            [[bytes "he", bytes "l"], [bytes "lo"]] ∧
        s.streams.find 1 ≠ none :=
      Run.exists_of_exec postedEvents (by decide +kernel)
    refine ⟨tr, s, h, exchange_roundTrip.1 unlimited _ _ _ _ _ _ postedFields _ tr s 1
      (by decide +kernel) (.body (by decide) hpulls (by simp) rfl) h hl ?_
      (fun _ _ _ hover => hover.1 rfl) hs⟩
    exact ⟨fun h0 => absurd rfl h0, fun h0 => absurd rfl h0, fun h0 => absurd rfl h0⟩
  · obtain ⟨tr, s, h, hd, hl, hm, hi⟩ : ∃ tr, ∃ s : Client.State ℕ, Run Client.step {} tr s ∧
        (∀ p ∈ tr, p.2.destroys = false) ∧
        logOf (Client.heard 1) tr = (responseBlock (responseFields trailersOnly false) false ++
          dataFrames Callback.data Callback.frame false [] ++
          responseBlock (respTrailers trailersOnly false) true) ++ [.close 0] ∧
        (∀ p ∈ tr, Client.marks 1 p.1 p.2 = false) ∧ s.ops 0 = .resumed 1 :=
      Run.exists_of_exec answeredEvents (by decide +kernel)
    have hpulls : Pulls (serverBodyRead [] (respTrailers trailersOnly false)) 0 [] _ :=
      @Pulls.last _ 0 10 rfl
    obtain ⟨resp', hres, -, -, -, htrailers⟩ := exchange_roundTrip.2 ℕ trailersOnly false _ tr s 0 1
      (by decide) (.trailers (.inr (by decide)) hpulls (by decide) rfl) h hd hl hm hi
      (by decide +kernel) (by decide)
    exact ⟨tr, s, resp', h, hres, htrailers⟩

end Manwe.Http2
