import Manwe.Soccer.HttpClient
import Manwe.Soccer.HttpConnectionPool
import Manwe.Transition.Run

/-!
# Pooled requests

Calls to `HttpClient::pooledRequest` that share one `HttpConnectionPool`. A call takes a live
connection out of the pool or dials one, writes its request, reads the response through a
`CountingStream`, and hands the connection to `release` if the response left it at a clean boundary
and **nothing beyond the response was read off the socket**. A request that failed before any
response was seen is repeated once, on a connection of its own.

A connection is known by its number, in the order of dialling. The exchange itself is one step: no
other call can touch the connection meanwhile. What the peer sends over the life of a connection is
settled when it is dialled, for every way to settle it; whether a peek finds bytes or an end of file
at the moment of an `acquireLive` is up to the environment.
-/

namespace Manwe.PooledRequest

open Http HttpClient HttpConnectionPool BufferedReader

variable {ι : Type}

/-- What a call is asked to do. -/
structure Request where
  /-- `keyOf(host, port)` -/
  key : Bytes
  /-- the request as it is written: head and body -/
  message : Bytes
  /-- the method is HEAD -/
  head : Bool
  idempotent : Bool
  deriving DecidableEq

/-- Where a call stands. -/
inductive Call where
  | idle
  /-- in `acquireLive` -/
  | acquiring
  /-- before `tcpConnect` -/
  | dialling
  /-- with a connection, before the first write -/
  | holding (conn : ℕ) (reused : Bool)
  | returned (resp : HttpResponse)
  | failed
  deriving DecidableEq

structure State (ι : Type) where
  pool : Pool ℕ := {}
  now : ℕ := 0
  /-- connections dialled so far -/
  dialled : ℕ := 0
  streams : ℕ → TcpStream := fun _ => { rest := [] }
  calls : ι → Call := fun _ => .idle

inductive Event (ι : Type) where
  | tick (n : ℕ)
  /-- `setMaxIdlePerHost` and `setMaxIdleAge` -/
  | configure (cap : ℕ) (ageMs : ℤ)
  | start (i : ι)
  /-- one round of `acquireLive`; `dead` is what `looksDead` finds -/
  | acquire (i : ι) (dead : Bool)
  | dial (i : ι) (stream : TcpStream)
  | dialFails (i : ι)
  /-- the writes, which succeed if `writes`, then `readResponse` and what follows; `expired` is
  whether the deadline has passed -/
  | exchange (i : ι) (writes expired : Bool)

/-- A new reader with the default limits, over a new `CountingStream`. -/
def reader (s : TcpStream) (writes : Bool) : BufferedReader where
  stream := { s with total := 0, accepts := writes }
  eof_rest := fun h => absurd h Bool.false_ne_true

/-- The writes and the read of one attempt. -/
def exchange (q : Request) (writes : Bool) (s : TcpStream) :
    EStateM.Result Fault BufferedReader Reply :=
  (do write q.message; readResponse q.head).run (reader s writes)

/-- `sawResponse`, where the attempt has failed: a first line was read. -/
def sawResponse (q : Request) (writes : Bool) (s : TcpStream) : Bool :=
  match (do write q.message; readLine).run (reader s writes) with
  | .ok line _ => line != []
  | .error _ _ => false

/-- The parse left the stream at a clean boundary, and the reader holds nothing back. -/
def clean (reply : Reply) (r : BufferedReader) : Bool :=
  reply.reusable && r.stream.total == reply.consumed

section Steps

variable [DecidableEq ι] (req : ι → Request)

def State.set (s : State ι) (i : ι) (c : Call) : State ι :=
  { s with calls := Function.update s.calls i c }

/-- The connection is used up, down to `stream`. -/
def State.read (s : State ι) (c : ℕ) (stream : TcpStream) : State ι :=
  { s with streams := Function.update s.streams c stream }

def step (s : State ι) : Event ι → Option (State ι)
  | .tick n => some { s with now := s.now + n }
  | .configure cap ageMs =>
    some { s with pool := { s.pool with maxIdlePerHost := cap, maxIdleAgeMs := ageMs } }
  | .start i =>
    match s.calls i with
    | .idle => some (s.set i .acquiring)
    | _ => none
  | .acquire i dead =>
    match s.calls i with
    | .acquiring =>
      let t := { s with pool := (s.pool.acquire (req i).key s.now).2 }
      match (s.pool.acquire (req i).key s.now).1 with
      | none => some (t.set i .dialling)
      | some c => some (t.set i (if dead then .acquiring else .holding c true))
    | _ => none
  | .dial i stream =>
    match s.calls i with
    | .dialling =>
      some { (s.read s.dialled stream).set i (.holding s.dialled false) with
        dialled := s.dialled + 1 }
    | _ => none
  | .dialFails i =>
    match s.calls i with
    | .dialling => some (s.set i .failed)
    | _ => none
  | .exchange i writes expired =>
    match s.calls i with
    | .holding c reused =>
      match exchange (req i) writes (s.streams c) with
      | .ok reply r =>
        let t := (s.read c r.stream).set i (.returned reply.resp)
        some (if clean reply r then { t with pool := s.pool.release (req i).key s.now c } else t)
      | .error e r =>
        if e = .waits then none
        else if !expired && reused && (req i).idempotent &&
            !sawResponse (req i) writes (s.streams c) then
          some ((s.read c r.stream).set i .dialling)
        else some ((s.read c r.stream).set i .failed)
    | _ => none

end Steps

/-! ### What a run leaves behind -/

/-- What the peer sends on the connection `c`, from first to last. -/
def sentOn (c : ℕ) (s : State ι) : Event ι → Bytes
  | .dial _ stream => if s.dialled = c then stream.rest else []
  | _ => []

/-- A response that a call has returned, and what it was to answer. -/
structure Answer where
  head : Bool
  reply : Reply
  deriving DecidableEq

/-- The responses that were read off the connection `c`. -/
def answered (req : ι → Request) (c : ℕ) (s : State ι) : Event ι → List Answer
  | .exchange i writes _ =>
    match s.calls i with
    | .holding d _ =>
      if d = c then
        match exchange (req i) writes (s.streams c) with
        | .ok reply _ => [⟨(req i).head, reply⟩]
        | .error _ _ => []
      else []
    | _ => []
  | _ => []

end Manwe.PooledRequest
