import Manwe.Soccer.BufferedReader
import Manwe.Transition.Tally

/-!
# Moving the session's output onto the wire

`flushSession` pulls a chunk out of the nghttp2 session under `sessionMu`, writes it with no lock
held and looks again; one coroutine at a time is the writer (`writing`), and a caller that finds one
active returns at once. The session is a queue of serialised frames, filled by whatever is submitted
under `sessionMu`; `nghttp2_session_mem_send` takes the first one.

The steps are the sections under `sessionMu`, each portion that the transport takes, and what
happens when `beginWrite` throws or the write fails or is cancelled: the exception is caught,
`writing` is cleared in a section of its own, and the caller deals with the rest. `request`, its
deadline, the task of `close` and the server's driver shut the transport down; **a route handler's
task and the client's driver do not**.
-/

namespace Manwe.Http2.Flush

/-- A serialised frame, as `nghttp2_session_mem_send` returns it. -/
structure Frame where
  bytes : Bytes
  nonempty : bytes ≠ []

def kFlushChunkBytes : ℕ := 64 * 1024

/-- The inner loop: frames are taken while the chunk is short. -/
def pullFrames (chunk : Bytes) : List Frame → Bytes × List Frame
  | [] => (chunk, [])
  | f :: fs =>
    if chunk.length < kFlushChunkBytes then pullFrames (chunk ++ f.bytes) fs else (chunk, f :: fs)

/-- Who calls `flushSession`. -/
inductive Caller where
  | request
  | deadline
  | closer
  | driver
  | serverDriver
  | handler
  deriving DecidableEq

/-- The caller shuts the transport down when the flush has thrown. -/
def Caller.shutsDown : Caller → Bool
  | .request => true
  | .deadline => true
  | .closer => true
  | .driver => false
  | .serverDriver => true
  | .handler => false

/-- Where a call of `flushSession` stands. -/
inductive Phase where
  | idle
  /-- before a section under `sessionMu` -/
  | pulling (who : Caller) (first : Bool)
  /-- the transport has not taken `left` of the chunk -/
  | writing (who : Caller) (left : Bytes)
  /-- the exception is caught, `writing` not yet cleared -/
  | failed (who : Caller)
  /-- the exception has left `flushSession` -/
  | threw (who : Caller)
  | ended
  deriving DecidableEq

structure State (ι : Type) where
  /-- what the session has to send -/
  out : List Frame := []
  writing : Bool := false
  /-- the transport takes no more bytes -/
  down : Bool := false
  /-- what the transport has taken -/
  wire : Bytes := []
  calls : ι → Phase := fun _ => .idle

inductive Event (ι : Type) where
  /-- a submission, or the answer to something received, under `sessionMu` -/
  | submit (f : Frame)
  | call (i : ι) (who : Caller)
  /-- the section under `sessionMu` -/
  | pull (i : ι)
  /-- the transport takes `n` bytes -/
  | write (i : ι) (n : ℕ)
  | wrote (i : ι)
  /-- `beginWrite` throws, or the write fails or is cancelled -/
  | fail (i : ι)
  /-- `writing` is cleared in the handler of the exception -/
  | clear (i : ι)
  /-- the caller deals with the exception -/
  | unwind (i : ι)
  /-- the transport is shut down, or the peer is gone -/
  | shutdown

variable {ι : Type} [DecidableEq ι]

def State.put (s : State ι) (i : ι) (p : Phase) : State ι :=
  { s with calls := Function.update s.calls i p }

/-- The section under `sessionMu`, past the check for an active writer. -/
def State.pull (s : State ι) (i : ι) (who : Caller) : State ι := let pulled := pullFrames [] s.out
  if pulled.1 = [] then { s.put i .ended with writing := false }
  else { s.put i (.writing who pulled.1) with writing := true, out := pulled.2 }

def step (s : State ι) : Event ι → Option (State ι)
  | .submit f => some { s with out := s.out ++ [f] }
  | .call i who =>
    match s.calls i with
    | .idle => some (s.put i (.pulling who true))
    | _ => none
  | .pull i =>
    match s.calls i with
    | .pulling who first =>
      if first && s.writing then some (s.put i .ended) else some (s.pull i who)
    | _ => none
  | .write i n =>
    match s.calls i with
    | .writing who left =>
      if s.down then none
      else some { s.put i (.writing who (left.drop n)) with wire := s.wire ++ left.take n }
    | _ => none
  | .wrote i =>
    match s.calls i with
    | .writing who [] => some (s.put i (.pulling who false))
    | _ => none
  | .fail i =>
    match s.calls i with
    | .writing who _ => some (s.put i (.failed who))
    | _ => none
  | .clear i =>
    match s.calls i with
    | .failed who => some { s.put i (.threw who) with writing := false }
    | _ => none
  | .unwind i =>
    match s.calls i with
    | .threw who => some { s.put i .ended with down := s.down || who.shutsDown }
    | _ => none
  | .shutdown => some { s with down := true }

/-! ### What a run leaves behind -/

/-- The bytes that the step adds to the session's output. -/
@[simp] def submitted (_ : State ι) : Event ι → Bytes
  | .submit f => f.bytes
  | _ => []

/-- The chunk that the step takes out of the session. -/
@[simp] def emitted (s : State ι) : Event ι → Bytes
  | .pull i =>
    match s.calls i with
    | .pulling _ first => if first && s.writing then [] else (pullFrames [] s.out).1
    | _ => []
  | _ => []

/-- The step ends a call of `flushSession` that has not thrown. -/
def returns (s : State ι) : Event ι → Bool
  | .pull i =>
    match s.calls i with
    | .pulling _ first => first && s.writing || s.out.isEmpty
    | _ => false
  | _ => false

end Manwe.Http2.Flush
