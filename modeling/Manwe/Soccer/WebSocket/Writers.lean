import Manwe.Soccer.WebSocket
import Manwe.Transition.Run

/-!
# The writers of a WebSocket connection

Any number of operations of one connection (`sendText`, `sendBinary`, `sendFrame`, `close` and the
`receive` that answers Pings and Closes and fails the connection) put frames on the wire through
`sendLocked`. Each party's accesses to the shared state are steps of their own: the load or exchange
of `open`, taking `writeMu`, the look at `writeBroken`, and every portion of a frame that the socket
takes. `writeMu` is a lock that one party has at a time; who gets it next is left open, and so is
whether a wait for it is cancelled or its coroutine destroyed.

What `receive` reads is up to the environment here: any frame may come at any time.
-/

namespace Manwe.WebSocket.Writers

variable {ι : Type}

/-- A frame that an operation wants to send. -/
structure Outgoing where
  opcode : UInt8
  payload : Bytes
  isFinal : Bool
  deriving DecidableEq

def Outgoing.isClose (f : Outgoing) : Bool := f.opcode == opClose

/-- Text, Binary or Continuation. -/
def Outgoing.isData (f : Outgoing) : Bool :=
  f.opcode == opText || f.opcode == opBinary || f.opcode == opContinuation

/-- Where an operation stands; `again` is whether a `receive` goes on reading afterwards. -/
inductive Phase where
  | idle
  /-- a `receive` that waits for a frame -/
  | reading
  /-- about to take the lock, or waiting for it -/
  | wants (frame : Outgoing) (again : Bool)
  /-- has the lock, before the look at `writeBroken` -/
  | locked (frame : Outgoing) (again : Bool)
  /-- the socket has not taken `left` yet -/
  | writing (left : Bytes) (again : Bool)
  /-- `writeBroken` is set, and `open` not yet cleared -/
  | failing
  | ended
  deriving DecidableEq

structure State (ι : Type) where
  isOpen : Bool := true
  writeBroken : Bool := false
  writeMu : Option ι := none
  /-- what was put on the wire -/
  wire : Bytes := []
  ops : ι → Phase := fun _ => .idle

inductive Event (ι : Type) where
  /-- `sendDataImpl`: the check of `open` -/
  | send (i : ι) (kind : FragmentKind) (payload : Bytes) (isFinal : Bool)
  /-- `closeImpl`: the exchange of `open` -/
  | close (i : ι) (code : ℕ) (reason : Bytes)
  /-- `receiveImpl`: the check of `open` -/
  | receive (i : ι)
  /-- a Ping that is answered -/
  | ping (i : ι) (payload : Bytes)
  /-- a Close that is echoed: the exchange of `open` -/
  | peerCloses (i : ι) (payload : Bytes)
  /-- `failConnection`: the exchange of `open` -/
  | violation (i : ι) (code : ℕ)
  /-- the read fails -/
  | readFails (i : ι)
  /-- a message is returned, or the read is cancelled -/
  | leave (i : ι)
  | lock (i : ι)
  /-- the wait for the lock is cancelled or destroyed -/
  | abandon (i : ι)
  /-- the look at `writeBroken`; the frame is masked with `key` if need be -/
  | start (i : ι) (key : MaskKey)
  /-- the socket takes `n` bytes -/
  | write (i : ι) (n : ℕ)
  | finish (i : ι)
  /-- the write fails or is cancelled -/
  | fail (i : ι)
  /-- `open` is cleared, the exception leaves and the guard unlocks -/
  | unwind (i : ι)
  /-- the handle is destroyed -/
  | drop

section Steps

variable [DecidableEq ι]

def State.put (s : State ι) (i : ι) (p : Phase) : State ι :=
  { s with ops := Function.update s.ops i p }

/-- `if (open.exchange(false))` send the frame. -/
def State.exchange (s : State ι) (i : ι) (f : Outgoing) : State ι :=
  { s.put i (if s.isOpen then .wants f false else .ended) with isOpen := false }

/-- The bytes of a frame as the endpoint writes it. -/
def bytesOf (serverSide : Bool) (f : Outgoing) (key : MaskKey) : Bytes :=
  frameBytes f.opcode f.payload (if serverSide then none else some key) f.isFinal

def step (serverSide : Bool) (s : State ι) : Event ι → Option (State ι)
  | .send i kind payload isFinal =>
    match s.ops i with
    | .idle =>
      some (s.put i (if s.isOpen then .wants ⟨kind.opcode, payload, isFinal⟩ false else .ended))
    | _ => none
  | .close i code reason =>
    match s.ops i with
    | .idle => some (s.exchange i ⟨opClose, closeBody code reason, true⟩)
    | _ => none
  | .receive i =>
    match s.ops i with
    | .idle => some (s.put i (if s.isOpen then .reading else .ended))
    | _ => none
  | .ping i payload =>
    match s.ops i with
    | .reading => some (s.put i (.wants ⟨opPong, payload, true⟩ true))
    | _ => none
  | .peerCloses i payload =>
    match s.ops i with
    | .reading => some (s.exchange i ⟨opClose, payload, true⟩)
    | _ => none
  | .violation i code =>
    match s.ops i with
    | .reading => some (s.exchange i ⟨opClose, closeBody code [], true⟩)
    | _ => none
  | .readFails i =>
    match s.ops i with
    | .reading => some { s.put i .ended with isOpen := false }
    | _ => none
  | .leave i =>
    match s.ops i with
    | .reading => some (s.put i .ended)
    | _ => none
  | .lock i =>
    match s.ops i, s.writeMu with
    | .wants f again, none => some { s.put i (.locked f again) with writeMu := some i }
    | _, _ => none
  | .abandon i =>
    match s.ops i with
    | .wants _ _ => some (s.put i .ended)
    | _ => none
  | .start i key =>
    match s.ops i with
    | .locked f again =>
      if s.writeBroken then some { s.put i .ended with writeMu := none }
      else some (s.put i (.writing (bytesOf serverSide f key) again))
    | _ => none
  | .write i n =>
    match s.ops i with
    | .writing left again =>
      some { s.put i (.writing (left.drop n) again) with wire := s.wire ++ left.take n }
    | _ => none
  | .finish i =>
    match s.ops i with
    | .writing [] again =>
      some { s.put i (if again then .reading else .ended) with writeMu := none }
    | _ => none
  | .fail i =>
    match s.ops i with
    | .writing _ _ => some { s.put i .failing with writeBroken := true }
    | _ => none
  | .unwind i =>
    match s.ops i with
    | .failing => some { s.put i .ended with writeMu := none, isOpen := false }
    | _ => none
  | .drop => some { s with isOpen := false }

end Steps

/-! ### What a run leaves behind -/

/-- The frame whose writing is started by the step, and its bytes. -/
@[simp] def started (serverSide : Bool) (s : State ι) : Event ι → List (Outgoing × Bytes)
  | .start i key =>
    match s.ops i with
    | .locked f _ => if s.writeBroken then [] else [(f, bytesOf serverSide f key)]
    | _ => []
  | _ => []

end Manwe.WebSocket.Writers
