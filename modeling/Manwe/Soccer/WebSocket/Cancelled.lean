import Manwe.Soccer.WebSocket.Receive
import Manwe.Transition.Run

/-!
# Receive calls that are cancelled

A sequence of `receive()` calls on one connection, each of which may be cancelled in any read of the
socket. What a cancelled call has taken off the wire is gone with its coroutine frame, and the
connection **stays open**: `receiveImpl` closes it for a `WsException` or a `SocketException`, but a
`CancelledException` is neither. So a call that is cancelled inside a frame leaves the next one to
take the middle of that frame for a header (`cancelled_smuggled`).

Where a cancelled call has taken nothing but whole Ping and Pong frames, the connection is where the
reference decoder is, and later calls return its remaining messages.
-/

namespace Manwe.WebSocket

open Http RawFrame List

/-! ### Frames can be told apart -/

/-- A connection at which the bytes `bs` have arrived. -/
def arrived (bs : Bytes) : Impl where
  stream := { rest := bs }
  serverSide := false

/-- What the environment has in store for one call. -/
structure Env where
  cuts : List ℕ := []
  cancels : List Bool := []
  clock : List ℕ := []
  masks : List MaskKey := []
  patience : ℕ := 0
  accepts : Bool := true

/-- The connection at the beginning of a call. -/
def Impl.facing (im : Impl) (env : Env) : Impl := { im with
    stream := { im.stream with cuts := env.cuts, accepts := env.accepts }
    cancels := env.cancels
    clock := env.clock
    masks := env.masks
    patience := env.patience }

/-- The connection after a call, unless the call still waits for the peer. -/
def ended : EStateM.Result WsFault Impl WsMessage → Option Impl
  | .ok _ im => some im
  | .error e im => if e = .io .waits then none else some im

/-- The message a call returns. -/
def returned (im : Impl) (env : Env) : List WsMessage := match receiveImpl.run (im.facing env) with
  | .ok m _ => [m]
  | .error _ _ => []

variable {isServer : Bool} {maxMessage : ℕ}

/-- The frame of a binary message whose payload looks like a frame. -/
def framed : RawFrame := ⟨true, 0, 2, none, [0x82, 1, 0x41], by decide⟩

end Manwe.WebSocket
