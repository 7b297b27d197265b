import Manwe.Soccer.WebSocket.Frames

/-!
# The reference decoder

What RFC 6455 makes of a sequence of frames, stated on its own: Ping and Pong frames are dropped
wherever they occur, a Text or Binary frame and the Continuation frames up to the first with FIN are
one message, and the connection ends **at the first frame that breaks a rule or closes it**. The
limits are the endpoint's: the size of a message, and 32 empty fragments in a row.
-/

namespace Manwe.WebSocket

/-- Text is the encoding of characters. -/
def IsUtf8 (bs : Bytes) : Prop := ∃ chars : List Char, bs = chars.flatMap String.utf8EncodeChar

instance (bs : Bytes) : Decidable (IsUtf8 bs) := decidable_of_iff _ (validUtf8Loop_iff le_rfl)

/-- A fragmented message of which something has arrived. -/
structure Fragments where
  type : WsMessageType
  payload : Bytes
  /-- empty fragments since the last one with a payload -/
  empties : ℕ
  deriving DecidableEq, Repr

namespace RawFrame

/-- Continuation, Text, Binary, Close, Ping and Pong. -/
abbrev Known (f : RawFrame) : Prop := f.opcode ∈ ([0, 1, 2, 8, 9, 10] : List (Fin 16))

abbrev Control (f : RawFrame) : Prop := 8 ≤ f.opcode

abbrev Continuation (f : RawFrame) : Prop := f.opcode = 0

/-- Text or Binary. -/
abbrev Begins (f : RawFrame) : Prop := f.opcode = 1 ∨ f.opcode = 2

end RawFrame

/-- The type of the message the frame belongs to. -/
def messageType (st : Option Fragments) (f : RawFrame) : WsMessageType := match st with
  | some p => p.type
  | none => if f.opcode = 1 then .text else .binary

/-- The message up to and with the frame. -/
def gathered (st : Option Fragments) (f : RawFrame) : Bytes := match st with
  | some p => p.payload ++ f.payload
  | none => f.payload

def empties (st : Option Fragments) : ℕ := match st with
  | some p => p.empties
  | none => 0

/-- The frame does not end the connection of an endpoint that has `st` of a message so far: no
reserved bit, the right mask bit, a known opcode other than Close, control frames short and whole,
no orphan continuation and no new message inside another, the message within its limit, a complete
text in UTF-8, and not the 33rd empty fragment in a row. -/
@[mk_iff]
structure Fine (isServer : Bool) (maxMessage : ℕ) (st : Option Fragments) (f : RawFrame) :
    Prop where
  rsv : f.rsv = 0
  mask : f.mask.isSome = isServer
  known : f.Known
  notClose : f.opcode ≠ 8
  control : f.Control → f.payload.length ≤ 125 ∧ f.fin = true
  orphan : f.Continuation → st ≠ none
  nested : f.Begins → st = none
  size : ¬ f.Control → maxMessage ≠ 0 → (gathered st f).length ≤ maxMessage
  utf8 : ¬ f.Control → f.fin = true → messageType st f = .text → IsUtf8 (gathered st f)
  empty : f.Continuation → f.payload = [] → f.fin = false → empties st < 32

instance (isServer : Bool) (maxMessage : ℕ) (st : Option Fragments) (f : RawFrame) :
    Decidable (Fine isServer maxMessage st f) :=
  decidable_of_iff _ (fine_iff isServer maxMessage st f).symm

/-- What a frame leads to: the message in progress, and the one it completes. -/
def advance (st : Option Fragments) (f : RawFrame) : Option Fragments × Option WsMessage :=
  if f.Control then (st, none)
  else if f.fin then (none, some ⟨messageType st f, gathered st f⟩)
  else
    (some ⟨messageType st f, gathered st f,
      if f.Continuation ∧ f.payload = [] then empties st + 1 else 0⟩, none)

variable {f : RawFrame} {st : Option Fragments}

theorem advance_control (h : f.Control) : advance st f = (st, none) := if_pos h

theorem advance_fin (h : ¬ f.Control) (hfin : f.fin = true) :
    advance st f = (none, some ⟨messageType st f, gathered st f⟩) := by
  rw [advance, if_neg h, if_pos hfin]

theorem advance_more (st : Option Fragments) (h : ¬ f.Control) (hfin : f.fin ≠ true) :
    advance st f = (some ⟨messageType st f, gathered st f,
      if f.Continuation ∧ f.payload = [] then empties st + 1 else 0⟩, none) := by
  rw [advance, if_neg h, if_neg hfin]

/-- What the decoder makes of a sequence of frames. -/
structure Decoded where
  messages : List WsMessage
  /-- the connection has ended at one of the frames -/
  failed : Bool
  deriving DecidableEq, Repr

/-- **The reference decoder**, from the message in progress on. -/
def decode (isServer : Bool) (maxMessage : ℕ) : Option Fragments → List RawFrame → Decoded
  | _, [] => ⟨[], false⟩
  | st, f :: fs =>
    if Fine isServer maxMessage st f then
      let d := decode isServer maxMessage (advance st f).1 fs
      ⟨(advance st f).2.toList ++ d.messages, d.failed⟩
    else ⟨[], true⟩

end Manwe.WebSocket
