import Manwe.Soccer.WebSocket.Utf8

/-!
# WebSocket connections

`WsConnection` (`WebSocket.cpp`) after its opening handshake: frames are read by `readFrame` and put
together to messages by `receiveImpl`, which also answers Ping and Close frames and fails the
connection on a violation. This is the endpoint of one `receive()` at a time with the write lock
free; what concurrent senders do to the output is the matter of `WebSocket.Writers`.

**Every suspension point of a read may be cancelled.** The environment decides, read by read,
whether the socket delivers or the await ends in a `CancelledException`, and how many bytes a read
brings; it also gives the clock readings and the random masks. A deadline that expires shuts the
socket down, and is met here as the end of the stream.
-/

namespace Manwe.WebSocket

open Http

/-- What an operation ends in other than a result. -/
inductive WsFault where
  /-- `WsException` -/
  | ws (what : String)
  /-- `WsFrameError`, with the close code -/
  | frame (code : ℕ) (what : String)
  /-- what the socket ends in: a `SocketException`, or waiting for the peer -/
  | io (fault : Fault)
  | cancelled
  deriving DecidableEq, Repr

/-- `WsMessageType`. -/
inductive WsMessageType where
  | text
  | binary
  deriving DecidableEq, Repr

structure WsMessage where
  type : WsMessageType
  payload : Bytes
  deriving DecidableEq, Repr

/-- The bytes of a masking key. -/
structure MaskKey where
  b0 : UInt8
  b1 : UInt8
  b2 : UInt8
  b3 : UInt8
  deriving DecidableEq, Repr

/-- The limits of `WsOptions` that a connection reads; zero is no limit. -/
structure Limits where
  maxMessageBytes : ℕ := 16 * 1024 * 1024
  maxPingsPerSecond : ℕ := 50
  deriving DecidableEq, Repr

/-- `WsConnection::Impl`, and what the environment has in store for it. -/
structure Impl where
  stream : TcpStream
  /-- what the handshake has read too much, from `preOffset` on -/
  preBuf : Bytes := []
  serverSide : Bool
  isOpen : Bool := true
  writeBroken : Bool := false
  opts : Limits := {}
  /-- in nanoseconds -/
  pingWindowStart : ℕ := 0
  pingsInWindow : ℕ := 0
  /-- for each coming socket read: is it cancelled? -/
  cancels : List Bool := []
  /-- the coming readings of the clock -/
  clock : List ℕ := []
  /-- the coming random masks -/
  masks : List MaskKey := []
  /-- how many reads `failConnection` makes before its time is up -/
  patience : ℕ := 0
  deriving DecidableEq

/-- A coroutine of the connection. -/
abbrev Prog := EStateM WsFault Impl

/-- The bytes no frame has been read from yet. -/
def Impl.pending (im : Impl) : Bytes := im.preBuf ++ im.stream.rest

/-! ### Reading frames -/

/-- `co_await stream.read(...)` of at most `n` bytes. -/
def read (n : ℕ) : Prog Bytes := fun im =>
  let im' := { im with cancels := im.cancels.tail }
  if im.cancels.headD false then .error .cancelled im'
  else match im.stream.read n with
    | .ok bs stream => .ok bs { im' with stream }
    | .error e stream => .error (.io e) { im' with stream }

/-- The loop of `exactRead`; a round adds a byte at least, so `n` rounds fill the buffer. -/
def exactReadLoop (n : ℕ) : ℕ → Bytes → Prog Bytes
  | 0, buf => return buf
  | fuel + 1, buf => do
    if buf.length < n then
      let im ← get
      if im.preBuf ≠ [] then
        let taken := im.preBuf.take (n - buf.length)
        set { im with preBuf := im.preBuf.drop taken.length }
        exactReadLoop n fuel (buf ++ taken)
      else
        let got ← read (n - buf.length)
        if got = [] then throw (.ws "connection closed mid-read")
        else exactReadLoop n fuel (buf ++ got)
    else return buf

/-- `exactRead`. -/
def exactRead (n : ℕ) : Prog Bytes := exactReadLoop n n []

structure WsFrame where
  opcode : UInt8
  fin : Bool
  payload : Bytes
  deriving DecidableEq, Repr

/-- `kMaxControlPayload`. -/
def maxControlPayload : ℕ := 125

/-- `kReadChunk`. -/
def readChunk : ℕ := 64 * 1024

/-- Bytes as a number, the most significant first. -/
def bigEndian (bs : Bytes) : ℕ := bs.foldl (fun n b => n * 256 + b.toNat) 0

/-- The payload length, with its extension if the seven bits call for one. -/
def readLength (len : ℕ) : Prog ℕ := if len = 126 then do
    let plen := bigEndian (← exactRead 2)
    if plen < 126 then throw (.frame 1002 "non-minimal payload length encoding") else return plen
  else if len = 127 then do
    let plen := bigEndian (← exactRead 8)
    if plen ≥ 2 ^ 63 ∨ plen ≤ 0xFFFF then throw (.frame 1002 "invalid 64-bit payload length")
    else return plen
  else return len

/-- The loop over the payload, which grows as the bytes arrive. -/
def readPayload (total : ℕ) : ℕ → Bytes → Prog Bytes
  | 0, payload => return payload
  | fuel + 1, payload => do
    if payload.length < total then
      let piece ← exactRead (min readChunk (total - payload.length))
      readPayload total fuel (payload ++ piece)
    else return payload

/-- `mask[i & 3]`. -/
def MaskKey.byte (key : MaskKey) (i : ℕ) : UInt8 := match i % 4 with
  | 0 => key.b0
  | 1 => key.b1
  | 2 => key.b2
  | _ => key.b3

/-- The masked, or unmasked, payload. -/
def applyMask (key : Option MaskKey) (payload : Bytes) : Bytes := match key with
  | none => payload
  | some key => payload.mapIdx fun i b => b ^^^ key.byte i

/-- The four bytes of the mask, if there is one. -/
def readMask (masked : Bool) : Prog (Option MaskKey) := if masked then do
    match ← exactRead 4 with
    | [b0, b1, b2, b3] => return some ⟨b0, b1, b2, b3⟩
    | _ => return none
  else return none

/-- The checks on the length of a frame, before its payload is read. -/
def checkLength (maxMessage assembledBytes : ℕ) (opcode : UInt8) (fin : Bool) (plen : ℕ) :
    Except WsFault Unit :=
  if opcode &&& 0x08 ≠ 0 then
    if plen > maxControlPayload then
      .error (.frame 1002 "control frame payload exceeds 125 bytes")
    else if !fin then .error (.frame 1002 "fragmented control frame")
    else .ok ()
  else if maxMessage ≠ 0 ∧ (assembledBytes > maxMessage ∨ plen > maxMessage - assembledBytes) then
    .error (.frame 1009 "data frame payload exceeds the message size cap")
  else .ok ()

/-- `readFrame` from the moment it has the first two bytes. -/
def readRest (isServer : Bool) (maxMessage assembledBytes : ℕ) (b0 b1 : UInt8) : Prog WsFrame := do
  let fin := b0 &&& 0x80 != 0
  let opcode := b0 &&& 0x0F
  let masked := b1 &&& 0x80 != 0
  if b0 &&& 0x70 != 0 then throw (.frame 1002 "RSV bits set; no extensions negotiated")
  else if masked != isServer then
    throw (.frame 1002 (if isServer then "protocol violation: unmasked frame received from client"
      else "protocol violation: masked frame received from server"))
  else
    let plen ← readLength (b1 &&& 0x7F).toNat
    MonadExcept.ofExcept (checkLength maxMessage assembledBytes opcode fin plen)
    let key ← readMask masked
    let payload ← readPayload plen plen []
    return ⟨opcode, fin, applyMask key payload⟩

/-- `readFrame`. -/
def readFrame (isServer : Bool) (maxMessage assembledBytes : ℕ) : Prog WsFrame := do
  let first ← exactRead 1
  let second ← exactRead 1
  readRest isServer maxMessage assembledBytes (first.headD 0) (second.headD 0)

/-! ### Writing frames -/

/-- `n` in `k` bytes, the most significant first. -/
def beBytes : ℕ → ℕ → Bytes
  | 0, _ => []
  | k + 1, n => UInt8.ofNat (n / 256 ^ k % 256) :: beBytes k n

/-- The bytes `writeFrame` writes. -/
def frameBytes (opcode : UInt8) (payload : Bytes) (mask : Option MaskKey) (isFinal : Bool) :
    Bytes :=
  let plen := payload.length
  let maskBit : UInt8 := if mask.isSome then 0x80 else 0
  ((if isFinal then 0x80 else 0) ||| (opcode &&& 0x0F)) ::
    ((if plen < 126 then [maskBit ||| UInt8.ofNat plen]
      else if plen ≤ 0xFFFF then (maskBit ||| 126) :: beBytes 2 plen
      else (maskBit ||| 127) :: beBytes 8 plen) ++
    (match mask with
      | none => []
      | some key => [key.b0, key.b1, key.b2, key.b3]) ++
    applyMask mask payload)

/-- `writeFrame`. -/
def writeFrame (opcode : UInt8) (payload : Bytes) (isFinal : Bool) : Prog Unit := fun im =>
  let mask := if im.serverSide then none else some (im.masks.headD ⟨0, 0, 0, 0⟩)
  let im' := { im with masks := im.masks.tail }
  match im.stream.write (frameBytes opcode payload mask isFinal) with
  | .ok _ stream => .ok () { im' with stream }
  | .error e stream => .error (.io e) { im' with stream }

/-- `sendLocked`, where the lock is free. -/
def sendLocked (opcode : UInt8) (payload : Bytes) (isFinal : Bool) : Prog Unit := do
  if (← get).writeBroken then throw (.ws "WebSocket connection broken by a failed write")
  else
    tryCatch (writeFrame opcode payload isFinal) fun e => do
      modify fun im => { im with writeBroken := true, isOpen := false }
      throw e

/-- `kOpContinuation` and the others. -/
def opContinuation : UInt8 := 0
def opText : UInt8 := 1
def opBinary : UInt8 := 2
def opClose : UInt8 := 8
def opPing : UInt8 := 9
def opPong : UInt8 := 10

/-- How much of a reason fits: up to `cut` bytes, ending on a code point boundary. -/
def reasonCut (reason : Bytes) : ℕ → ℕ
  | 0 => 0
  | cut + 1 => if reason.getD (cut + 1) 0 &&& 0xC0 = 0x80 then reasonCut reason cut else cut + 1

/-- `closeBody`. -/
def closeBody (code : ℕ) (reason : Bytes) : Bytes :=
  beBytes 2 code ++ (if reason.length > 123 then reason.take (reasonCut reason 123) else reason)

/-! ### Failing the connection -/

/-- The reads after a Close was sent, up to the peer's end of file; how many there is time for is
`rounds`. A read that would wait is given up when the time is up. -/
def drain : ℕ → Prog Unit
  | 0 => return ()
  | rounds + 1 =>
    tryCatch (do
        let sink ← read 512
        if sink = [] then return () else drain rounds)
      fun
        | .io _ => return ()
        | e => throw e

/-- Did it go through? Whatever it throws is swallowed. -/
def attempt (m : Prog Unit) : Prog Bool := tryCatch (do m; return true) fun _ => return false

/-- The first half of `failConnection`: mark the connection closed and say so to the peer. -/
def announceFailure (code : ℕ) : Prog Unit := do
  let im ← get
  if im.isOpen then
    set { im with isOpen := false }
    if ← attempt (sendLocked opClose (closeBody code []) true) then drain im.patience
    else return ()
  else return ()

/-- `failConnection`. -/
def failConnection {α : Type} (code : ℕ) (what : String) : Prog α := do
  announceFailure code
  throw (.ws what)

/-! ### Receiving messages -/

/-- The message that is being put together. -/
structure Assembly where
  assembling : Bool := false
  assemblyType : WsMessageType := .text
  assemblyBuf : Bytes := []
  emptyFragments : ℕ := 0
  deriving DecidableEq, Repr

/-- `kMaxEmptyFragments`. -/
def maxEmptyFragments : ℕ := 32

/-- `readFrame` with the handlers of `receiveImpl`. -/
def nextFrame (a : Assembly) : Prog WsFrame := do
  let im ← get
  tryCatch (readFrame im.serverSide im.opts.maxMessageBytes
      (if a.assembling then a.assemblyBuf.length else 0))
    fun
      | .frame code what => failConnection code what
      | .ws what => do
        modify fun im => { im with isOpen := false }
        throw (.ws what)
      | .io .waits => throw (.io .waits)
      | .io e => do
        modify fun im => { im with isOpen := false }
        throw (.io e)
      | .cancelled => throw .cancelled

/-- A complete message, unless it is text and not UTF-8. -/
def deliver (type : WsMessageType) (payload : Bytes) : Prog WsMessage := do
  if type = .text ∧ !validUtf8 payload then failConnection 1007 "invalid UTF-8 in text message"
  else return ⟨type, payload⟩

/-- `kOpText` or `kOpBinary`. -/
def dataType (opcode : UInt8) : WsMessageType := if opcode = opText then .text else .binary

/-- A Text or Binary frame: the message, or the start of one. -/
def onData (a : Assembly) (f : WsFrame) : Prog (WsMessage ⊕ Assembly) := do
  if a.assembling then failConnection 1002 "new data frame mid-message"
  else if f.fin then return .inl (← deliver (dataType f.opcode) f.payload)
  else
    return .inr { a with
      assembling := true, assemblyType := dataType f.opcode, assemblyBuf := f.payload }

/-- A Continuation frame. -/
def onContinuation (maxMessage : ℕ) (a : Assembly) (f : WsFrame) : Prog (WsMessage ⊕ Assembly) := do
  let emptyFragments := if f.payload = [] ∧ !f.fin then a.emptyFragments + 1 else 0
  if !a.assembling then failConnection 1002 "orphan continuation frame"
  else if emptyFragments > maxEmptyFragments then
    failConnection 1008 "too many empty message fragments"
  else if maxMessage ≠ 0 ∧ a.assemblyBuf.length + f.payload.length > maxMessage then
    failConnection 1009 "multi-frame message exceeds the size cap"
  else
    let assemblyBuf := a.assemblyBuf ++ f.payload
    if f.fin then return .inl (← deliver a.assemblyType assemblyBuf)
    else return .inr { a with assemblyBuf, emptyFragments }

/-- The Pong budget: is this Ping answered? -/
def pingAnswered : Prog Bool := do
  let im ← get
  if im.opts.maxPingsPerSecond = 0 then return true
  else
    let now := im.clock.headD im.pingWindowStart
    let fresh := now - im.pingWindowStart ≥ 1000000000
    let pings := (if fresh then 0 else im.pingsInWindow) + 1
    set { im with
      clock := im.clock.tail
      pingWindowStart := if fresh then now else im.pingWindowStart
      pingsInWindow := pings }
    return pings ≤ im.opts.maxPingsPerSecond

/-- A Close payload that is empty, or a code that may be sent and a UTF-8 reason. -/
def closePayloadOk (payload : Bytes) : Bool := match payload with
  | [] => true
  | [_] => false
  | hi :: lo :: reason =>
    let code := hi.toNat * 256 + lo.toNat
    ((1000 ≤ code && code ≤ 1014 && code != 1004 && code != 1005 && code != 1006) ||
      (3000 ≤ code && code ≤ 4999)) && validUtf8 reason

/-- The echo of a Close frame; transport errors are swallowed. -/
def echoClose (payload : Bytes) : Prog Unit := do
  let im ← get
  if im.isOpen then
    set { im with isOpen := false }
    tryCatch (sendLocked opClose payload true) fun
      | .cancelled => throw .cancelled
      | _ => return ()
  else return ()

/-- A Close frame. -/
def onClose (f : WsFrame) : Prog (WsMessage ⊕ Assembly) := do
  if !closePayloadOk f.payload then failConnection 1002 "invalid Close frame payload"
  else
    echoClose f.payload
    throw (.ws "connection closed by peer")

/-- A Ping frame: a Pong with its payload, within the budget. -/
def onPing (f : WsFrame) : Prog Unit := do
  if ← pingAnswered then sendLocked opPong f.payload true else return ()

/-- What `receiveImpl` does with a frame. -/
def onFrame (a : Assembly) (f : WsFrame) : Prog (WsMessage ⊕ Assembly) := do
  if f.opcode = opText ∨ f.opcode = opBinary then onData a f
  else if f.opcode = opContinuation then onContinuation (← get).opts.maxMessageBytes a f
  else if f.opcode = opPing then
    onPing f
    return .inr a
  else if f.opcode = opPong then return .inr a
  else if f.opcode = opClose then onClose f
  else failConnection 1002 "unknown opcode"

/-- The loop of `receiveImpl`; a frame has two bytes at least. -/
def receiveLoop : ℕ → Assembly → Prog WsMessage
  | 0, _ => throw (.io .spent)
  | fuel + 1, a => do
    let f ← nextFrame a
    match ← onFrame a f with
    | .inl m => return m
    | .inr a => receiveLoop fuel a

/-- `receiveImpl`. -/
def receiveImpl : Prog WsMessage := do
  let im ← get
  if !im.isOpen then throw (.ws "receive on closed WsConnection")
  else receiveLoop (im.pending.length + 1) {}

/-! ### Sending -/

/-- `sendDataImpl`. -/
def sendDataImpl (opcode : UInt8) (payload : Bytes) (isFinal : Bool) : Prog Unit := do
  if !(← get).isOpen then throw (.ws "send on closed WsConnection")
  else sendLocked opcode payload isFinal

/-- `WsConnection::FragmentKind`. -/
inductive FragmentKind where
  | text
  | binary
  | continuation
  deriving DecidableEq, Repr

def FragmentKind.opcode : FragmentKind → UInt8
  | .text => opText
  | .binary => opBinary
  | .continuation => opContinuation

/-- `WsConnection::sendText`. -/
def sendText (payload : Bytes) : Prog Unit := sendDataImpl opText payload true

/-- `WsConnection::sendBinary`. -/
def sendBinary (payload : Bytes) : Prog Unit := sendDataImpl opBinary payload true

/-- `WsConnection::sendFrame`. -/
def sendFrame (kind : FragmentKind) (payload : Bytes) (isFinal : Bool) : Prog Unit :=
  sendDataImpl kind.opcode payload isFinal

end Manwe.WebSocket
