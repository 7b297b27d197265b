import Manwe.Wire.Mailbox

/-!
# The bounded channel

`BoundedChannel` makes a sender wait while its buffer is full. A parked sender's value is pulled
into the buffer when a receiver frees a slot, or handed straight to a receiver if the buffer is
empty, which is how a channel of capacity zero works; `close` fails the parked senders; a parked
sender that is cancelled or whose frame is destroyed leaves the queue with its value.

The receive side is that of `Mailbox`. The queue of senders lists the waiters, each with its call
and the value it carries. Whether the value of a call has gone into the channel is its
`SendCall.delivered`: the call returned true, or will when it is resumed.
-/

namespace Manwe.BoundedChannel

open Mailbox

variable {ι κ α : Type*}

/-- Where a `send` stands. -/
inductive SendPc
  | idle
  /-- the fast path found no room; `await_suspend` comes next -/
  | looked
  /-- there was still no room; the cancel callback is being armed -/
  | arming
  /-- suspended: queued, or the run of its proxy is in flight -/
  | parked
  /-- the coroutine runs again and `await_resume` comes next -/
  | resuming
  | returned (ok : Bool)
  | threw (e : Exn)
  | destroyed
  deriving DecidableEq

/-- A `send` with its waiter and the flags of its awaiter. -/
structure SendCall (α : Type*) where
  pc : SendPc := .idle
  /-- what the call was made with -/
  value : Option α := none
  ok : Bool := false
  queued : Bool := false
  earlyCancel : Bool := false
  cancelled : Bool := false
  /-- the cancel callback has been armed -/
  bound : Bool := false
  /-- a `sendFor` -/
  timed : Bool := false

/-- The value went into the channel: the call returned true, or will when it is resumed. -/
def SendCall.delivered (c : SendCall α) : Bool := match c.pc with
  | .returned ok => ok
  | .idle | .looked | .arming | .parked | .resuming | .threw _ | .destroyed => c.ok

/-- The fields under the channel's mutex, apart from the receivers, and the calls of `send`. -/
structure Core (κ : Type*) (α : Type*) where
  buffer : List α := []
  senders : List (κ × α) := []
  closed : Bool := false
  send : κ → SendCall α := fun _ => {}

inductive Send (κ : Type*) (α : Type*)
  /-- the fast path of `send` or `sendFor` -/
  | send (i : κ) (value : α) (timed : Bool)
  /-- first look of `await_suspend`; `core` as for a receiver -/
  | suspend (i : κ) (core : Option Bool)
  | retry (i : κ)
  | cancel (i : κ)
  | wake (i : κ)
  | resume (i : κ) (expired : Bool)
  | fail (i : κ)
  | destroy (i : κ)

/-- A sender's step: as a `Deal`, with the call that reached the channel in it, that is, whose
value was handed over, buffered or queued. -/
structure Sent (κ : Type*) (α : Type*) extends Deal (Core κ α) α where
  reaches : List (κ × α) := []

section Step

variable [DecidableEq κ]

def Core.set (c : Core κ α) (i : κ) (x : SendCall α) : Core κ α :=
  { c with send := Function.update c.send i x }

/-- `popSenderLocked()->takeOk()` -/
def Core.popSender (c : Core κ α) (i : κ) (ws : List (κ × α)) : Core κ α :=
  { c.set i { c.send i with ok := true, queued := false } with senders := ws }

/-- What a receiver gets: the front of the buffer, and then one parked sender may fill the freed
slot; or the value of a parked sender, if the buffer is empty. -/
def take (capacity : ℕ) (c : Core κ α) : Option (α × Core κ α × List α) :=
  match c.buffer, c.senders with
  | v :: rest, (i, x) :: ws =>
    -- a buffer overfilled by `pushFront` has no slot to spare yet
    if rest.length < capacity then
      some (v, { c.popSender i ws with buffer := rest ++ [x] }, [x])
    else some (v, { c with buffer := rest }, [])
  | v :: rest, [] => some (v, { c with buffer := rest }, [])
  | [], (i, x) :: ws => some (x, c.popSender i ws, [x])
  | [], [] => none

def close (c : Core κ α) : Core κ α := { c with
    closed := true
    senders := []
    send := fun j =>
      if j ∈ c.senders.map Prod.fst then { c.send j with queued := false, ok := false }
      else c.send j }

/-- The fast path of `send`. -/
def send (capacity : ℕ) (waiting : Bool) (c : Core κ α) (i : κ) (value : α) (timed : Bool) :
    Sent κ α :=
  let x : SendCall α := { c.send i with value := some value, timed := timed }
  if c.closed then { stock := c.set i { x with pc := .returned false } }
  else if waiting then
    { stock := c.set i { x with pc := .returned true }
      hand := some value, accepts := [value], reaches := [(i, value)] }
  else if c.buffer.length < capacity then
    { stock := { c.set i { x with pc := .returned true } with buffer := c.buffer ++ [value] }
      accepts := [value], reaches := [(i, value)] }
  else { stock := c.set i { x with pc := .looked } }

/-- One round of the loop in `await_suspend`. -/
def awaitSuspend (capacity : ℕ) (waiting : Bool) (c : Core κ α) (i : κ) (value : α)
    (core : Option Bool) (armed : Bool) : Sent κ α :=
  let x := c.send i
  -- the callback fired between its arming and this look
  if x.earlyCancel then { stock := c.set i { x with pc := .resuming, cancelled := true } }
  else if c.closed then { stock := c.set i { x with pc := .resuming, ok := false } }
  else if waiting then
    { stock := c.set i { x with pc := .resuming, ok := true }
      hand := some value, accepts := [value], reaches := [(i, value)] }
  else if c.buffer.length < capacity then
    { stock := { c.set i { x with pc := .resuming, ok := true } with
        buffer := c.buffer ++ [value] }
      accepts := [value], reaches := [(i, value)] }
  else if core = none ∨ armed then
    { stock := { c.set i { x with pc := .parked, queued := true } with
        senders := c.senders ++ [(i, value)] }
      reaches := [(i, value)] }
  else if core = some true then
    { stock := c.set i { x with pc := .resuming, cancelled := true } }
  -- the lock is released to arm the callback, so there is a second look
  else { stock := c.set i { x with pc := .arming, bound := true } }

/-- The waiter of `i`, which is in the queue once, is taken out. -/
def unlinkLocked (c : Core κ α) (i : κ) (x : SendCall α) : Core κ α :=
  { c.set i { x with queued := false } with senders := c.senders.filter (·.1 ≠ i) }

def cancelThunk (c : Core κ α) (i : κ) : Core κ α := let x := c.send i
  if x.queued then unlinkLocked c i { x with cancelled := true }
  -- not parked yet, or served already
  else c.set i { x with earlyCancel := true }

/-- `await_resume`, and the `catch` of `sendFor`. -/
def awaitResume (c : Core κ α) (i : κ) (expired : Bool) : Core κ α := let x := c.send i
  if x.cancelled then
    c.set i { x with pc := .threw (if x.timed && expired then .timeout else .cancelled) }
  else c.set i { x with pc := .returned x.ok }

/-- The frame of a parked sender is destroyed; a value that was taken stays taken. -/
def abandon (c : Core κ α) (i : κ) : Core κ α := let x := c.send i
  if x.queued then unlinkLocked c i { x with pc := .destroyed }
  else c.set i { x with pc := .destroyed }

/-- The steps of the senders. -/
def act (capacity : ℕ) (waiting : Bool) (c : Core κ α) : Send κ α → Option (Sent κ α)
  | .send i value timed =>
    match (c.send i).pc with
    | .idle => some (send capacity waiting c i value timed)
    | _ => none
  | .suspend i core =>
    match (c.send i).pc, (c.send i).value with
    | .looked, some value => some (awaitSuspend capacity waiting c i value core false)
    | _, _ => none
  | .retry i =>
    match (c.send i).pc, (c.send i).value with
    | .arming, some value => some (awaitSuspend capacity waiting c i value (some false) true)
    | _, _ => none
  | .cancel i =>
    if (c.send i).bound = true ∧
        ((c.send i).pc = .arming ∨ (c.send i).pc = .parked ∨ (c.send i).pc = .resuming) then
      some { stock := cancelThunk c i }
    else none
  | .wake i =>
    if (c.send i).pc = .parked ∧ (c.send i).queued = false then
      some { stock := c.set i { c.send i with pc := .resuming } }
    else none
  | .resume i expired =>
    if (c.send i).pc = .resuming then some { stock := awaitResume c i expired } else none
  | .fail i =>
    if (c.send i).pc = .looked ∨ (c.send i).pc = .arming then
      some { stock := c.set i { c.send i with pc := .threw .failed } }
    else none
  | .destroy i => if (c.send i).pc = .parked then some { stock := abandon c i } else none

/-- The class, apart from its receive side. -/
def side (capacity : ℕ) : Side (Core κ α) (Send κ α) α where
  take := take capacity
  pushFront v c := { c with buffer := v :: c.buffer }
  close := close
  closed := Core.closed
  buffer := Core.buffer
  act waiting c e := (act capacity waiting c e).map Sent.toDeal

end Step

abbrev State (ι : Type*) (κ : Type*) (α : Type*) := Mailbox.State (Core κ α) ι α

abbrev Event (ι : Type*) (κ : Type*) (α : Type*) := Mailbox.Event ι (Send κ α) α

def init : State ι κ α := { stock := {} }

end Manwe.BoundedChannel
