import Manwe.Transition.Run
import Manwe.Transition.Stash

/-!
# The receive side of a channel

`Channel` and `BoundedChannel` have the same receive side: a fast path that takes what is there,
an awaiter that looks again under the lock, arms its cancel callback, looks once more and parks;
senders put a value into the `slot` of the oldest parked receiver and wake it through a proxy; the
destructor of a receiver's frame puts a value that was handed over but never delivered back with
`pushFrontCore`. They differ in what can be taken and in what senders do. `Side` is that
difference: the fields under the channel's mutex other than the receivers, with the operations of
the class on them.

One step is one critical section on the channel's mutex or one run of a proxy. Which call moves,
when callbacks fire, which frames are destroyed and whether a deadline has expired are choices of
the environment. A call is never restarted: every `receive` is a new identifier.

`Lawful` is what a class has to promise about its operations; everything about the receive side is
proved from it.
-/

namespace Manwe.Mailbox

variable {σ ι α η : Type*}

/-- What a call can throw. -/
inductive Exn
  | cancelled
  | timeout
  /-- anything else, such as a failed allocation before the call has parked -/
  | failed
  deriving DecidableEq

/-- Where a `receive` stands. -/
inductive RecvPc (α : Type*)
  | idle
  /-- the fast path found nothing; `await_suspend` comes next -/
  | looked
  /-- there was still nothing; the cancel callback is being armed -/
  | arming
  /-- suspended: queued, or the run of its proxy is in flight -/
  | parked
  /-- the coroutine runs again and `await_resume` comes next -/
  | resuming
  /-- the destructor has taken `v` out of the slot and is about to put it back -/
  | putBack (v : α)
  | returned (r : Option α)
  | threw (e : Exn)
  | destroyed
  deriving DecidableEq

/-- A `receive` with its waiter and the flags of its awaiter. -/
structure RecvCall (α : Type*) where
  pc : RecvPc α := .idle
  slot : Option α := none
  queued : Bool := false
  earlyCancel : Bool := false
  cancelled : Bool := false
  /-- the cancel callback has been armed -/
  bound : Bool := false
  /-- a `receiveFor` -/
  timed : Bool := false

/-- The value a call has been given and not passed on. -/
def RecvCall.held (c : RecvCall α) : Option α := match c.pc with
  | .putBack v => some v
  | .returned r => r
  | .idle | .looked | .arming | .parked | .resuming | .threw _ | .destroyed => c.slot

/-- The outcome of a sender's step: what is left behind, the value handed to the oldest parked
receiver, and the values accepted. -/
structure Deal (σ : Type*) (α : Type*) where
  stock : σ
  hand : Option α := none
  accepts : List α := []

/-- **A channel class**, apart from its receivers. -/
structure Side (σ : Type*) (η : Type*) (α : Type*) where
  /-- what a receiver gets now, what is left, and the values accepted to make up for it -/
  take : σ → Option (α × σ × List α)
  pushFront : α → σ → σ
  close : σ → σ
  closed : σ → Bool
  buffer : σ → List α
  /-- a step of the senders, who see whether a receiver is parked -/
  act : Bool → σ → η → Option (Deal σ α)

structure State (σ : Type*) (ι : Type*) (α : Type*) where
  stock : σ
  receivers : List ι := []
  recv : ι → RecvCall α := fun _ => {}

inductive Event (ι : Type*) (η : Type*) (α : Type*)
  /-- the fast path of `receive` or `receiveFor` -/
  | receive (i : ι) (timed : Bool)
  /-- first look of `await_suspend`; `core` is the ambient cancellation context, if there is one,
  and whether cancellation has been requested on it -/
  | suspend (i : ι) (core : Option Bool)
  | retry (i : ι)
  | cancel (i : ι)
  | wake (i : ι)
  /-- `await_resume`; `expired` is what `receiveFor` finds out about its deadline -/
  | resume (i : ι) (expired : Bool)
  | fail (i : ι)
  | destroy (i : ι)
  | putBack (i : ι)
  | pushFront (v : α)
  | close
  | send (e : η)

/-- The next state, with the values accepted at the end and at the front, and what was given to
which call. -/
structure Act (σ : Type*) (ι : Type*) (α : Type*) where
  next : State σ ι α
  accepts : List α := []
  fronts : List α := []
  takes : List (ι × α) := []

section Step

variable [DecidableEq ι] (S : Side σ η α)

def State.set (s : State σ ι α) (i : ι) (c : RecvCall α) : State σ ι α :=
  { s with recv := Function.update s.recv i c }

/-- `v` goes into the slot of the oldest parked receiver, which leaves the queue. -/
def State.give (s : State σ ι α) (i : ι) (rest : List ι) (v : α) : State σ ι α :=
  { s.set i { s.recv i with slot := some v, queued := false } with receivers := rest }

/-- The state after `pushFrontCore`, and who got the value if somebody was parked. -/
def pushFrontCore (s : State σ ι α) (v : α) : State σ ι α × List (ι × α) := match s.receivers with
  | i :: rest =>
    if S.closed s.stock = false then (s.give i rest v, [(i, v)])
    -- after `close` the buffer is still drained by later receives
    else ({ s with stock := S.pushFront v s.stock }, [])
  | [] => ({ s with stock := S.pushFront v s.stock }, [])

def receive (s : State σ ι α) (i : ι) (timed : Bool) : Act σ ι α := let c := s.recv i
  match S.take s.stock with
  | some (v, st, acc) =>
    { next := { s.set i { c with pc := .returned (some v), timed := timed } with stock := st }
      accepts := acc, takes := [(i, v)] }
  | none =>
    { next := s.set i
        { c with pc := if S.closed s.stock then .returned none else .looked, timed := timed } }

/-- One round of the loop in `await_suspend`. -/
def awaitSuspend (s : State σ ι α) (i : ι) (core : Option Bool) (armed : Bool) : Act σ ι α :=
  let c := s.recv i
  -- the callback fired between its arming and this look
  if c.earlyCancel then { next := s.set i { c with pc := .resuming, cancelled := true } }
  else
    match S.take s.stock with
    | some (v, st, acc) =>
      { next := { s.set i { c with pc := .resuming, slot := some v } with stock := st }
        accepts := acc, takes := [(i, v)] }
    | none =>
      if S.closed s.stock then { next := s.set i { c with pc := .resuming } }
      else if core = none ∨ armed then
        { next := { s.set i { c with pc := .parked, queued := true } with
            receivers := s.receivers ++ [i] } }
      else if core = some true then
        { next := s.set i { c with pc := .resuming, cancelled := true } }
      -- the lock is released to arm the callback, so there is a second look
      else { next := s.set i { c with pc := .arming, bound := true } }

def unlinkLocked (s : State σ ι α) (i : ι) (c : RecvCall α) : State σ ι α :=
  { s.set i { c with queued := false } with receivers := s.receivers.erase i }

def cancelThunk (s : State σ ι α) (i : ι) : State σ ι α := let c := s.recv i
  if c.queued then unlinkLocked s i { c with cancelled := true }
  -- not parked yet, or served already: a value in the slot is delivered all the same
  else s.set i { c with earlyCancel := true }

/-- `await_resume`, and the `catch` of `receiveFor`. -/
def awaitResume (s : State σ ι α) (i : ι) (expired : Bool) : State σ ι α := let c := s.recv i
  if c.cancelled then
    s.set i { c with pc := .threw (if c.timed && expired then .timeout else .cancelled) }
  else s.set i { c with pc := .returned c.slot, slot := none }

/-- The locked section of the destructor of a receiver that has parked and not been resumed. -/
def destroy (s : State σ ι α) (i : ι) : State σ ι α := let c := s.recv i
  if c.queued then unlinkLocked s i { c with pc := .destroyed }
  else
    match c.slot with
    | some v => s.set i { c with pc := .putBack v, slot := none }
    | none => s.set i { c with pc := .destroyed }

def close (s : State σ ι α) : State σ ι α := if S.closed s.stock then s else
    { stock := S.close s.stock
      receivers := []
      recv := fun j => if j ∈ s.receivers then { s.recv j with queued := false } else s.recv j }

/-- The step of a sender, with the hand-over it may end in. -/
def deal (s : State σ ι α) (d : Deal σ α) : Act σ ι α := match d.hand, s.receivers with
  | some v, i :: rest =>
    { next := { s with stock := d.stock }.give i rest v, accepts := d.accepts, takes := [(i, v)] }
  | _, _ => { next := { s with stock := d.stock }, accepts := d.accepts }

/-- The steps of a channel. -/
def act (s : State σ ι α) : Event ι η α → Option (Act σ ι α)
  | .receive i timed =>
    match (s.recv i).pc with
    | .idle => some (receive S s i timed)
    | _ => none
  | .suspend i core =>
    match (s.recv i).pc with
    | .looked => some (awaitSuspend S s i core false)
    | _ => none
  | .retry i =>
    match (s.recv i).pc with
    | .arming => some (awaitSuspend S s i (some false) true)
    | _ => none
  | .cancel i =>
    if (s.recv i).bound then
      match (s.recv i).pc with
      | .arming | .parked | .resuming => some { next := cancelThunk s i }
      | _ => none
    else none
  | .wake i =>
    match (s.recv i).pc, (s.recv i).queued with
    | .parked, false => some { next := s.set i { s.recv i with pc := .resuming } }
    | _, _ => none
  | .resume i expired =>
    match (s.recv i).pc with
    | .resuming => some { next := awaitResume s i expired }
    | _ => none
  | .fail i =>
    match (s.recv i).pc with
    | .looked | .arming => some { next := s.set i { s.recv i with pc := .threw .failed } }
    | _ => none
  | .destroy i =>
    match (s.recv i).pc with
    | .parked => some { next := destroy s i }
    | _ => none
  | .putBack i =>
    match (s.recv i).pc with
    | .putBack v =>
      let r := pushFrontCore S (s.set i { s.recv i with pc := .destroyed }) v
      some { next := r.1, takes := r.2 }
    | _ => none
  | .pushFront v =>
    let r := pushFrontCore S s v
    some { next := r.1, fronts := [v], takes := r.2 }
  | .close => some { next := close S s }
  | .send e => (S.act (!s.receivers.isEmpty) s.stock e).map (deal s)

def step (s : State σ ι α) (e : Event ι η α) : Option (State σ ι α) := (act S s e).map Act.next

end Step

/-- The accepted values, and which call holds what. -/
def State.stash (S : Side σ η α) (s : State σ ι α) : Stash ι α :=
  ⟨S.buffer s.stock, fun i => (s.recv i).held⟩

/-- **What a class promises** about its operations, over the states `Ok` of its fields: the buffer
grows at the end by what is accepted and shrinks from the front, and a sender that finds a
receiver parked leaves nothing behind to be taken. -/
structure Lawful (S : Side σ η α) (Ok : σ → Prop) : Prop where
  take_none : ∀ {st}, Ok st → S.take st = none → S.buffer st = []
  take_some : ∀ {st v st' acc}, Ok st → S.take st = some (v, st', acc) →
    Ok st' ∧ S.buffer st ++ acc = v :: S.buffer st' ∧ S.closed st' = S.closed st
  pushFront : ∀ {st} v, Ok st →
    Ok (S.pushFront v st) ∧ S.buffer (S.pushFront v st) = v :: S.buffer st ∧
      S.closed (S.pushFront v st) = S.closed st
  close : ∀ {st}, Ok st → S.closed st = false → Ok (S.close st) ∧
    S.buffer (S.close st) = S.buffer st ∧ S.closed (S.close st) = true ∧
      (S.take st = none → S.take (S.close st) = none)
  act : ∀ {w st e d}, Ok st → (w = true → S.take st = none ∧ S.closed st = false) →
    S.act w st e = some d → Ok d.stock ∧ S.closed d.stock = S.closed st ∧
      (w = true → S.take d.stock = none) ∧
      match d.hand with
      | none => S.buffer d.stock = S.buffer st ++ d.accepts
      | some v => w = true ∧ d.accepts = [v]

end Manwe.Mailbox
