import Manwe.Wire.Mailbox.Steps

/-!
# Selecting from several channels

`channelSelect` starts one pull per channel. Each pull receives from its channel and then goes
through three sections: it **decides** the select if nobody has (unless it found its channel
closed and drained while others may still deliver), it stops the other pulls if it won or puts a
value back if it lost with one, and it **finishes**; the last to finish publishes and wakes the
caller. If a pull cannot be started, `failSelect` decides in its place and accounts for the pulls
that never ran.

The channels are those of `Mailbox`, of either class, in any state and shared with anybody: a step
of the environment is a step of one channel by a call that is not a pull's. The receive of a pull
is a receive like any other, run in the scope of `st->stop`. What the select adds — the fields of
`SelectState`, the pulls and the caller with its `WhenAnyAwaiter` — is modelled here, one step for
each locked section, each `request_stop` and each run of the caller's proxy.
-/

namespace Manwe.Select

open Mailbox

variable {σ ι α η γ : Type*}

/-- The receives of the select: `pull i` is the call that pull `i` makes. -/
structure Ids (ι : Type*) where
  pull : ℕ → ι
  owner : ι → Option ℕ
  owner_eq : ∀ {j i}, owner j = some i ↔ pull i = j

/-- Where a `selectPull` stands. -/
inductive PullPc (α : Type*)
  /-- not started -/
  | idle
  | receiving
  /-- it has won; `request_stop` comes next -/
  | stopping
  /-- it has lost with a value; `pushFront` comes next -/
  | putting (v : α)
  /-- the final section comes next -/
  | finishing
  | finished

/-- Where `selectImpl` stands. -/
inductive CallerPc (α : Type*)
  | idle
  /-- `spawned` pulls have been started, the first for the channel at `start` -/
  | spawning (start spawned : ℕ)
  /-- the locked section of `failSelect` is over; `request_stop` comes next -/
  | failing
  /-- `await_ready` comes next -/
  | awaiting
  /-- nothing was published; `await_suspend` comes next -/
  | looked
  | parked
  /-- `await_resume` comes next -/
  | resuming
  | returned (index : ℕ) (value : Option α)
  | threw (e : Exn)
  /-- the frame was destroyed while it was parked; `request_stop` comes next -/
  | dropped
  | destroyed

structure SelectState (α : Type*) where
  decided : Bool := false
  published : Bool := false
  winningIndex : ℕ := 0
  live : ℕ := 0
  outstanding : ℕ := 0
  result : Option α := none
  exception : Option Exn := none
  /-- the caller's proxy is registered -/
  waiter : Bool := false
  stop : Bool := false

structure State (σ : Type*) (ι : Type*) (α : Type*) (γ : Type*) where
  chan : γ → Mailbox.State σ ι α
  st : SelectState α := {}
  caller : CallerPc α := .idle
  pull : ℕ → PullPc α := fun _ => .idle

inductive Event (ι : Type*) (α : Type*) (η : Type*) (γ : Type*)
  /-- a step of one channel: of the environment, or of the receive of a pull -/
  | chan (c : γ) (e : Mailbox.Event ι η α)
  /-- `selectImpl` up to the loop, with the value of `rotor` -/
  | start (rotor : ℕ)
  | spawn
  /-- the pool refuses the next pull -/
  | refuse
  | failStop
  /-- the caller's own scope is stopped -/
  | scopeStop
  | decide (i : ℕ)
  | stopAll (i : ℕ)
  | pushBack (i : ℕ)
  | finish (i : ℕ)
  | look
  | suspend
  | wake
  | resume
  | destroy
  | dropStop

/-- The next state; whether the step sets `published`, what it pushes back for which pull, and what
it returns from which index. -/
structure Act (σ : Type*) (ι : Type*) (α : Type*) (γ : Type*) where
  next : State σ ι α γ
  publishes : Bool := false
  pushes : List (ℕ × α) := []
  returns : List (ℕ × α) := []

/-- What the `try` around the receive leaves behind. -/
def outcome : RecvPc α → Option (Except Exn (Option α))
  | .returned r => some (.ok r)
  | .threw x => some (.error x)
  | .idle | .looked | .arming | .parked | .resuming | .putBack _ | .destroyed => none

namespace SelectState

/-- The first locked section of pull `i`, and where it goes next. -/
def decide (st : SelectState α) (i : ℕ) (got : Except Exn (Option α)) : SelectState α × PullPc α :=
  if st.decided then
    -- a loser has something left to do only if it holds a value
    (st, match got with
      | .ok (some v) => .putting v
      | .ok none | .error _ => .finishing)
  else
    match got with
    | .ok none =>
      -- closed and drained; the last live pull completes the select empty
      if 0 < st.live - 1 then ({ st with live := st.live - 1 }, .finishing)
      else
        ({ st with
            live := st.live - 1, decided := true, winningIndex := i
            result := none, exception := none }, .stopping)
    | .ok (some v) =>
      ({ st with decided := true, winningIndex := i, result := some v, exception := none },
        .stopping)
    | .error x =>
      ({ st with decided := true, winningIndex := i, result := none, exception := some x },
        .stopping)

/-- The final section of a pull, and whether it publishes. -/
def finish (st : SelectState α) : SelectState α × Bool :=
  if st.outstanding - 1 = 0 ∧ st.decided = true then
    ({ st with outstanding := st.outstanding - 1, published := true, waiter := false }, true)
  else ({ st with outstanding := st.outstanding - 1 }, false)

/-- The locked section of `failSelect`, and whether it publishes. -/
def failSelect (st : SelectState α) (unspawned : ℕ) : SelectState α × Bool :=
  let st := if st.decided then st else { st with decided := true, exception := some .failed }
  -- the caller has not awaited yet, so there is nobody to wake
  if st.outstanding - unspawned = 0 then
    ({ st with outstanding := st.outstanding - unspawned, published := true }, true)
  else ({ st with outstanding := st.outstanding - unspawned }, false)

end SelectState

/-- The select's frame exists, and with it the link to the caller's scope. -/
def CallerPc.linked : CallerPc α → Bool
  | .spawning _ _ | .failing | .awaiting | .looked | .parked | .resuming => true
  | .idle | .returned _ _ | .threw _ | .dropped | .destroyed => false

def PullPc.isReceiving : PullPc α → Bool
  | .receiving => true
  | .idle | .stopping | .putting _ | .finishing | .finished => false

/-- The steps of a receive in the scope of `stop`: it has no deadline, its frame is never
destroyed, and it is cancelled only by `stop`. -/
def inScope (stop : Bool) : Mailbox.Event ι η α → Bool
  | .receive _ timed => !timed
  | .suspend _ core => core = some stop
  | .cancel _ => stop
  | .resume _ expired => !expired
  | .retry _ | .wake _ | .fail _ => true
  | .destroy _ | .putBack _ | .pushFront _ | .close | .send _ => false

section Step

variable [DecidableEq ι] [DecidableEq γ] (S : γ → Side σ η α) (ids : Ids ι) (channels : List γ)

/-- A pull's call moves only on the pull's channel and while the pull receives. -/
def permits (s : State σ ι α γ) (c : γ) (e : Mailbox.Event ι η α) : Bool :=
  match e.call.bind ids.owner with
  | none => true
  | some i => channels[i]? = some c && (s.pull i).isReceiving && inScope s.st.stop e

@[simp] def State.setPull (s : State σ ι α γ) (i : ℕ) (p : PullPc α) : State σ ι α γ :=
  { s with pull := Function.update s.pull i p }

@[simp] def State.setChan (s : State σ ι α γ) (c : γ) (m : Mailbox.State σ ι α) : State σ ι α γ :=
  { s with chan := Function.update s.chan c m }

/-- The steps of a select over `channels`. -/
def act (s : State σ ι α γ) : Event ι α η γ → Option (Act σ ι α γ)
  | .chan c e =>
    if permits ids channels s c e then
      (Mailbox.step (S c) (s.chan c) e).map fun m => { next := s.setChan c m }
    else none
  | .start rotor =>
    match s.caller with
    | .idle =>
      if channels.length = 0 then some { next := { s with caller := .returned 0 none } }
      else
        some { next :=
          { s with
            st := { s.st with live := channels.length, outstanding := channels.length }
            caller := .spawning (rotor % channels.length) 0 } }
    | _ => none
  | .spawn =>
    match s.caller with
    | .spawning start k =>
      -- with the last pull the loop is over
      some { next :=
        { s.setPull ((start + k) % channels.length) .receiving with
          caller := if k + 1 < channels.length then .spawning start (k + 1) else .awaiting } }
    | _ => none
  | .refuse =>
    match s.caller with
    | .spawning _ k =>
      let r := s.st.failSelect (channels.length - k)
      some { next := { s with st := r.1, caller := .failing }, publishes := r.2 }
    | _ => none
  | .failStop =>
    match s.caller with
    | .failing => some { next := { s with st := { s.st with stop := true }, caller := .awaiting } }
    | _ => none
  | .scopeStop =>
    if s.caller.linked then some { next := { s with st := { s.st with stop := true } } } else none
  | .decide i =>
    match s.pull i, channels[i]? with
    | .receiving, some c =>
      (outcome ((s.chan c).recv (ids.pull i)).pc).map fun got =>
        { next := { s.setPull i (s.st.decide i got).2 with st := (s.st.decide i got).1 } }
    | _, _ => none
  | .stopAll i =>
    match s.pull i with
    | .stopping => some { next := { s.setPull i .finishing with st := { s.st with stop := true } } }
    | _ => none
  | .pushBack i =>
    match s.pull i, channels[i]? with
    | .putting v, some c =>
      (Mailbox.step (S c) (s.chan c) (.pushFront v)).map fun m =>
        { next := (s.setChan c m).setPull i .finishing, pushes := [(i, v)] }
    | _, _ => none
  | .finish i =>
    match s.pull i with
    | .finishing =>
      some
        { next := { s.setPull i .finished with st := s.st.finish.1 }
          publishes := s.st.finish.2 }
    | _ => none
  | .look =>
    match s.caller with
    | .awaiting =>
      some { next := { s with caller := if s.st.published then .resuming else .looked } }
    | _ => none
  | .suspend =>
    match s.caller with
    | .looked =>
      -- the last pull may have published since `await_ready`
      if s.st.published then some { next := { s with caller := .resuming } }
      else some { next := { s with st := { s.st with waiter := true }, caller := .parked } }
    | _ => none
  | .wake =>
    match s.caller, s.st.waiter with
    | .parked, false => some { next := { s with caller := .resuming } }
    | _, _ => none
  | .resume =>
    match s.caller, s.st.exception with
    | .resuming, some x => some { next := { s with caller := .threw x } }
    | .resuming, none =>
      some
        { next := { s with caller := .returned s.st.winningIndex s.st.result }
          returns := s.st.result.toList.map fun v => (s.st.winningIndex, v) }
    | _, _ => none
  | .destroy =>
    match s.caller with
    | .parked => some { next := { s with st := { s.st with waiter := false }, caller := .dropped } }
    | _ => none
  | .dropStop =>
    match s.caller with
    | .dropped => some { next := { s with st := { s.st with stop := true }, caller := .destroyed } }
    | _ => none

def step (s : State σ ι α γ) (e : Event ι α η γ) : Option (State σ ι α γ) :=
  (act S ids channels s e).map Act.next

end Step

end Manwe.Select
