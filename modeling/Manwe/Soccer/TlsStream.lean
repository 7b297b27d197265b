import Manwe.Soccer.Http
import Manwe.Transition.Run

/-!
# TLS streams

`TlsStream` (`TlsStream.cpp`): reads, writes, handshakes and closes on one connection, from any
number of coroutines and through any number of handles. They share an `Impl`: the libtls context,
the descriptor, and under `callMu` the count of those who **wait on the descriptor**. Whoever
decides to wait takes a ticket in the section in which it decides; the ticket's destructor is
`leave`.

`close` takes the context and the descriptor out in a first section, says goodbye with the context,
wakes the waiters, and in a second section keeps the descriptor for itself to close, if nobody
waits, or leaves it in `retiredFd` to the last waiter.

Each section under `callMu` is a step, and so are the registration of a wait, each call of
`closeSocket`, each libtls call of a `close`, and each acquisition and release of `hsMu` and
`writeMu`. A party is one call of `read`, `write`, `handshake` or `close`; the destruction of a
handle is a `close`. What libtls answers, and which waits end in cancellation or in the destruction
of the coroutine, is up to the environment.
-/

namespace Manwe.TlsStream

open Http Function

variable {ι : Type} [DecidableEq ι]

inductive Job where
  | read
  | write
  | handshake
  | close
  deriving DecidableEq

/-- What an exception says. -/
inductive Failure where
  /-- `"read on closed TlsStream"`, and so on by the job -/
  | closed (job : Job)
  /-- `"TLS handshake timed out"` -/
  | timedOut
  /-- `"tls_write made no progress"` -/
  | noProgress
  /-- the text of `tls_error`, or the name of the call -/
  | library (text : Bytes)
  /-- a cancelled or failed wait, or a failed allocation -/
  | other
  deriving DecidableEq

/-- The text is the empty string. -/
def Failure.empty : Failure → Bool
  | .library text => text.isEmpty
  | _ => false

/-- How a call ends. -/
inductive Result where
  | returned (n : ℕ)
  | threw (f : Failure)
  /-- the coroutine was destroyed while parked -/
  | destroyed
  deriving DecidableEq

/-- Where a call to `close` stands; the descriptor it has taken out may be `-1`. -/
inductive Closer where
  /-- before the first section -/
  | take
  /-- before `tls_close` -/
  | notify (fd : Int)
  /-- before the second attempt -/
  | notifyAgain (fd : Int)
  | free (fd : Int)
  /-- before the shutdown and `cancelFd` -/
  | wake (fd : Int)
  /-- before the second section -/
  | retire (fd : Int)
  /-- before `closeSocket` -/
  | shut (fd : Int)
  deriving DecidableEq

/-- Where a party stands. `hs…` is `driveHandshake`, which `read` and `write` go through too. -/
inductive Place where
  | idle
  /-- before the load of `hsPending` -/
  | begun
  /-- waits for `hsMu` -/
  | hsLock
  | hsEnter
  /-- before the section that takes the ticket -/
  | hsTicket
  /-- before the section with `tls_handshake` -/
  | hsCall (fd : Int)
  /-- the handshake is complete -/
  | hsOk
  | hsFail (f : Failure)
  /-- in `dead.close()`, or, if `last`, in the destructor of `dead` -/
  | hsClose (f : Failure) (last : Bool) (c : Closer)
  /-- before the ticket of the handshake goes; without a result, the call goes on -/
  | hsLeave (r : Option Result)
  | hsUnlock (r : Option Result)
  /-- past the handshake -/
  | body
  /-- waits for `writeMu` -/
  | writeLock
  /-- before the section with `tls_read` or `tls_write` -/
  | call
  /-- has a ticket, before the registration; in the handshake or not -/
  | wait (hs : Bool) (fd : Int)
  | parked (hs : Bool) (fd : Int)
  /-- before the ticket goes; without a result, once more round the loop -/
  | leave (r : Option Result)
  /-- before the `closeSocket` of `leave` -/
  | shut (hs : Bool) (fd : Int) (r : Option Result)
  | writeUnlock (r : Result)
  | close (c : Closer)
  | done (r : Result)
  deriving DecidableEq

structure Party where
  job : Job := .read
  /-- the size of the buffer -/
  size : ℕ := 0
  /-- what has been written -/
  total : ℕ := 0
  place : Place := .idle
  deriving DecidableEq

structure State (ι : Type) where
  ctx : Bool := true
  fd : Int
  waiters : Int := 0
  retiredFd : Int := -1
  hsPending : Bool := false
  hsError : Option Failure := none
  hsOwner : Option ι := none
  writeOwner : Option ι := none
  parties : ι → Party := fun _ => {}

/-- What libtls answers. -/
inductive Answer where
  /-- success, with a number of bytes where there is one -/
  | ok (n : ℕ)
  /-- `TLS_WANT_POLLIN` or `TLS_WANT_POLLOUT` -/
  | wantPoll
  | error (text : Bytes)
  deriving DecidableEq

inductive Event (ι : Type) where
  | start (i : ι) (job : Job) (size : ℕ)
  /-- the next step of `driveHandshake`, or into it; `expired` is the deadline's -/
  | handshake (i : ι) (a : Answer) (expired : Bool)
  /-- `TlsStream dead` cannot be allocated -/
  | allocFails (i : ι)
  /-- the next step of `read` or `write` past the handshake -/
  | transfer (i : ι) (a : Answer)
  /-- the registration of a wait -/
  | register (i : ι)
  | resume (i : ι)
  /-- a wait ends with an exception -/
  | cancel (i : ι)
  | destroy (i : ι)
  /-- the next step of `leave` -/
  | leave (i : ι)
  /-- the next step of `close`; `retry` is whether `tls_close` wants a poll that finds the socket
  ready -/
  | close (i : ι) (retry : Bool)
  | alpnSelected (i : ι)
  deriving DecidableEq

/-- A party is at its next place. -/
def State.put (s : State ι) (i : ι) (p : Place) : State ι :=
  { s with parties := update s.parties i { s.parties i with place := p } }

/-- Where a call goes on once its handshake is done. -/
def pastHandshake : Job → Place
  | .handshake => .done (.returned 0)
  | _ => .body

/-- Where a call goes to end; `write` has its guard to give back. -/
def finish (job : Job) (r : Result) : Place := if job = .write then .writeUnlock r else .done r

/-- Where a party goes on once its ticket is gone. -/
def left (job : Job) (hs : Bool) (r : Option Result) : Place := if hs then .hsUnlock r else
    match r with
    | none => .call
    | some r => finish job r

/-- `Impl::leave`, up to its `closeSocket`. -/
def leave (s : State ι) (i : ι) (hs : Bool) (r : Option Result) : State ι := let w := s.waiters - 1
  let toClose := if w = 0 then s.retiredFd else -1
  { s.put i (if 0 ≤ toClose then .shut hs toClose r else left (s.parties i).job hs r) with
    waiters := w
    retiredFd := if w = 0 then -1 else s.retiredFd }

/-- A step of `close`: the state, and where the call stands then; `none` is its return. -/
@[simp] def closeStep (s : State ι) (retry : Bool) : Closer → State ι × Option Closer
  | .take =>
    ({ s with ctx := false, fd := -1 },
      if s.ctx then some (.notify s.fd) else if 0 ≤ s.fd then some (.wake s.fd) else none)
  | .notify fd => (s, if retry ∧ 0 ≤ fd then some (.notifyAgain fd) else some (.free fd))
  | .notifyAgain fd => (s, some (.free fd))
  | .free fd => (s, if 0 ≤ fd then some (.wake fd) else none)
  | .wake fd => (s, some (.retire fd))
  | .retire fd => if s.waiters = 0 then (s, some (.shut fd)) else ({ s with retiredFd := fd }, none)
  | .shut _ => (s, none)

/-- The section of `read` and `write` with the libtls call, the context being there. -/
def transfer (s : State ι) (i : ι) : Answer → Option (State ι)
  | .ok n =>
    let p := s.parties i
    if p.size - p.total < n then none
    else if p.job = .write then
      if n = 0 then some (s.put i (.writeUnlock (.threw .noProgress)))
      else some { s with
        parties := update s.parties i { p with total := p.total + n, place := .call } }
    else some (s.put i (.done (.returned n)))
  | .wantPoll => some { s.put i (.wait false s.fd) with waiters := s.waiters + 1 }
  | .error text => some (s.put i (finish (s.parties i).job (.threw (.library text))))

/-- A wait ends otherwise than by readiness, or a wait for a lock is given up. -/
def interrupt (s : State ι) (i : ι) (r : Result) : Option (State ι) :=
  match (s.parties i).place with
  | .hsLock | .writeLock => some (s.put i (.done r))
  | .parked true _ => some (s.put i (.hsLeave (some r)))
  | .parked false _ => some (s.put i (.leave (some r)))
  | _ => none

def step (s : State ι) : Event ι → Option (State ι)
  | .start i job size =>
    match (s.parties i).place with
    | .idle =>
      let place := if job = .close then .close .take else .begun
      some { s with parties := update s.parties i { job, size, place } }
    | _ => none
  | .handshake i a expired =>
    match (s.parties i).place with
    | .begun => some (s.put i (if s.hsPending then .hsLock else pastHandshake (s.parties i).job))
    | .hsLock => if s.hsOwner = none then some { s.put i .hsEnter with hsOwner := some i } else none
    | .hsEnter =>
      if s.hsPending then
        match s.hsError with
        | none => some (s.put i .hsTicket)
        | some f => some (s.put i (if f.empty then .hsTicket else .hsUnlock (some (.threw f))))
      else some (s.put i (.hsUnlock none))
    | .hsTicket =>
      if s.ctx then some { s.put i (.hsCall s.fd) with waiters := s.waiters + 1 }
      else some (s.put i (.hsUnlock (some (.threw (.closed .handshake)))))
    | .hsCall fd =>
      if s.ctx then
        match a with
        | .ok _ => some (s.put i .hsOk)
        | .wantPoll => some (s.put i (.wait true fd))
        | .error text => some (s.put i (.hsFail (if expired then .timedOut else .library text)))
      else some (s.put i (.hsLeave (some (.threw (.closed .handshake)))))
    | .hsOk => some { s.put i (.hsLeave none) with hsPending := false }
    | .hsFail f => some { s.put i (.hsClose f false .take) with hsError := some f }
    | .hsUnlock none => some { s.put i (pastHandshake (s.parties i).job) with hsOwner := none }
    | .hsUnlock (some r) => some { s.put i (.done r) with hsOwner := none }
    | _ => none
  | .allocFails i =>
    match (s.parties i).place with
    | .hsFail f => some { s.put i (.hsLeave (some (.threw .other))) with hsError := some f }
    | _ => none
  | .transfer i a =>
    match (s.parties i).place with
    | .body =>
      if (s.parties i).job = .write then some (s.put i .writeLock)
      else some (s.put i (if (s.parties i).size = 0 then .done (.returned 0) else .call))
    | .writeLock =>
      if s.writeOwner = none then some { s.put i .call with writeOwner := some i } else none
    | .call =>
      if (s.parties i).job = .write ∧ (s.parties i).size ≤ (s.parties i).total then
        some (s.put i (.writeUnlock (.returned (s.parties i).total)))
      else if s.ctx then transfer s i a
      else some (s.put i (finish (s.parties i).job (.threw (.closed (s.parties i).job))))
    | .writeUnlock r => some { s.put i (.done r) with writeOwner := none }
    | _ => none
  | .register i =>
    match (s.parties i).place with
    | .wait hs fd => some (s.put i (.parked hs fd))
    | _ => none
  | .resume i =>
    match (s.parties i).place with
    | .parked true fd => some (s.put i (.hsCall fd))
    | .parked false _ => some (s.put i (.leave none))
    | _ => none
  | .cancel i =>
    match (s.parties i).place with
    | .wait true _ => some (s.put i (.hsLeave (some (.threw .other))))
    | .wait false _ => some (s.put i (.leave (some (.threw .other))))
    | _ => interrupt s i (.threw .other)
  | .destroy i => interrupt s i .destroyed
  | .leave i =>
    match (s.parties i).place with
    | .hsLeave r => some (leave s i true r)
    | .leave r => some (leave s i false r)
    | .shut hs _ r => some (s.put i (left (s.parties i).job hs r))
    | _ => none
  | .close i retry =>
    match (s.parties i).place with
    | .close c =>
      let t := closeStep s retry c
      some (t.1.put i (t.2.elim (.done (.returned 0)) .close))
    | .hsClose f last c =>
      let t := closeStep s retry c
      some (t.1.put i (t.2.elim
        (if last then .hsLeave (some (.threw f)) else .hsClose f true .take) (.hsClose f last)))
    | _ => none
  | .alpnSelected _ => some s

/-! ### What the world sees -/

/-- Where a call to `close` stands, if a party is in one. -/
def Place.closer : Place → Option Closer
  | .close c | .hsClose _ _ c => some c
  | _ => none

/-- The party has a ticket. -/
def Place.ticket : Place → Bool
  | .hsCall _ | .hsOk | .hsFail _ | .hsClose _ _ _ | .hsLeave _ | .wait _ _ | .parked _ _
  | .leave _ => true
  | _ => false

/-- The party has a ticket, or has not left its destructor yet. -/
def Place.ticketed : Place → Bool
  | .shut _ _ _ => true
  | p => p.ticket

/-- The descriptor a step passes to `closeSocket`. -/
def closesAt (s : State ι) : Event ι → List Int
  | .leave i =>
    match (s.parties i).place with
    | .shut _ fd _ => [fd]
    | _ => []
  | .close i _ =>
    match (s.parties i).place.closer with
    | some (.shut fd) => [fd]
    | _ => []
  | _ => []

/-- Who takes the context and the descriptor out in a step. -/
def takesAt (s : State ι) : Event ι → List ι
  | .close i _ =>
    if (s.parties i).place.closer = some .take ∧ (s.ctx = true ∨ 0 ≤ s.fd) then [i] else []
  | _ => []

/-- The libtls calls on the context. -/
inductive TlsCall where
  | handshake
  | transfer
  | close
  | free
  | alpnSelected
  deriving DecidableEq

/-- The libtls call a step makes, and who makes it. -/
def tlsCalls (s : State ι) : Event ι → List (ι × TlsCall)
  | .handshake i _ _ =>
    match (s.parties i).place with
    | .hsCall _ => if s.ctx then [(i, .handshake)] else []
    | _ => []
  | .transfer i _ =>
    match (s.parties i).place with
    | .call =>
      if (s.parties i).job = .write ∧ (s.parties i).size ≤ (s.parties i).total then []
      else if s.ctx then [(i, .transfer)] else []
    | _ => []
  | .close i _ =>
    match (s.parties i).place.closer with
    | some (.notify _) | some (.notifyAgain _) => [(i, .close)]
    | some (.free _) => [(i, .free)]
    | _ => []
  | .alpnSelected i => if s.ctx then [(i, .alpnSelected)] else []
  | _ => []

end Manwe.TlsStream
