import Mathlib
import Manwe.Yarn.WhenAnyAwaiter

/-!
# Waiting for all tasks

`whenAll` spawns one runner per task and waits until every one has completed. The latch `remaining`
starts at the number of tasks plus one, the additional one standing for the awaiter: a runner that
has stored its result or recorded its exception takes one off, and so does the awaiter once its
proxy is in `waiterAddr`. Whoever takes the latch to zero owns the resumption: a runner takes the
proxy out of `waiterAddr` and runs it, the awaiter takes it back and goes on without suspending. If
spawning fails after some of the runners, the exception is recorded and the slots of the others are
settled one by one.

The steps of the model are the single atomic accesses, so that runners, the spawning loop, the
awaiter and the destruction of its frame interleave between any two of them. How a task ends is up
to the event; storing a value that throws is an ending with an exception. The `void` form is the
case of a unit value.
-/

namespace Manwe.WhenAll

open Function

open WhenAnyAwaiter (Proxy)

variable {α χ : Type*}

/-- Where a runner stands. -/
inductive RunnerPc (χ : Type*)
  | unspawned
  | working
  /-- `recordException` comes next -/
  | recording (x : χ)
  /-- `completeOne` comes next -/
  | completing
  /-- it has completed the latch; the exchange in `resumeWaiter` comes next -/
  | taking
  /-- it has taken the proxy -/
  | waking
  | ended

/-- Where the caller stands in its spawning loop. -/
inductive LoopPc (χ : Type*)
  | spawning (k : ℕ)
  | failing (k : ℕ) (x : χ)
  /-- the slots from `j` on are to be settled -/
  | settling (j : ℕ)
  | ended

/-- Where the caller stands at its awaiter. -/
inductive CallerPc
  | busy
  /-- `await_ready` comes next -/
  | awaiting
  /-- the proxy is published next -/
  | suspending
  /-- the awaiter's own slot is taken off next -/
  | counting
  /-- it has completed the latch itself -/
  | reclaiming
  | parked
  /-- `await_resume` comes next -/
  | resuming
  | returned
  | destroyed
  deriving DecidableEq

structure State (α : Type*) (χ : Type*) where
  results : ℕ → Option α := fun _ => none
  exception : Option χ := none
  remaining : ℕ
  /-- the proxy is in `waiterAddr` -/
  waiterAddr : Bool := false
  proxy : Proxy := .none
  parked : Bool := false
  loop : LoopPc χ := .ended
  runners : ℕ → RunnerPc χ := fun _ => .unspawned
  caller : CallerPc := .busy
  /-- what the caller got -/
  seen : Option (Except χ (List (Option α))) := none

namespace State

def put (s : State α χ) (i : ℕ) (r : RunnerPc χ) : State α χ :=
  { s with runners := update s.runners i r }

/-- The loop is left and the awaiter is built. -/
def endLoop (s : State α χ) : State α χ := { s with loop := .ended, caller := .awaiting }

/-- The head of a loop over the tasks: it goes on with task `k`, at `l`, or is left. -/
def loopFrom (n k : ℕ) (l : LoopPc χ) (s : State α χ) : State α χ :=
  if k < n then { s with loop := l } else s.endLoop

/-- The spawning loop. -/
def spawnFrom (n k : ℕ) (s : State α χ) : State α χ := s.loopFrom n k (.spawning k)

/-- The loop that settles the slots of runners that will never exist. -/
def settleFrom (n j : ℕ) (s : State α χ) : State α χ := s.loopFrom n j (.settling j)

def recordException (s : State α χ) (x : χ) : State α χ :=
  { s with exception := s.exception.or (some x) }

/-- What `await_resume` and the loop after it make of the shared state. -/
def outcome (n : ℕ) (s : State α χ) : Except χ (List (Option α)) := match s.exception with
  | some x => .error x
  | none => .ok ((List.range n).map s.results)

end State

/-- `whenAll` of `n` tasks. -/
def init (n : ℕ) : State α χ := State.spawnFrom n 0 { remaining := n + 1 }

inductive Event (α : Type*) (χ : Type*)
  | spawn
  | spawnFail (x : χ)
  | failRecord
  | failComplete
  | awaitReady
  /-- publish the proxy in `waiterAddr` -/
  | store
  | count
  | reclaim
  | awaitResume
  | destroy
  | finish (i : ℕ) (o : Except χ α)
  | record (i : ℕ)
  | complete (i : ℕ)
  | take (i : ℕ)
  | wake (i : ℕ)

/-- One step of `whenAll` with `n` tasks. -/
def step (n : ℕ) (s : State α χ) : Event α χ → Option (State α χ)
  | .spawn =>
    match s.loop with
    | .spawning k => some ((s.put k .working).spawnFrom n (k + 1))
    | _ => none
  | .spawnFail x =>
    match s.loop with
    | .spawning k => some { s with loop := .failing k x }
    | _ => none
  | .failRecord =>
    match s.loop with
    | .failing k x => some ((s.recordException x).settleFrom n k)
    | _ => none
  | .failComplete =>
    match s.loop with
    | .settling j => some (({ s with remaining := s.remaining - 1 }).settleFrom n (j + 1))
    | _ => none
  | .awaitReady =>
    if s.caller = .awaiting then
      if s.remaining ≤ 1 then some { s with caller := .resuming }
      else some { s with caller := .suspending }
    else none
  | .store =>
    if s.caller = .suspending then
      some { s with proxy := .parked, parked := true, waiterAddr := true, caller := .counting }
    else none
  | .count =>
    if s.caller = .counting then
      if s.remaining = 1 then
        some { s with remaining := s.remaining - 1, caller := .reclaiming }
      else some { s with remaining := s.remaining - 1, caller := .parked }
    else none
  | .reclaim =>
    if s.caller = .reclaiming then
      some { s with waiterAddr := false, proxy := .none, parked := false, caller := .resuming }
    else none
  | .awaitResume =>
    if s.caller = .resuming then
      some { s with caller := .returned, seen := some (s.outcome n) }
    else none
  | .destroy =>
    if s.caller = .parked then
      -- removed from `waiterAddr`: nothing is in flight towards the proxy
      if s.waiterAddr then
        some { s with waiterAddr := false, proxy := .none, caller := .destroyed }
      else some { s with proxy := .killed, caller := .destroyed }
    else none
  | .finish i o =>
    match s.runners i, o with
    | .working, .ok a => some { s.put i .completing with results := update s.results i (some a) }
    | .working, .error x => some (s.put i (.recording x))
    | _, _ => none
  | .record i =>
    match s.runners i with
    | .recording x => some ((s.put i .completing).recordException x)
    | _ => none
  | .complete i =>
    match s.runners i with
    | .completing =>
      if s.remaining = 1 then some { s.put i .taking with remaining := s.remaining - 1 }
      else some { s.put i .ended with remaining := s.remaining - 1 }
    | _ => none
  | .take i =>
    match s.runners i with
    | .taking =>
      if s.waiterAddr then some { s.put i .waking with waiterAddr := false }
      else some (s.put i .ended)
    | _ => none
  | .wake i =>
    match s.runners i with
    | .waking =>
      if s.proxy = .killed then some (s.put i .ended)
      else some { s.put i .ended with proxy := .resumed, caller := .resuming }
    | _ => none

/-! ### What a step can do -/

/-- **The steps**, one constructor for each thing that can happen. -/
inductive Change (n : ℕ) (s : State α χ) : Event α χ → State α χ → Prop
  | spawn {k : ℕ} (hl : s.loop = .spawning k) :
      Change n s .spawn ((s.put k .working).spawnFrom n (k + 1))
  | spawnFail {k : ℕ} {x : χ} (hl : s.loop = .spawning k) :
      Change n s (.spawnFail x) { s with loop := .failing k x }
  | failRecord {k : ℕ} {x : χ} (hl : s.loop = .failing k x) :
      Change n s .failRecord ((s.recordException x).settleFrom n k)
  | failComplete {j : ℕ} (hl : s.loop = .settling j) :
      Change n s .failComplete (({ s with remaining := s.remaining - 1 }).settleFrom n (j + 1))
  | ready (hc : s.caller = .awaiting) (hr : s.remaining ≤ 1) :
      Change n s .awaitReady { s with caller := .resuming }
  | notReady (hc : s.caller = .awaiting) (hr : ¬ s.remaining ≤ 1) :
      Change n s .awaitReady { s with caller := .suspending }
  | store (hc : s.caller = .suspending) : Change n s .store
        { s with proxy := .parked, parked := true, waiterAddr := true, caller := .counting }
  | countLast (hc : s.caller = .counting) (hr : s.remaining = 1) :
      Change n s .count { s with remaining := s.remaining - 1, caller := .reclaiming }
  | count (hc : s.caller = .counting) (hr : s.remaining ≠ 1) :
      Change n s .count { s with remaining := s.remaining - 1, caller := .parked }
  | reclaim (hc : s.caller = .reclaiming) : Change n s .reclaim
        { s with waiterAddr := false, proxy := .none, parked := false, caller := .resuming }
  | awaitResume (hc : s.caller = .resuming) :
      Change n s .awaitResume { s with caller := .returned, seen := some (s.outcome n) }
  | destroy (hc : s.caller = .parked) (hw : s.waiterAddr = true) :
      Change n s .destroy { s with waiterAddr := false, proxy := .none, caller := .destroyed }
  | destroyTaken (hc : s.caller = .parked) (hw : s.waiterAddr = false) :
      Change n s .destroy { s with proxy := .killed, caller := .destroyed }
  | finish {i : ℕ} {a : α} (hi : s.runners i = .working) : Change n s (.finish i (.ok a))
        { s.put i .completing with results := update s.results i (some a) }
  | finishError {i : ℕ} {x : χ} (hi : s.runners i = .working) :
      Change n s (.finish i (.error x)) (s.put i (.recording x))
  | record {i : ℕ} {x : χ} (hi : s.runners i = .recording x) :
      Change n s (.record i) ((s.put i .completing).recordException x)
  | completeLast {i : ℕ} (hi : s.runners i = .completing) (hr : s.remaining = 1) :
      Change n s (.complete i) { s.put i .taking with remaining := s.remaining - 1 }
  | complete {i : ℕ} (hi : s.runners i = .completing) (hr : s.remaining ≠ 1) :
      Change n s (.complete i) { s.put i .ended with remaining := s.remaining - 1 }
  | take {i : ℕ} (hi : s.runners i = .taking) (hw : s.waiterAddr = true) :
      Change n s (.take i) { s.put i .waking with waiterAddr := false }
  | takeNone {i : ℕ} (hi : s.runners i = .taking) (hw : s.waiterAddr = false) :
      Change n s (.take i) (s.put i .ended)
  | wake {i : ℕ} (hi : s.runners i = .waking) (hk : s.proxy ≠ .killed) :
      Change n s (.wake i) { s.put i .ended with proxy := .resumed, caller := .resuming }
  | wakeKilled {i : ℕ} (hi : s.runners i = .waking) (hk : s.proxy = .killed) :
      Change n s (.wake i) (s.put i .ended)

theorem change_of_step {n : ℕ} {s t : State α χ} {e : Event α χ} (h : step n s e = some t) :
    Change n s e t := by
  cases e with (simp only [step] at h; repeat' first | cases h | split at h)
  | _ => constructor <;> first | assumption | simp_all

end Manwe.WhenAll
