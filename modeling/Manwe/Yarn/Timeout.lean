import Manwe.Yarn.WhenAnyAwaiter

/-!
# Running a task with a deadline

`withTimeout` registers a timer, spawns one runner for the task and parks its caller in the awaiter
of `whenAny`. Three parties race for `finished`:

* the **runner**, when the task has ended: it takes the timer back, writes the task's value or
  exception, and publishes;
* the **timer**, whose frame the reactor resumes exactly once, by expiry or because `cancelTimer`
  took it out of its table: it writes the timeout, or `ReactorError` if the event loop is dead;
* the **spawner**, that is the caller's own thread, if the timer's frame or the runner could not be
  created.

In joined mode a timeout is published only when the runner is gone as well: the timer records it
under the lock, the losing runner reports itself done under the lock, and whichever comes second
publishes. A spawner that loses to the timer reports in the place of the runner that will never run.

The shared state lives as long as the caller's frame, the runner's frame or the reference held by
the timer's frame (`shares`). Its destructor and the end of the timer's frame release the two
references `refs` on that frame, and the second one destroys it.
-/

namespace Manwe.Timeout

open WhenAnyAwaiter (Latch)

variable {α χ : Type*}

/-- What a caller can be thrown. -/
inductive Failure (χ : Type*)
  /-- `TimeoutException` -/
  | timeout
  | reactorError
  /-- an exception of the task, or the one that kept it from being spawned -/
  | other (x : χ)

/-- Where the caller stands before it awaits. -/
inductive LoopPc (χ : Type*)
  | arming
  | spawning
  /-- `failSpawn`, before the exchange -/
  | failing (x : χ)
  | failWriting (x : χ)
  | failPublishing
  | failReporting
  | failWaking
  | failCancelling
  | ended

inductive RunnerPc (α : Type*) (χ : Type*)
  | unspawned
  | working
  | exchanging (o : Except χ α)
  | cancelling (o : Except χ α)
  | writing (o : Except χ α)
  | publishing
  | reporting
  | waking
  /-- the frame with its reference on the shared state goes next -/
  | dropping
  | gone

inductive TimerPc (χ : Type*)
  /-- the frame does not exist -/
  | none
  | armed
  /-- resumed -/
  | exchanging
  /-- won: it looks whether the event loop is dead -/
  | judging
  | recording (x : Failure χ)
  | publishing
  | waking
  | dropping
  /-- at its final suspension -/
  | closing
  | gone

/-- The reactor takes a pending timer out of its table and resumes it; a timer that is not pending
any more is left alone. -/
def TimerPc.cancel : TimerPc χ → TimerPc χ
  | .armed => .exchanging
  | t => t

structure State (α : Type*) (χ : Type*) where
  finished : Bool := false
  result : Option α := none
  exception : Option (Failure χ) := none
  stopped : Bool := false
  runnerDone : Bool := false
  timeoutRecorded : Bool := false
  loop : LoopPc χ := .arming
  runner : RunnerPc α χ := .unspawned
  timer : TimerPc χ := .none
  latch : Latch := {}
  /-- what the caller got -/
  seen : Option (Except (Failure χ) (Option α)) := none
  /-- references on the shared state -/
  shares : ℕ := 1
  /-- references on the timer's frame -/
  refs : ℕ := 0
  /-- the caller's frame is gone -/
  released : Bool := false

inductive Event (α : Type*) (χ : Type*)
  | arm
  | armFail (x : χ)
  | spawn
  | spawnFail (x : χ)
  | failExchange
  | failWrite
  | failPublish
  | failReport
  | failWake
  | failCancel
  | awaitReady
  | awaitSuspend
  | awaitResume
  | destroy
  | release
  | finish (o : Except χ α)
  | exchange
  | cancel
  /-- the runner writes its outcome; moving a value may throw -/
  | write (thrown : Option χ)
  | publish
  | report
  | wake
  | drop
  /-- the timer expires -/
  | fire
  | expire
  | judge (dead : Bool)
  | record
  | timerPublish
  | timerWake
  | timerDrop
  | timerClose

namespace State

@[simp] def endLoop (s : State α χ) : State α χ :=
  { s with loop := .ended, latch := { s.latch with pc := .awaiting } }

/-- What `await_resume` and the line after it make of the shared state. -/
@[simp] def outcome (s : State α χ) : Except (Failure χ) (Option α) := match s.exception with
  | some x => .error x
  | none => .ok s.result

/-- `cancelTimer`: a pending timer is taken out and resumed. -/
@[simp] def cancelTimer (s : State α χ) : State α χ := { s with timer := s.timer.cancel }

/-- The destructor of the shared state runs on this step. -/
def lastShare (s : State α χ) : Bool := match s.timer with
  | .none => false
  | _ => s.shares == 1

/-- A reference on the shared state is dropped; with the last one goes the owner's reference on the
timer's frame. -/
@[simp] def drop (s : State α χ) : State α χ :=
  { s with shares := s.shares - 1, refs := if s.lastShare then s.refs - 1 else s.refs }

/-- The locked section of `runnerFinishedLate`, with the handle it takes. -/
def runnerFinishedLate (s : State α χ) : State α χ × Bool := if s.timeoutRecorded then
    ({ s with runnerDone := true, latch := s.latch.publish.1 }, s.latch.publish.2)
  else ({ s with runnerDone := true }, false)

/-- The locked section of `expire` in joined mode, with the handle it takes. -/
def recordTimeout (s : State α χ) (x : Failure χ) : State α χ × Bool :=
  let s := { s with exception := some x, timeoutRecorded := true }
  if s.runnerDone then ({ s with latch := s.latch.publish.1 }, s.latch.publish.2)
  else (s, false)

end State

/-- One step of a race with a deadline, in joined mode or not. -/
def step (join : Bool) (s : State α χ) : Event α χ → Option (State α χ)
  | .arm =>
    match s.loop with
    | .arming =>
      some { s with loop := .spawning, timer := .armed, refs := 2, shares := s.shares + 1 }
    | _ => none
  | .armFail x =>
    match s.loop with
    | .arming => some { s with loop := .failing x }
    | _ => none
  | .spawn =>
    match s.loop with
    | .spawning => some { s with runner := .working, shares := s.shares + 1 }.endLoop
    | _ => none
  | .spawnFail x =>
    match s.loop with
    | .spawning => some { s with loop := .failing x }
    | _ => none
  | .failExchange =>
    match s.loop with
    | .failing x =>
      if s.finished then
        if join then some { s with loop := .failReporting }
        else some { s with loop := .failCancelling }
      else some { s with finished := true, loop := .failWriting x }
    | _ => none
  | .failWrite =>
    match s.loop with
    | .failWriting x =>
      some { s with stopped := true, exception := some (.other x), loop := .failPublishing }
    | _ => none
  | .failPublish =>
    match s.loop with
    | .failPublishing => some { s with latch := s.latch.publishOnly, loop := .failCancelling }
    | _ => none
  | .failReport =>
    match s.loop with
    | .failReporting =>
      some { s.runnerFinishedLate.1 with
        loop := if s.runnerFinishedLate.2 then .failWaking else .failCancelling }
    | _ => none
  | .failWake =>
    match s.loop with
    | .failWaking => some { s with latch := s.latch.run, loop := .failCancelling }
    | _ => none
  | .failCancel =>
    match s.loop with
    | .failCancelling => some s.cancelTimer.endLoop
    | _ => none
  | .awaitReady =>
    if s.latch.pc = .awaiting then some { s with latch := s.latch.awaitReady } else none
  | .awaitSuspend =>
    if s.latch.pc = .looked then some { s with latch := s.latch.awaitSuspend } else none
  | .awaitResume =>
    if s.latch.pc = .resuming then
      some { s with latch := { s.latch with pc := .returned }, seen := some s.outcome }
    else none
  | .destroy =>
    if s.latch.pc = .parked then some { s with latch := s.latch.destroy, stopped := true }
    else none
  | .release =>
    if (s.latch.pc = .returned ∨ s.latch.pc = .destroyed) ∧ s.released = false then
      some { s.drop with released := true }
    else none
  | .finish o =>
    match s.runner with
    | .working => some { s with runner := .exchanging o }
    | _ => none
  | .exchange =>
    match s.runner with
    | .exchanging o =>
      if s.finished then
        if join then some { s with runner := .reporting } else some { s with runner := .dropping }
      else some { s with finished := true, runner := .cancelling o }
    | _ => none
  | .cancel =>
    match s.runner with
    | .cancelling o => some { s.cancelTimer with runner := .writing o }
    | _ => none
  | .write thrown =>
    match s.runner, thrown with
    | .writing (.ok a), none => some { s with result := some a, runner := .publishing }
    | .writing (.ok _), some y =>
      some { s with exception := some (.other y), runner := .publishing }
    | .writing (.error x), none =>
      some { s with exception := some (.other x), runner := .publishing }
    | _, _ => none
  | .publish =>
    match s.runner with
    | .publishing =>
      some { s with
        latch := s.latch.publish.1
        runner := if s.latch.publish.2 then .waking else .dropping }
    | _ => none
  | .report =>
    match s.runner with
    | .reporting =>
      some { s.runnerFinishedLate.1 with
        runner := if s.runnerFinishedLate.2 then .waking else .dropping }
    | _ => none
  | .wake =>
    match s.runner with
    | .waking => some { s with latch := s.latch.run, runner := .dropping }
    | _ => none
  | .drop =>
    match s.runner with
    | .dropping => some { s.drop with runner := .gone }
    | _ => none
  | .fire =>
    match s.timer with
    | .armed => some { s with timer := .exchanging }
    | _ => none
  | .expire =>
    match s.timer with
    | .exchanging =>
      if s.finished then some { s with timer := .dropping }
      else some { s with finished := true, timer := .judging }
    | _ => none
  | .judge dead =>
    match s.timer with
    | .judging =>
      some { s with
        stopped := true
        timer := .recording (if dead then .reactorError else .timeout) }
    | _ => none
  | .record =>
    match s.timer with
    | .recording x =>
      if join then
        some { (s.recordTimeout x).1 with
          timer := if (s.recordTimeout x).2 then .waking else .dropping }
      else some { s with exception := some x, timer := .publishing }
    | _ => none
  | .timerPublish =>
    match s.timer with
    | .publishing =>
      some { s with
        latch := s.latch.publish.1
        timer := if s.latch.publish.2 then .waking else .dropping }
    | _ => none
  | .timerWake =>
    match s.timer with
    | .waking => some { s with latch := s.latch.run, timer := .dropping }
    | _ => none
  | .timerDrop =>
    match s.timer with
    | .dropping => some { s.drop with timer := .closing }
    | _ => none
  | .timerClose =>
    match s.timer with
    | .closing => some { s with refs := s.refs - 1, timer := .gone }
    | _ => none

/-! ### What a step can do -/

/-- **The steps**, one constructor for each thing that can happen. -/
inductive Change (join : Bool) (s : State α χ) : Event α χ → State α χ → Prop
  | arm (hl : s.loop = .arming) : Change join s .arm
        { s with loop := .spawning, timer := .armed, refs := 2, shares := s.shares + 1 }
  | armFail {x : χ} (hl : s.loop = .arming) :
      Change join s (.armFail x) { s with loop := .failing x }
  | spawn (hl : s.loop = .spawning) :
      Change join s .spawn { s with runner := .working, shares := s.shares + 1 }.endLoop
  | spawnFail {x : χ} (hl : s.loop = .spawning) :
      Change join s (.spawnFail x) { s with loop := .failing x }
  | failWon {x : χ} (hl : s.loop = .failing x) (hf : s.finished = false) :
      Change join s .failExchange { s with finished := true, loop := .failWriting x }
  | failLost {x : χ} (hl : s.loop = .failing x) (hf : s.finished = true) (hj : join = false) :
      Change join s .failExchange { s with loop := .failCancelling }
  | failLostJoined {x : χ} (hl : s.loop = .failing x) (hf : s.finished = true) (hj : join = true) :
      Change join s .failExchange { s with loop := .failReporting }
  | failWrite {x : χ} (hl : s.loop = .failWriting x) : Change join s .failWrite
        { s with stopped := true, exception := some (.other x), loop := .failPublishing }
  | failPublish (hl : s.loop = .failPublishing) :
      Change join s .failPublish { s with latch := s.latch.publishOnly, loop := .failCancelling }
  | failReport (hl : s.loop = .failReporting) (ht : s.timeoutRecorded = false) :
      Change join s .failReport { s with runnerDone := true, loop := .failCancelling }
  | failReportLast (hl : s.loop = .failReporting) (ht : s.timeoutRecorded = true) :
      Change join s .failReport { s with
          runnerDone := true
          latch := s.latch.publish.1
          loop := if s.latch.publish.2 then .failWaking else .failCancelling }
  | failWake (hl : s.loop = .failWaking) :
      Change join s .failWake { s with latch := s.latch.run, loop := .failCancelling }
  | failCancel (hl : s.loop = .failCancelling) : Change join s .failCancel s.cancelTimer.endLoop
  | awaitReady (hc : s.latch.pc = .awaiting) :
      Change join s .awaitReady { s with latch := s.latch.awaitReady }
  | awaitSuspend (hc : s.latch.pc = .looked) :
      Change join s .awaitSuspend { s with latch := s.latch.awaitSuspend }
  | awaitResume (hc : s.latch.pc = .resuming) : Change join s .awaitResume
        { s with latch := { s.latch with pc := .returned }, seen := some s.outcome }
  | destroy (hc : s.latch.pc = .parked) :
      Change join s .destroy { s with latch := s.latch.destroy, stopped := true }
  | release (hc : s.latch.pc = .returned ∨ s.latch.pc = .destroyed) (hr : s.released = false) :
      Change join s .release { s.drop with released := true }
  | finish {o : Except χ α} (hr : s.runner = .working) :
      Change join s (.finish o) { s with runner := .exchanging o }
  | won {o : Except χ α} (hr : s.runner = .exchanging o) (hf : s.finished = false) :
      Change join s .exchange { s with finished := true, runner := .cancelling o }
  | lost {o : Except χ α} (hr : s.runner = .exchanging o) (hf : s.finished = true)
      (hj : join = false) :
      Change join s .exchange { s with runner := .dropping }
  | lostJoined {o : Except χ α} (hr : s.runner = .exchanging o) (hf : s.finished = true)
      (hj : join = true) :
      Change join s .exchange { s with runner := .reporting }
  | cancel {o : Except χ α} (hr : s.runner = .cancelling o) :
      Change join s .cancel { s.cancelTimer with runner := .writing o }
  | write {a : α} (hr : s.runner = .writing (.ok a)) :
      Change join s (.write none) { s with result := some a, runner := .publishing }
  | writeThrown {a : α} {y : χ} (hr : s.runner = .writing (.ok a)) :
      Change join s (.write (some y)) { s with exception := some (.other y), runner := .publishing }
  | writeError {x : χ} (hr : s.runner = .writing (.error x)) :
      Change join s (.write none) { s with exception := some (.other x), runner := .publishing }
  | publish (hr : s.runner = .publishing) : Change join s .publish { s with
          latch := s.latch.publish.1
          runner := if s.latch.publish.2 then .waking else .dropping }
  | report (hr : s.runner = .reporting) (ht : s.timeoutRecorded = false) :
      Change join s .report { s with runnerDone := true, runner := .dropping }
  | reportLast (hr : s.runner = .reporting) (ht : s.timeoutRecorded = true) : Change join s .report
        { s with
          runnerDone := true
          latch := s.latch.publish.1
          runner := if s.latch.publish.2 then .waking else .dropping }
  | wake (hr : s.runner = .waking) :
      Change join s .wake { s with latch := s.latch.run, runner := .dropping }
  | drop (hr : s.runner = .dropping) : Change join s .drop { s.drop with runner := .gone }
  | fire (ht : s.timer = .armed) : Change join s .fire { s with timer := .exchanging }
  | timerWon (ht : s.timer = .exchanging) (hf : s.finished = false) :
      Change join s .expire { s with finished := true, timer := .judging }
  | timerLost (ht : s.timer = .exchanging) (hf : s.finished = true) :
      Change join s .expire { s with timer := .dropping }
  | judge {dead : Bool} (ht : s.timer = .judging) : Change join s (.judge dead)
        { s with stopped := true, timer := .recording (if dead then .reactorError else .timeout) }
  | record {x : Failure χ} (ht : s.timer = .recording x) (hj : join = false) :
      Change join s .record { s with exception := some x, timer := .publishing }
  | recordJoined {x : Failure χ} (ht : s.timer = .recording x) (hj : join = true)
      (hd : s.runnerDone = false) :
      Change join s .record
        { s with exception := some x, timeoutRecorded := true, timer := .dropping }
  | recordLast {x : Failure χ} (ht : s.timer = .recording x) (hj : join = true)
      (hd : s.runnerDone = true) :
      Change join s .record { s with
          exception := some x
          timeoutRecorded := true
          latch := s.latch.publish.1
          timer := if s.latch.publish.2 then .waking else .dropping }
  | timerPublish (ht : s.timer = .publishing) : Change join s .timerPublish { s with
          latch := s.latch.publish.1
          timer := if s.latch.publish.2 then .waking else .dropping }
  | timerWake (ht : s.timer = .waking) :
      Change join s .timerWake { s with latch := s.latch.run, timer := .dropping }
  | timerDrop (ht : s.timer = .dropping) :
      Change join s .timerDrop { s.drop with timer := .closing }
  | timerClose (ht : s.timer = .closing) :
      Change join s .timerClose { s with refs := s.refs - 1, timer := .gone }

theorem change_of_step {join : Bool} {s t : State α χ} {e : Event α χ}
    (h : step join s e = some t) : Change join s e t := by
  cases e with (simp only [step] at h; repeat' first | cases h | split at h)
  | failReport =>
    by_cases ht : s.timeoutRecorded = true
    · rw [State.runnerFinishedLate, if_pos ht]
      exact .failReportLast ‹_› ht
    · rw [State.runnerFinishedLate, if_neg ht]
      exact .failReport ‹_› (by simpa using ht)
  | report =>
    by_cases ht : s.timeoutRecorded = true
    · rw [State.runnerFinishedLate, if_pos ht]
      exact .reportLast ‹_› ht
    · rw [State.runnerFinishedLate, if_neg ht]
      exact .report ‹_› (by simpa using ht)
  | record =>
    first
    | exact .record ‹_› (by simp_all)
    | by_cases hd : s.runnerDone = true
      · rw [State.recordTimeout, if_pos hd]
        exact .recordLast ‹_› ‹join = true› hd
      · rw [State.recordTimeout, if_neg hd]
        exact .recordJoined ‹_› ‹join = true› (by simpa using hd)
  | _ => constructor <;> first | assumption | simp_all

end Manwe.Timeout
