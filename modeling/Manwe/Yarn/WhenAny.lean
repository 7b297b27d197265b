import Mathlib
import Manwe.Yarn.WhenAnyAwaiter

/-!
# Racing tasks

`whenAny` spawns one runner per task and awaits the first that finishes. A runner whose task has
ended exchanges `finished`; whoever finds it unset is the **winner** and alone writes the index and
the result or exception. Then it settles: by default the winner publishes, in joined mode every
runner decrements `remaining` and the last one publishes. If spawning fails after some of the
runners, `failWhenAny` takes part in the race for `finished` on the caller's own thread; in joined
mode it also takes the runners that were never spawned out of `remaining`.

The steps of the model are the single atomic accesses, the writes between them and the sections
under the lock, so that runners, the spawning loop and the caller's awaiter interleave between any
two of them. How a task ends, whether moving its value throws and where spawning fails is up to the
event. The `void` form is the case of a unit value. `Change` lists what a step can do.
-/

namespace Manwe.WhenAny

open WhenAnyAwaiter (Latch)

variable {α χ : Type*}

/-! ### Runners, caller and their steps -/

/-- Where a runner stands. -/
inductive RunnerPc (α : Type*) (χ : Type*)
  | unspawned
  | working
  /-- the task has ended; the exchange of `finished` comes next -/
  | exchanging (o : Except χ α)
  /-- won: the branches are stopped and `winning_index` is written next -/
  | stamping (o : Except χ α)
  | writing (o : Except χ α)
  /-- `settleRunner` comes next -/
  | settling (won : Bool)
  | publishing
  /-- it has taken the caller's handle -/
  | waking
  | ended

/-- Where the caller stands in its spawning loop and in `failWhenAny`; the number is that of the
runners spawned. -/
inductive LoopPc (χ : Type*)
  | spawning (k : ℕ)
  | failing (k : ℕ) (x : χ)
  /-- won: the exception is written next -/
  | failWriting (k : ℕ) (x : χ)
  | failCounting (k : ℕ)
  | failPublishing
  | ended

structure State (α : Type*) (χ : Type*) where
  finished : Bool := false
  winningIndex : ℕ := 0
  result : Option α := none
  exception : Option χ := none
  stopped : Bool := false
  remaining : ℕ
  loop : LoopPc χ := .spawning 0
  runners : ℕ → RunnerPc α χ := fun _ => .unspawned
  latch : Latch := {}
  /-- what the caller got -/
  seen : Option (Except χ (ℕ × Option α)) := none

/-- A race of `n` tasks. -/
def init (n : ℕ) : State α χ := { remaining := n }

inductive Event (α : Type*) (χ : Type*)
  | spawn
  | spawnFail (x : χ)
  | failExchange
  | failWrite
  | failCount
  | failPublish
  | awaitReady
  | awaitSuspend
  | awaitResume
  | destroy
  | finish (i : ℕ) (o : Except χ α)
  | exchange (i : ℕ)
  | stamp (i : ℕ)
  /-- the winner writes its outcome; moving a value may throw -/
  | write (i : ℕ) (thrown : Option χ)
  | settle (i : ℕ)
  | publish (i : ℕ)
  | wake (i : ℕ)

namespace State

@[simp] def put (s : State α χ) (i : ℕ) (r : RunnerPc α χ) : State α χ :=
  { s with runners := Function.update s.runners i r }

/-- The loop is left and the awaiter is built. -/
def endLoop (s : State α χ) : State α χ :=
  { s with loop := .ended, latch := { s.latch with pc := .awaiting } }

/-- What `await_resume` and the lines after it make of the shared state. -/
def outcome (s : State α χ) : Except χ (ℕ × Option α) := match s.exception with
  | some x => .error x
  | none => .ok (s.winningIndex, s.result)

end State

/-- One step of a race of `n` tasks, in joined mode or not. -/
def step (n : ℕ) (join : Bool) (s : State α χ) : Event α χ → Option (State α χ)
  | .spawn =>
    match s.loop with
    | .spawning k =>
      if k + 1 < n then some { s.put k .working with loop := .spawning (k + 1) }
      else some (s.put k .working).endLoop
    | _ => none
  | .spawnFail x =>
    match s.loop with
    | .spawning k => some { s with loop := .failing k x }
    | _ => none
  | .failExchange =>
    match s.loop with
    | .failing k x =>
      if s.finished then
        if join then some { s with loop := .failCounting k } else some s.endLoop
      else some { s with finished := true, loop := .failWriting k x }
    | _ => none
  | .failWrite =>
    match s.loop with
    | .failWriting k x =>
      let s := { s with stopped := true, exception := some x }
      if join then some { s with loop := .failCounting k }
      else some { s with loop := .failPublishing }
    | _ => none
  | .failCount =>
    match s.loop with
    | .failCounting k =>
      -- `fetch_sub` returns the old value
      if s.remaining = n - k then
        some { s with remaining := s.remaining - (n - k), loop := .failPublishing }
      else some { s with remaining := s.remaining - (n - k) }.endLoop
    | _ => none
  | .failPublish =>
    match s.loop with
    | .failPublishing => some ({ s with latch := s.latch.publishOnly }).endLoop
    | _ => none
  | .awaitReady =>
    if s.latch.pc = .awaiting then some { s with latch := s.latch.awaitReady } else none
  | .awaitSuspend =>
    if s.latch.pc = .looked then some { s with latch := s.latch.awaitSuspend } else none
  | .awaitResume =>
    if s.latch.pc = .resuming then
      some { s with latch := { s.latch with pc := .returned }, seen := some s.outcome }
    else none
  | .destroy =>
    if s.latch.pc = .parked then some { s with latch := s.latch.destroy, stopped := true }
    else none
  | .finish i o =>
    match s.runners i with
    | .working => some (s.put i (.exchanging o))
    | _ => none
  | .exchange i =>
    match s.runners i with
    | .exchanging o =>
      if s.finished then some (s.put i (.settling false))
      else some { s.put i (.stamping o) with finished := true }
    | _ => none
  | .stamp i =>
    match s.runners i with
    | .stamping o => some { s.put i (.writing o) with stopped := true, winningIndex := i }
    | _ => none
  | .write i thrown =>
    match s.runners i, thrown with
    | .writing (.ok a), none => some { s.put i (.settling true) with result := some a }
    | .writing (.ok _), some y => some { s.put i (.settling true) with exception := some y }
    | .writing (.error x), none => some { s.put i (.settling true) with exception := some x }
    | _, _ => none
  | .settle i =>
    match s.runners i with
    | .settling won =>
      if join then
        if s.remaining = 1 then
          some { s.put i .publishing with remaining := s.remaining - 1 }
        else some { s.put i .ended with remaining := s.remaining - 1 }
      else if won then some (s.put i .publishing)
      else some (s.put i .ended)
    | _ => none
  | .publish i =>
    match s.runners i with
    | .publishing =>
      some { s.put i (if s.latch.publish.2 then .waking else .ended) with
        latch := s.latch.publish.1 }
    | _ => none
  | .wake i =>
    match s.runners i with
    | .waking => some { s.put i .ended with latch := s.latch.run }
    | _ => none

/-! ### What a step can do -/

/-- **The steps**, one constructor for each thing that can happen. -/
inductive Change (n : ℕ) (join : Bool) (s : State α χ) : Event α χ → State α χ → Prop
  | spawn {k : ℕ} (hl : s.loop = .spawning k) (hk : k + 1 < n) :
      Change n join s .spawn { s.put k .working with loop := .spawning (k + 1) }
  | spawnLast {k : ℕ} (hl : s.loop = .spawning k) (hk : ¬ k + 1 < n) :
      Change n join s .spawn (s.put k .working).endLoop
  | spawnFail {k : ℕ} {x : χ} (hl : s.loop = .spawning k) :
      Change n join s (.spawnFail x) { s with loop := .failing k x }
  | failWon {k : ℕ} {x : χ} (hl : s.loop = .failing k x) (hf : s.finished = false) :
      Change n join s .failExchange { s with finished := true, loop := .failWriting k x }
  | failLost {k : ℕ} {x : χ} (hl : s.loop = .failing k x) (hf : s.finished = true)
      (hj : join = false) : Change n join s .failExchange s.endLoop
  | failLostJoined {k : ℕ} {x : χ} (hl : s.loop = .failing k x) (hf : s.finished = true)
      (hj : join = true) : Change n join s .failExchange { s with loop := .failCounting k }
  | failWrite {k : ℕ} {x : χ} (hl : s.loop = .failWriting k x) (hj : join = false) :
      Change n join s .failWrite
        { s with stopped := true, exception := some x, loop := .failPublishing }
  | failWriteJoined {k : ℕ} {x : χ} (hl : s.loop = .failWriting k x) (hj : join = true) :
      Change n join s .failWrite
        { s with stopped := true, exception := some x, loop := .failCounting k }
  | failCountLast {k : ℕ} (hl : s.loop = .failCounting k) (hr : s.remaining = n - k) :
      Change n join s .failCount
        { s with remaining := s.remaining - (n - k), loop := .failPublishing }
  | failCount {k : ℕ} (hl : s.loop = .failCounting k) (hr : s.remaining ≠ n - k) :
      Change n join s .failCount ({ s with remaining := s.remaining - (n - k) }).endLoop
  | failPublish (hl : s.loop = .failPublishing) :
      Change n join s .failPublish ({ s with latch := s.latch.publishOnly }).endLoop
  | awaitReady (hc : s.latch.pc = .awaiting) :
      Change n join s .awaitReady { s with latch := s.latch.awaitReady }
  | awaitSuspend (hc : s.latch.pc = .looked) :
      Change n join s .awaitSuspend { s with latch := s.latch.awaitSuspend }
  | awaitResume (hc : s.latch.pc = .resuming) : Change n join s .awaitResume
        { s with latch := { s.latch with pc := .returned }, seen := some s.outcome }
  | destroy (hc : s.latch.pc = .parked) :
      Change n join s .destroy { s with latch := s.latch.destroy, stopped := true }
  | finish {i : ℕ} {o : Except χ α} (hi : s.runners i = .working) :
      Change n join s (.finish i o) (s.put i (.exchanging o))
  | won {i : ℕ} {o : Except χ α} (hi : s.runners i = .exchanging o) (hf : s.finished = false) :
      Change n join s (.exchange i) { s.put i (.stamping o) with finished := true }
  | lost {i : ℕ} {o : Except χ α} (hi : s.runners i = .exchanging o) (hf : s.finished = true) :
      Change n join s (.exchange i) (s.put i (.settling false))
  | stamp {i : ℕ} {o : Except χ α} (hi : s.runners i = .stamping o) :
      Change n join s (.stamp i) { s.put i (.writing o) with stopped := true, winningIndex := i }
  | write {i : ℕ} {a : α} (hi : s.runners i = .writing (.ok a)) :
      Change n join s (.write i none) { s.put i (.settling true) with result := some a }
  | writeThrown {i : ℕ} {a : α} {y : χ} (hi : s.runners i = .writing (.ok a)) :
      Change n join s (.write i (some y)) { s.put i (.settling true) with exception := some y }
  | writeError {i : ℕ} {x : χ} (hi : s.runners i = .writing (.error x)) :
      Change n join s (.write i none) { s.put i (.settling true) with exception := some x }
  | settleLast {i : ℕ} {won : Bool} (hi : s.runners i = .settling won) (hj : join = true)
      (hr : s.remaining = 1) :
      Change n join s (.settle i) { s.put i .publishing with remaining := s.remaining - 1 }
  | settleJoined {i : ℕ} {won : Bool} (hi : s.runners i = .settling won) (hj : join = true)
      (hr : s.remaining ≠ 1) :
      Change n join s (.settle i) { s.put i .ended with remaining := s.remaining - 1 }
  | settleWon {i : ℕ} (hi : s.runners i = .settling true) (hj : join = false) :
      Change n join s (.settle i) (s.put i .publishing)
  | settleLost {i : ℕ} (hi : s.runners i = .settling false) (hj : join = false) :
      Change n join s (.settle i) (s.put i .ended)
  | publish {i : ℕ} (hi : s.runners i = .publishing) : Change n join s (.publish i)
        { s.put i (if s.latch.publish.2 then .waking else .ended) with
          latch := s.latch.publish.1 }
  | wake {i : ℕ} (hi : s.runners i = .waking) :
      Change n join s (.wake i) { s.put i .ended with latch := s.latch.run }

theorem change_of_step {n : ℕ} {join : Bool} {s t : State α χ} {e : Event α χ}
    (h : step n join s e = some t) : Change n join s e t := by
  cases e with (simp only [step] at h; repeat' first | cases h | split at h)
  | _ => constructor <;> first | assumption | simp_all

end Manwe.WhenAny
