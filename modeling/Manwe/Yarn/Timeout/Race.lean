import Mathlib
import Manwe.Yarn.Timeout

/-!
# Who wins a race with a deadline

Who has won `finished` says where the three parties can stand: `Undecided`, `RunnerWon`, `TimerWon`
and `SpawnerWon` are the four situations, each with the point at which the outcome is written and
published. In joined mode a timeout is published when it is recorded and the runner has reported,
which the two equations of `TimerWon` on `published` and `runnerDone` say in whatever order the two
happen.
-/

namespace Manwe.Timeout

variable {α χ : Type*}

/-! ### Who wins -/

/-- Who has won `finished`. -/
inductive Winner (α : Type*) (χ : Type*)
  | runner (o : Except χ α)
  | timer
  | spawner (x : χ)

/-- What the timer makes of a look at the event loop. -/
def verdict (deads : List Bool) : Failure χ :=
  if deads.head? = some true then .reactorError else .timeout

/-- What the caller is to get: `thrown` is what moving the value threw, `deads` what the timer saw
of the event loop. -/
@[simp] def Winner.outcome : Winner α χ → (thrown : List χ) → (deads : List Bool) →
    Except (Failure χ) (Option α)
  | .runner (.ok a), [], _ => .ok (some a)
  | .runner (.ok _), y :: _, _ => .error (.other y)
  | .runner (.error x), _, _ => .error (.other x)
  | .timer, _, deads => .error (verdict deads)
  | .spawner x, _, _ => .error (.other x)

/-- The step wins `finished`. -/
def winsAt (s : State α χ) : Event α χ → List (Winner α χ)
  | .exchange =>
    match s.runner with
    | .exchanging o => if s.finished then [] else [.runner o]
    | _ => []
  | .expire => if s.finished then [] else [.timer]
  | .failExchange =>
    match s.loop with
    | .failing x => if s.finished then [] else [.spawner x]
    | _ => []
  | _ => []

def throwsAt (_ : State α χ) : Event α χ → List χ
  | .write (some y) => [y]
  | _ => []

def deadsAt (_ : State α χ) : Event α χ → List Bool
  | .judge dead => [dead]
  | _ => []

@[simp] def RunnerPc.fresh : RunnerPc α χ → Bool
  | .unspawned | .working | .exchanging _ => true
  | _ => false

/-- Where a runner that has not won can stand. -/
@[simp] def RunnerPc.lost : RunnerPc α χ → Bool
  | .cancelling _ | .writing _ | .publishing => false
  | _ => true

/-- A runner here has published or reported, if it had to. -/
@[simp] def RunnerPc.late : RunnerPc α χ → Bool
  | .waking | .dropping | .gone => true
  | _ => false

def TimerPc.fresh : TimerPc χ → Bool
  | .none | .armed | .exchanging => true
  | _ => false

/-- Where a timer that has not won can stand. -/
@[simp] def TimerPc.lost : TimerPc χ → Bool
  | .judging | .recording _ | .publishing | .waking => false
  | _ => true

def TimerPc.late : TimerPc χ → Bool
  | .waking | .dropping | .closing | .gone => true
  | _ => false

@[simp] def LoopPc.fresh : LoopPc χ → Bool
  | .arming | .spawning | .failing _ | .ended => true
  | _ => false

/-- Where a spawner that has not won can stand once there is a timer. -/
@[simp] def LoopPc.lost : LoopPc χ → Bool
  | .spawning | .failing _ | .failReporting | .failWaking | .failCancelling | .ended => true
  | _ => false

/-- The runner is gone, or it was reported that it will never run. -/
@[simp] def State.reported (s : State α χ) : Bool := match s.loop, s.runner with
  | .failWaking, _ | .failCancelling, _ | .ended, .unspawned => true
  | _, r => r.late

/-- Nobody has exchanged `finished`. -/
structure Undecided (s : State α χ) : Prop where
  finished : s.finished = false
  published : s.latch.published = false
  result : s.result = none
  exception : s.exception = none
  recorded : s.timeoutRecorded = false
  done : s.runnerDone = false
  runner : s.runner.fresh = true
  timer : s.timer.fresh = true
  loop : s.loop.fresh = true
  spawned : s.runner = .unspawned ↔ s.loop ≠ .ended
  armed : s.loop = .arming → s.timer = .none

namespace Undecided

variable {s : State α χ} (h : Undecided s)

include h

theorem runner_lost : s.runner.lost = true := by
  match s.runner, h.runner with
  | .unspawned, _ | .working, _ | .exchanging _, _ => rfl

theorem timer_lost : s.timer.lost = true := by
  match s.timer, h.timer with
  | .none, _ | .armed, _ | .exchanging, _ => rfl

theorem loop_lost (hne : s.loop ≠ .arming) : s.loop.lost = true := by
  match hs : s.loop, h.loop with
  | .arming, _ => exact absurd hs hne
  | .spawning, _ | .failing _, _ | .ended, _ => rfl

theorem not_reporting : s.runner ≠ .reporting ∧ s.runner ≠ .waking ∧ s.loop ≠ .failReporting ∧
      s.loop ≠ .failWaking := by
  have hl := h.loop
  have hr := h.runner
  refine ⟨?_, ?_, ?_, ?_⟩
  all_goals
    intro hs
    simp [hs] at hl hr

theorem not_reported : s.reported = false := by
  have hl := h.loop
  have hr := h.runner
  have hsp := h.spawned
  unfold State.reported
  split
  case h_1 hs | h_2 hs => simp [hs] at hl
  case h_3 hs hu => simp [hs, hu] at hsp
  case h_4 =>
    match s.runner, hr with
    | .unspawned, _ | .working, _ | .exchanging _, _ => rfl

end Undecided

/-- The runner has won with `o`. -/
structure RunnerWon (s : State α χ) (o : Except χ α) (thrown : List χ) : Prop where
  finished : s.finished = true
  loop : s.loop = .ended
  timer : s.timer.lost = true
  recorded : s.timeoutRecorded = false
  done : s.runnerDone = false
  published : s.latch.published = s.runner.late
  stage : match s.runner with
    | .cancelling o' | .writing o' => o' = o ∧ thrown = [] ∧ s.result = none ∧ s.exception = none
    | .publishing | .waking | .dropping | .gone => s.outcome = (Winner.runner o).outcome thrown []
    | _ => False

/-- The timer has won. -/
structure TimerWon (join : Bool) (s : State α χ) (deads : List Bool) : Prop where
  finished : s.finished = true
  runner : s.runner.lost = true
  loop : s.loop.lost = true
  spawned : s.runner ≠ .unspawned → s.loop = .ended
  reports : join = false → s.runner ≠ .reporting ∧ s.runner ≠ .waking ∧
    s.loop ≠ .failReporting ∧ s.loop ≠ .failWaking
  done : s.runnerDone = (join && s.reported)
  recorded : s.timeoutRecorded = (join && s.timer.late)
  published : s.latch.published = (s.timer.late && (!join || s.runnerDone))
  stage : match s.timer with
    | .judging => deads = []
    | .recording x => x = verdict deads
    | .publishing => join = false ∧ s.exception = some (verdict deads)
    | .waking | .dropping | .closing | .gone => s.exception = some (verdict deads)
    | _ => False

namespace TimerWon

variable {join : Bool} {s : State α χ} {deads : List Bool}

variable (h : TimerWon join s deads)

include h

theorem unspawned (hl : s.loop ≠ .ended) : s.runner = .unspawned := by
  by_contra hr
  exact hl (h.spawned hr)

/-- Only in joined mode is there anything to report. -/
theorem joined_of_report (hs : s.runner = .reporting ∨ s.runner = .waking ∨
    s.loop = .failReporting ∨ s.loop = .failWaking) : join = true := by
  by_contra hj
  have hno := h.reports (by simpa using hj)
  tauto

/-- A timer that has won is not pending. -/
theorem cancelTimer : s.cancelTimer = s := by
  have ht := h.stage
  have hc : s.timer.cancel = s.timer := by
    cases hs : s.timer with
    | armed => simp [hs] at ht
    | _ => rfl
  rw [State.cancelTimer, hc]

end TimerWon

/-- Spawning has failed with `x`, and that has won. -/
structure SpawnerWon (s : State α χ) (x : χ) : Prop where
  finished : s.finished = true
  runner : s.runner = .unspawned
  timer : s.timer.lost = true
  recorded : s.timeoutRecorded = false
  done : s.runnerDone = false
  stage : match s.loop with
    | .failWriting y => y = x ∧ s.latch.published = false
    | .failPublishing => s.exception = some (.other x) ∧ s.latch.published = false
    | .failCancelling | .ended => s.exception = some (.other x) ∧ s.latch.published = true
    | _ => False

/-- **The race**: nobody has won, or one party has. -/
def Race (join : Bool) (s : State α χ) (wins : List (Winner α χ)) (thrown : List χ)
    (deads : List Bool) : Prop :=
  match wins with
  | [] => Undecided s ∧ thrown = [] ∧ deads = []
  | [.runner o] => RunnerWon s o thrown ∧ deads = []
  | [.timer] => TimerWon join s deads ∧ thrown = []
  | [.spawner x] => SpawnerWon s x ∧ thrown = [] ∧ deads = []
  | _ => False

section Steps

variable {join : Bool} {s t : State α χ} {e : Event α χ}

theorem undecided_step (h : Undecided s) (hc : Change join s e t) :
    Race join t (winsAt s e) (throwsAt s e) (deadsAt s e) := by
  have hloop := h.loop
  have hrun := h.runner
  have htim := h.timer
  cases hc with
  | arm hl =>
    refine ⟨{ h with timer := rfl, loop := rfl, spawned := ?_, armed := nofun }, rfl, rfl⟩
    simpa [hl] using h.spawned
  | armFail hl | spawnFail hl =>
    refine ⟨{ h with loop := rfl, spawned := ?_, armed := nofun }, rfl, rfl⟩
    simpa [hl] using h.spawned
  | spawn =>
    refine ⟨{ h with runner := rfl, loop := rfl, spawned := ?_, armed := nofun }, rfl, rfl⟩
    simp
  | awaitReady | awaitResume | release => exact ⟨{ h with }, rfl, rfl⟩
  | awaitSuspend | destroy => exact ⟨{ h with published := by simpa using h.published }, rfl, rfl⟩
  | finish hr =>
    refine ⟨{ h with runner := rfl, spawned := ?_ }, rfl, rfl⟩
    simpa [hr] using h.spawned
  | fire ht =>
    refine ⟨{ h with timer := rfl, armed := fun hl => ?_ }, rfl, rfl⟩
    simpa [ht] using h.armed hl
  | won hr hf =>
    simp only [winsAt, hr, hf]
    refine ⟨⟨rfl, ?_, h.timer_lost, h.recorded, h.done, h.published,
      ⟨rfl, rfl, h.result, h.exception⟩⟩, rfl⟩
    simpa [hr] using h.spawned
  | timerWon ht hf =>
    simp only [winsAt, hf]
    have hne : s.loop ≠ .arming := fun hl => by simpa [ht] using h.armed hl
    refine ⟨⟨rfl, h.runner_lost, h.loop_lost hne, ?_, fun _ => h.not_reporting, ?_, ?_, ?_, rfl⟩,
      rfl⟩
    · intro hr
      by_contra hl
      exact hr (h.spawned.mpr hl)
    · change s.runnerDone = (join && s.reported)
      rw [h.done, h.not_reported, Bool.and_false]
    · simp [h.recorded, TimerPc.late]
    · simp [h.published, TimerPc.late]
  | failWon hl hf =>
    simp only [winsAt, hl, hf]
    exact ⟨⟨rfl, h.spawned.mpr (by simp [hl]), h.timer_lost, h.recorded, h.done, rfl, h.published⟩,
      rfl, rfl⟩
  | failLost _ hf | failLostJoined _ hf | lost _ hf | lostJoined _ hf | timerLost _ hf =>
    simp [h.finished] at hf
  | failWrite hl | failPublish hl | failReport hl | failReportLast hl | failWake hl
  | failCancel hl => simp [hl] at hloop
  | cancel hr | write hr | writeThrown hr | writeError hr | publish hr | report hr | reportLast hr
  | wake hr | drop hr => simp [hr] at hrun
  | judge ht | record ht | recordJoined ht | recordLast ht | timerPublish ht | timerWake ht
  | timerDrop ht | timerClose ht => simp [ht, TimerPc.fresh] at htim

theorem timer_lost_cancel {t : TimerPc χ} (h : t.lost = true) : t.cancel.lost = true := by
  cases t <;> simp_all [TimerPc.cancel]

/-- **After the runner has won**, it alone writes and publishes. -/
theorem runnerWon_step {o : Except χ α} {thrown : List χ} (h : RunnerWon s o thrown)
    (hc : Change join s e t) :
    winsAt s e = [] ∧ deadsAt s e = [] ∧ RunnerWon t o (thrown ++ throwsAt s e) := by
  have htim := h.timer
  have hstage := h.stage
  have hpub := h.published
  cases hc with simp only [winsAt, throwsAt, deadsAt, List.append_nil, true_and]
  | arm hl | armFail hl | spawn hl | spawnFail hl | failWon hl | failLost hl | failLostJoined hl
  | failWrite hl | failPublish hl | failReport hl | failReportLast hl | failWake hl
  | failCancel hl => simp [h.loop] at hl
  | won _ hf | timerWon _ hf => simp [h.finished] at hf
  | finish hr | lost hr | lostJoined hr | report hr | reportLast hr => simp [hr] at hstage
  | judge ht | record ht | recordJoined ht | recordLast ht | timerPublish ht | timerWake ht =>
    simp [ht] at htim
  | awaitReady | awaitResume | release => exact { h with }
  | awaitSuspend | destroy => exact { h with published := by simpa using hpub }
  | cancel hr =>
    rw [hr] at hstage hpub
    exact { h with timer := timer_lost_cancel htim, published := hpub, stage := hstage }
  | write hr =>
    rw [hr] at hstage hpub
    obtain ⟨rfl, rfl, -, hx⟩ := hstage
    exact { h with published := hpub, stage := by simp [hx] }
  | writeThrown hr | writeError hr =>
    rw [hr] at hstage hpub
    obtain ⟨rfl, rfl, -, -⟩ := hstage
    exact { h with published := hpub, stage := rfl }
  | publish hr =>
    rw [hr] at hstage
    cases s.latch.publish.2 with
    | false | true => exact { h with published := rfl, stage := hstage }
  | wake hr | drop hr =>
    rw [hr] at hstage hpub
    exact { h with published := by simpa using hpub, stage := hstage }
  | fire | timerDrop | timerClose => exact { h with timer := rfl }
  | timerLost => exact ⟨by simp [h.finished], { h with timer := rfl }⟩

/-- **After the spawner has won**, there is no runner, and the timer finds the race decided. -/
theorem spawnerWon_step {x : χ} (h : SpawnerWon s x) (hc : Change join s e t) :
    winsAt s e = [] ∧ throwsAt s e = [] ∧ deadsAt s e = [] ∧ SpawnerWon t x := by
  have htim := h.timer
  have hstage := h.stage
  cases hc with simp only [winsAt, throwsAt, deadsAt, true_and]
  | finish hr | won hr | lost hr | lostJoined hr | cancel hr | write hr | writeThrown hr
  | writeError hr | publish hr | report hr | reportLast hr | wake hr | drop hr =>
    simp [h.runner] at hr
  | arm hl | armFail hl | spawn hl | spawnFail hl | failWon hl | failLost hl | failLostJoined hl
  | failReport hl | failReportLast hl | failWake hl => simp [hl] at hstage
  | timerWon _ hf => simp [h.finished] at hf
  | judge ht | record ht | recordJoined ht | recordLast ht | timerPublish ht | timerWake ht =>
    simp [ht] at htim
  | failWrite hl =>
    rw [hl] at hstage
    obtain ⟨rfl, hp⟩ := hstage
    exact { h with stage := ⟨rfl, hp⟩ }
  | failPublish hl =>
    rw [hl] at hstage
    exact { h with stage := ⟨hstage.1, rfl⟩ }
  | failCancel hl =>
    rw [hl] at hstage
    exact { h with timer := timer_lost_cancel htim, stage := hstage }
  | awaitReady | awaitResume | release => exact { h with }
  | awaitSuspend | destroy => exact { h with stage := by simpa using hstage }
  | fire | timerDrop | timerClose => exact { h with timer := rfl }
  | timerLost => exact ⟨by simp [h.finished], { h with timer := rfl }⟩

/-- **After the timer has won**, it records the timeout, and the runner or the spawner reports. -/
theorem timerWon_step {deads : List Bool} (h : TimerWon join s deads) (hc : Change join s e t) :
    winsAt s e = [] ∧ throwsAt s e = [] ∧ TimerWon join t (deads ++ deadsAt s e) := by
  have hrun := h.runner
  have hloop := h.loop
  have hstage := h.stage
  have hdone := h.done
  have hrec := h.recorded
  have hpub := h.published
  cases hc with simp only [winsAt, throwsAt, deadsAt, List.append_nil, true_and]
  | arm hl | armFail hl | failWrite hl | failPublish hl => simp [hl] at hloop
  | won _ hf | failWon _ hf | timerWon _ hf => simp [h.finished] at hf
  | cancel hr | write hr | writeThrown hr | writeError hr | publish hr => simp [hr] at hrun
  | fire ht | timerLost ht => simp [ht] at hstage
  | awaitReady | awaitResume | release => exact { h with }
  | awaitSuspend | destroy => exact { h with published := by simpa using hpub }
  | spawn hl =>
    have hu := h.unspawned (by simp [hl])
    refine { h with runner := rfl, loop := rfl, spawned := fun _ => rfl, reports := ?_, done := ?_ }
    · exact fun _ => ⟨nofun, nofun, nofun, nofun⟩
    · simpa [hl, hu] using hdone
  | spawnFail hl =>
    have hu := h.unspawned (by simp [hl])
    refine { h with loop := rfl, spawned := ?_, reports := ?_, done := ?_ }
    · exact absurd hu
    · exact fun hj => ⟨(h.reports hj).1, (h.reports hj).2.1, nofun, nofun⟩
    · simpa [hl, hu] using hdone
  | failLost hl hf hj | failLostJoined hl hf hj =>
    have hu := h.unspawned (by simp [hl])
    refine ⟨by simp [hl, hf], { h with loop := rfl, spawned := ?_, reports := ?_, done := ?_ }⟩
    · exact absurd hu
    · have hr := h.reports
      simp_all
    · simpa [hj, hl, hu] using hdone
  | failReport hl ht | failReportLast hl ht =>
    have hu := h.unspawned (by simp [hl])
    have hj := h.joined_of_report (.inr (.inr (.inl hl)))
    have hlate : s.timer.late = s.timeoutRecorded := by simp [hrec, hj]
    rw [ht] at hlate
    cases s.latch.publish.2
    all_goals exact { h with
      loop := rfl
      spawned := absurd hu
      reports := by simp [hj]
      done := by simp [hj]
      published := by simp [hlate, hpub] }
  | failWake hl =>
    have hu := h.unspawned (by simp [hl])
    have hj := h.joined_of_report (.inr (.inr (.inr hl)))
    exact { h with
      loop := rfl
      spawned := absurd hu
      reports := by simp [hj]
      done := by simpa [hl] using hdone
      published := s.latch.run_published.trans hpub }
  | failCancel hl =>
    have hu := h.unspawned (by simp [hl])
    rw [h.cancelTimer]
    refine { h with loop := rfl, spawned := fun _ => rfl, reports := fun hj => ?_, done := ?_ }
    · exact ⟨(h.reports hj).1, (h.reports hj).2.1, nofun, nofun⟩
    · simpa [hl, hu] using hdone
  | finish hr | drop hr =>
    have hl := h.spawned (by simp [hr])
    refine { h with runner := rfl, spawned := fun _ => hl, reports := fun hj => ?_, done := ?_ }
    · exact ⟨nofun, nofun, (h.reports hj).2.2⟩
    · simpa [hl, hr] using hdone
  | lost hr hf hj | lostJoined hr hf hj =>
    have hl := h.spawned (by simp [hr])
    refine ⟨by simp [hr, hf],
      { h with runner := rfl, spawned := fun _ => hl, reports := ?_, done := ?_ }⟩
    · simp [hj, hl]
    · simpa [hj, hl, hr] using hdone
  | report hr ht | reportLast hr ht =>
    have hl := h.spawned (by simp [hr])
    have hj := h.joined_of_report (.inl hr)
    have hlate : s.timer.late = s.timeoutRecorded := by simp [hrec, hj]
    rw [ht] at hlate
    cases s.latch.publish.2
    all_goals exact { h with
      runner := rfl
      spawned := fun _ => hl
      reports := by simp [hj]
      done := by simp [hj, hl]
      published := by simp [hlate, hpub] }
  | wake hr =>
    have hl := h.spawned (by simp [hr])
    have hj := h.joined_of_report (.inr (.inl hr))
    exact { h with
      runner := rfl
      spawned := fun _ => hl
      reports := by simp [hj]
      done := by simpa [hl, hr] using hdone
      published := s.latch.run_published.trans hpub }
  | judge ht =>
    rw [ht] at hstage hrec hpub
    obtain rfl := hstage
    exact { h with recorded := hrec, published := hpub, stage := by simp [verdict] }
  | record ht hj =>
    rw [ht] at hstage hpub
    exact { h with
      recorded := by simpa [hj] using hrec
      published := hpub
      stage := ⟨hj, congrArg some hstage⟩ }
  | recordJoined ht hj hd =>
    rw [ht] at hstage hpub
    exact { h with
      recorded := by simp [hj, TimerPc.late]
      published := by simpa [hj, hd, TimerPc.late] using hpub
      stage := congrArg some hstage }
  | recordLast ht hj hd =>
    rw [ht] at hstage
    cases s.latch.publish.2
    all_goals exact { h with
      recorded := by simp [hj, TimerPc.late]
      published := by simp [hd, TimerPc.late]
      stage := congrArg some hstage }
  | timerPublish ht =>
    rw [ht] at hstage
    cases s.latch.publish.2
    all_goals exact { h with
      recorded := by simpa [hstage.1] using hrec
      published := by simp [hstage.1, TimerPc.late]
      stage := hstage.2 }
  | timerWake ht | timerDrop ht | timerClose ht =>
    rw [ht] at hstage hrec hpub
    exact { h with
      recorded := hrec
      published := by simpa [TimerPc.late] using hpub
      stage := hstage }

end Steps

/-- **A step keeps the race.** -/
theorem race_step {join : Bool} {s t : State α χ} {e : Event α χ} {wins : List (Winner α χ)}
    {thrown : List χ} {deads : List Bool} (h : Race join s wins thrown deads)
    (hc : Change join s e t) :
    Race join t (wins ++ winsAt s e) (thrown ++ throwsAt s e) (deads ++ deadsAt s e) := by
  match wins, h with
  | [], ⟨hu, hx, hd⟩ =>
    subst hx hd
    exact undecided_step hu hc
  | [.runner o], ⟨h, hd⟩ =>
    obtain ⟨hw, hd', ht⟩ := runnerWon_step h hc
    rw [hw, hd, hd']
    exact ⟨ht, rfl⟩
  | [.timer], ⟨h, hx⟩ =>
    obtain ⟨hw, hx', ht⟩ := timerWon_step h hc
    rw [hw, hx, hx']
    exact ⟨ht, rfl⟩
  | [.spawner x], ⟨h, hx, hd⟩ =>
    obtain ⟨hw, hx', hd', ht⟩ := spawnerWon_step h hc
    rw [hw, hx, hx', hd, hd']
    exact ⟨ht, rfl, rfl⟩

namespace Race

variable {join : Bool} {s : State α χ} {wins : List (Winner α χ)} {thrown : List χ}
  {deads : List Bool}

variable (h : Race join s wins thrown deads)

include h

/-- There is no timer before one is armed, -/
theorem timer_of_arming (hl : s.loop = .arming) : s.timer = .none := by
  match wins, h with
  | [], ⟨h, _⟩ => exact h.armed hl
  | [.runner o], ⟨h, _⟩ => simp [h.loop] at hl
  | [.timer], ⟨h, _⟩ =>
    have hloop := h.loop
    simp [hl] at hloop
  | [.spawner x], ⟨h, _⟩ =>
    have hstage := h.stage
    simp [hl] at hstage

/-- and no runner before one is spawned. -/
theorem runner_of_spawning (hl : s.loop = .spawning) : s.runner = .unspawned := by
  match wins, h with
  | [], ⟨h, _⟩ => exact h.spawned.mpr (by simp [hl])
  | [.runner o], ⟨h, _⟩ => simp [h.loop] at hl
  | [.timer], ⟨h, _⟩ => exact h.unspawned (by simp [hl])
  | [.spawner x], ⟨h, _⟩ => exact h.runner

/-- **Nobody publishes twice.** -/
theorem not_published
    (hs : s.runner = .publishing ∨ s.runner = .reporting ∨ s.loop = .failReporting ∨
      s.timer = .publishing ∨ ∃ x, s.timer = .recording x) :
    s.latch.published = false := by
  match wins, h with
  | [], ⟨h, _⟩ => exact h.published
  | [.runner o], ⟨h, _⟩ =>
    have hstage := h.stage
    have htim := h.timer
    rcases hs with hs | hs | hs | hs | ⟨x, hs⟩
    · rw [h.published, hs]
      rfl
    · simp [hs] at hstage
    · simp [h.loop] at hs
    · simp [hs] at htim
    · simp [hs] at htim
  | [.timer], ⟨h, _⟩ =>
    have hrun := h.runner
    rcases hs with hs | hs | hs | hs | ⟨x, hs⟩
    · simp [hs] at hrun
    · have hl := h.spawned (by simp [hs])
      simp [h.published, h.done, hs, hl, h.joined_of_report (.inl hs)]
    · have hu := h.unspawned (by simp [hs])
      simp [h.published, h.done, hs, hu, h.joined_of_report (.inr (.inr (.inl hs)))]
    · simp [h.published, hs, TimerPc.late]
    · simp [h.published, hs, TimerPc.late]
  | [.spawner x], ⟨h, _⟩ =>
    have hstage := h.stage
    have htim := h.timer
    rcases hs with hs | hs | hs | hs | ⟨x, hs⟩
    · simp [h.runner] at hs
    · simp [h.runner] at hs
    · simp [hs] at hstage
    · simp [hs] at htim
    · simp [hs] at htim

/-- Nothing is published while the winner still writes. -/
theorem not_published_of_writing
    (hs : (∃ o, s.runner = .writing o) ∨ ∃ x, s.loop = .failWriting x) :
    s.latch.published = false := by
  match wins, h with
  | [], ⟨h, _⟩ => exact h.published
  | [.runner o], ⟨h, _⟩ =>
    rcases hs with ⟨o', hs⟩ | ⟨x, hs⟩
    · rw [h.published, hs]
      rfl
    · simp [h.loop] at hs
  | [.timer], ⟨h, _⟩ =>
    have hrun := h.runner
    have hloop := h.loop
    rcases hs with ⟨o', hs⟩ | ⟨x, hs⟩
    · simp [hs] at hrun
    · simp [hs] at hloop
  | [.spawner x], ⟨h, _⟩ =>
    have hstage := h.stage
    rcases hs with ⟨o', hs⟩ | ⟨x, hs⟩
    · simp [h.runner] at hs
    · rw [hs] at hstage
      exact hstage.2

/-- **A published outcome has been written by the winner.** -/
theorem written (hp : s.latch.published = true) :
    ∃ x, wins = [x] ∧ s.outcome = x.outcome thrown deads := by
  match wins, h with
  | [], ⟨h, _⟩ => simp [h.published] at hp
  | [.runner o], ⟨h, hd⟩ =>
    refine ⟨_, rfl, ?_⟩
    have hstage := h.stage
    rw [hd]
    rw [h.published] at hp
    match hs : s.runner, hp with
    | .waking, _ | .dropping, _ | .gone, _ => simpa [hs] using hstage
  | [.timer], ⟨h, _⟩ =>
    refine ⟨_, rfl, ?_⟩
    have hstage := h.stage
    rw [h.published, Bool.and_eq_true] at hp
    match hs : s.timer, hp.1 with
    | .waking, _ | .dropping, _ | .closing, _ | .gone, _ =>
      simp only [hs] at hstage
      simp [hstage]
  | [.spawner x], ⟨h, _⟩ =>
    refine ⟨_, rfl, ?_⟩
    have hstage := h.stage
    match hs : s.loop with
    | .failCancelling | .ended =>
      simp only [hs] at hstage
      simp [hstage.1]
    | .failWriting _ | .failPublishing => simp [hs, hp] at hstage
    | .arming | .spawning | .failing _ | .failReporting | .failWaking => simp [hs] at hstage

end Race

end Manwe.Timeout
