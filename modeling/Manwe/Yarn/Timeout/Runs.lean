import Manwe.Transition.Run
import Manwe.Yarn.Timeout.Race

/-!
# A race with a deadline is settled once

What remains besides the race itself is the caller's handle, which at most one of the three parties
has in its hand, and the frame of the timer with its two references: the shared state's, released
with the last share, and the frame's own, released when it has run to its end. Whichever is released
second destroys the frame.
-/

namespace Manwe.Timeout

open List Bool TimerPc State

variable {α χ : Type*}

/-! ### The caller's handle -/

inductive Party
  | runner
  | timer
  | spawner

@[simp] def RunnerPc.wakes : RunnerPc α χ → Bool
  | .waking => true
  | _ => false

def TimerPc.wakes : TimerPc χ → Bool
  | .waking => true
  | _ => false

def LoopPc.wakes : LoopPc χ → Bool
  | .failWaking => true
  | _ => false

/-- The step resumes the caller through its handle. -/
def resumesAt (s : State α χ) : Event α χ → List Party
  | .wake => if s.latch.proxy = .killed then [] else [.runner]
  | .timerWake => if s.latch.proxy = .killed then [] else [.timer]
  | .failWake => if s.latch.proxy = .killed then [] else [.spawner]
  | _ => []

/-- How many have the caller's handle in hand. -/
@[simp] def State.wakers (s : State α χ) : ℕ :=
  s.runner.wakes.toNat + s.timer.wakes.toNat + s.loop.wakes.toNat

/-- The caller's handle is in one place. -/
structure Handle (s : State α χ) (resumes : ℕ) : Prop where
  latch : ∃ flying, WhenAnyAwaiter.Inv s.latch flying resumes ∧ s.wakers = flying.toNat
  busy : s.loop ≠ .ended → s.latch.pc = .busy

namespace Handle

variable {s t : State α χ} {resumes : ℕ} (h : Handle s resumes)

include h

/-- Steps that leave the handle where it is. -/
theorem frame (hw : t.wakers = s.wakers) (hl : t.loop ≠ .ended → s.loop ≠ .ended)
    (hp : t.latch = s.latch) : Handle t resumes := by
  obtain ⟨flying, hinv, hwakers⟩ := h.latch
  refine ⟨⟨flying, hp ▸ hinv, hw.trans hwakers⟩, fun ht => ?_⟩
  rw [hp]
  exact h.busy (hl ht)

/-- The caller's own steps. -/
theorem caller (hinv : ∀ {flying}, WhenAnyAwaiter.Inv s.latch flying resumes →
      WhenAnyAwaiter.Inv t.latch flying resumes)
    (hw : t.wakers = s.wakers) (hl : t.loop ≠ .ended → t.latch.pc = .busy) : Handle t resumes := by
  obtain ⟨flying, hinv', hwakers⟩ := h.latch
  exact ⟨⟨flying, hinv hinv', hw.trans hwakers⟩, hl⟩

theorem ended_of_pc (hpc : s.latch.pc ≠ .busy) : s.loop = .ended := by
  by_contra hl
  exact hpc (h.busy hl)

/-- A party publishes, and takes the handle if it is there. -/
theorem publish (hp : s.latch.published = false) (hlatch : t.latch = s.latch.publish.1)
    (hw : t.wakers = s.wakers + s.latch.publish.2.toNat) (hl : t.loop ≠ .ended → s.loop ≠ .ended) :
    Handle t resumes := by
  obtain ⟨flying, hinv, hwakers⟩ := h.latch
  rw [hinv.not_flying hp, toNat_false] at hwakers
  refine ⟨⟨_, hlatch ▸ hinv.publish hp, by omega⟩, fun ht => ?_⟩
  rw [hlatch]
  exact h.busy (hl ht)

/-- A party runs the handle it has taken. -/
theorem wake (hlatch : t.latch = s.latch.run) (hw : t.wakers + 1 = s.wakers)
    (hl : t.loop ≠ .ended → s.loop ≠ .ended) :
    Handle t (resumes + (decide (s.latch.proxy ≠ .killed)).toNat) := by
  obtain ⟨flying, hinv, hwakers⟩ := h.latch
  cases flying with
  | false =>
    rw [toNat_false] at hwakers
    omega
  | true =>
    refine ⟨⟨false, hlatch ▸ hinv.run, ?_⟩, fun ht => ?_⟩
    · rw [toNat_true] at hwakers
      rw [toNat_false]
      omega
    · simpa using hinv.not_flying_of_busy (h.busy (hl ht))

end Handle

theorem wakes_cancel (t : TimerPc χ) : t.cancel.wakes = t.wakes := by cases t <;> rfl

variable {join : Bool} {e : Event α χ} {wins : List (Winner α χ)} {thrown : List χ}
  {deads : List Bool}

theorem handle_step {s t : State α χ} {resumes : ℕ} (h : Handle s resumes)
    (hrace : Race join s wins thrown deads) (hc : Change join s e t) :
    Handle t (resumes + (resumesAt s e).length) := by
  have hbusy {l : LoopPc χ} (hl : s.loop = l) (hne : l ≠ .ended) : s.latch.pc = .busy :=
    h.busy (hl ▸ hne)
  cases hc with simp only [resumesAt, length_nil, Nat.add_zero,
    WhenAnyAwaiter.Latch.length_ite_killed]
  | arm hl =>
    have ht := hrace.timer_of_arming hl
    exact h.frame (by simp [hl, ht, LoopPc.wakes, wakes]) (by simp [hl]) rfl
  | armFail hl | spawnFail hl | failWon hl | failLost hl | failLostJoined hl | failWrite hl
  | failReport hl => exact h.frame (by simp [hl, LoopPc.wakes]) (by simp [hl]) rfl
  | spawn hl =>
    have hr := hrace.runner_of_spawning hl
    refine h.caller (·.start (hbusy hl nofun)) ?_ (absurd rfl)
    simp [hl, hr, LoopPc.wakes]
  | failPublish hl =>
    have hb := hbusy hl nofun
    refine h.caller (·.publishOnly hb) ?_ fun _ => hb
    simp [hl, LoopPc.wakes]
  | failReportLast hl =>
    refine h.publish (hrace.not_published (.inr (.inr (.inl hl)))) rfl ?_ (by simp [hl])
    cases s.latch.publish.2
    all_goals simp [hl, LoopPc.wakes]
  | failWake hl => exact h.wake rfl (by simp [hl, LoopPc.wakes]) (by simp [hl])
  | failCancel hl =>
    refine h.caller (·.start (hbusy hl nofun)) ?_ (absurd rfl)
    simp [hl, wakes_cancel, LoopPc.wakes]
  | awaitReady hc | awaitSuspend hc | awaitResume hc | destroy hc =>
    refine h.caller (fun h => ?_) rfl (absurd (h.ended_of_pc (by simp [hc])))
    first
    | exact h.awaitReady hc | exact h.awaitSuspend hc | exact h.awaitResume hc | exact h.destroy hc
  | release => exact h.frame rfl id rfl
  | finish hr | won hr | lost hr | lostJoined hr | write hr | writeThrown hr
  | writeError hr | report hr | drop hr => exact h.frame (by simp [hr]) id rfl
  | cancel hr =>
    refine h.frame ?_ id rfl
    simp [hr, wakes_cancel]
  | publish hr | reportLast hr =>
    refine h.publish (hrace.not_published (by simp [hr])) rfl ?_ id
    cases s.latch.publish.2
    all_goals simp [hr, Nat.add_comm, Nat.add_left_comm]
  | wake hr =>
    refine h.wake rfl ?_ id
    simp [hr, Nat.add_comm, Nat.add_left_comm]
  | fire ht | timerWon ht | timerLost ht | judge ht | record ht | recordJoined ht | timerDrop ht
  | timerClose ht => exact h.frame (by simp [ht, wakes]) id rfl
  | recordLast ht | timerPublish ht =>
    refine h.publish (hrace.not_published (by simp [ht])) rfl ?_ id
    cases s.latch.publish.2
    all_goals simp [ht, wakes, Nat.add_right_comm]
  | timerWake ht =>
    refine h.wake rfl ?_ id
    simp [ht, wakes, Nat.add_right_comm]

/-! ### The frame of the timer -/

/-- The runner's frame holds a share. -/
@[simp] def RunnerPc.keeps : RunnerPc α χ → Bool
  | .unspawned | .gone => false
  | _ => true

/-- The timer's frame holds a share. -/
def TimerPc.keeps : TimerPc χ → Bool
  | .none | .closing | .gone => false
  | _ => true

def TimerPc.created : TimerPc χ → Bool
  | .none => false
  | _ => true

/-- The frame has not run to its end. -/
@[simp] def TimerPc.running : TimerPc χ → Bool
  | .none | .gone => false
  | _ => true

/-- The step takes the last reference on the timer's frame, and destroys it. -/
def freesAt (s : State α χ) : Event α χ → List Party
  | .release => if s.lastShare && s.refs == 1 then [.spawner] else []
  | .drop => if s.lastShare && s.refs == 1 then [.runner] else []
  | .timerDrop => if s.lastShare && s.refs == 1 then [.timer] else []
  | .timerClose => if s.refs == 1 then [.timer] else []
  | _ => []

/-- Who holds a share. -/
@[simp] def State.holders (s : State α χ) : ℕ :=
  (!s.released).toNat + s.runner.keeps.toNat + s.timer.keeps.toNat

/-- **The two references**: one for as long as there is a share, one for as long as the frame has
not run to its end. -/
structure Lifetime (s : State α χ) (frees : ℕ) : Prop where
  shares : s.shares = s.holders
  refs : s.timer.created = true → s.refs = (decide (0 < s.shares)).toNat + s.timer.running.toNat
  frees : frees = (s.timer.created && s.refs == 0).toNat

theorem lastShare_eq (s : State α χ) : s.lastShare = (s.timer.created && s.shares == 1) := by
  unfold lastShare
  cases s.timer <;> rfl

namespace Lifetime

variable {s t : State α χ} {frees : ℕ}

theorem frame (h : Lifetime s frees) (hs : t.shares = s.shares) (hh : t.holders = s.holders)
    (hr : t.refs = s.refs) (hc : t.timer.created = s.timer.created)
    (hrun : t.timer.running = s.timer.running) : Lifetime t frees := by
  refine ⟨?_, ?_, ?_⟩
  · rw [hs, hh]
    exact h.shares
  · rw [hc, hr, hs, hrun]
    exact h.refs
  · rw [hc, hr]
    exact h.frees

/-- A share is dropped; with the last one goes a reference. -/
theorem drop (h : Lifetime s frees) (hs : t.shares = s.drop.shares) (hr : t.refs = s.drop.refs)
    (hh : t.holders + 1 = s.holders) (hc : t.timer.created = s.timer.created)
    (hrun : t.timer.running = s.timer.running) :
    Lifetime t (frees + (s.lastShare && s.refs == 1).toNat) := by
  have hshares := h.shares
  have hrefs := h.refs
  have hfrees := h.frees
  have hlast := lastShare_eq s
  simp only [State.drop] at hs hr
  cases hcr : s.timer.created with
  | false =>
    simp only [hlast] at hr hfrees ⊢
    exact ⟨by omega, by simp [hc, hcr], by simp [hc, hcr, hfrees]⟩
  | true =>
    rw [hcr, Bool.true_and] at hlast hfrees
    have hrefs := hrefs hcr
    by_cases h1 : s.shares = 1
    · have hsum : s.refs = 1 + s.timer.running.toNat := by simpa [h1] using hrefs
      have hl : s.lastShare = true := by simp [hlast, h1]
      rw [hl, if_pos rfl] at hr
      refine ⟨by omega, fun _ => ?_, ?_⟩
      · rw [hr, hrun, hs, h1, hsum]
        simp
      · rw [hfrees, hc, hcr, hr, hl, hsum]
        cases s.timer.running <;> rfl
    · have hl : s.lastShare = false := by simp [hlast, h1]
      rw [hl, if_neg (by simp)] at hr
      refine ⟨by omega, fun _ => ?_, ?_⟩
      · rw [hr, hrun, hs, hrefs]
        congr 2
        simp only [decide_eq_decide]
        omega
      · rw [hfrees, hc, hcr, hr, hl]
        simp

/-- The frame runs to its end. -/
theorem close (h : Lifetime s frees) (ht : s.timer = .closing) :
    Lifetime { s with refs := s.refs - 1, timer := .gone } (frees + (s.refs == 1).toNat) := by
  have hrefs := h.refs (by rw [ht]; rfl)
  have hfrees := h.frees
  rw [ht] at hrefs hfrees
  refine ⟨?_, fun _ => ?_, ?_⟩
  · simpa [ht, keeps] using h.shares
  · simp [hrefs]
  · rw [hfrees, hrefs]
    simp [created]

end Lifetime

theorem length_ite_party (b : Bool) (p : Party) : (if b then [p] else []).length = b.toNat := by
  cases b <;> rfl

theorem keeps_cancel (t : TimerPc χ) : t.cancel.keeps = t.keeps ∧
    t.cancel.created = t.created ∧ t.cancel.running = t.running := by
  cases t <;> exact ⟨rfl, rfl, rfl⟩

variable {s t : State α χ} {resumes : ℕ} {tr : List (State α χ × Event α χ)}

theorem lifetime_step {frees : ℕ} (h : Lifetime s frees)
    (hheld : s.released = true → s.loop = .ended) (hrace : Race join s wins thrown deads)
    (hc : Change join s e t) : Lifetime t (frees + (freesAt s e).length) := by
  cases hc with simp only [freesAt, length_nil, Nat.add_zero, length_ite_party]
  | arm hl =>
    have ht := hrace.timer_of_arming hl
    have hshares := h.shares
    have hfrees := h.frees
    simp only [ht, holders, keeps, Bool.toNat_false, created, Bool.false_and] at hshares hfrees
    refine ⟨?_, fun _ => ?_, hfrees⟩
    · simp [keeps, hshares]
    · simp
  | spawn hl =>
    have hr := hrace.runner_of_spawning hl
    have hrel : s.released = false := by
      by_contra hrel
      simp [hheld (by simpa using hrel)] at hl
    have hshares := h.shares
    have hrefs := h.refs
    simp only [holders, hr, hrel, RunnerPc.keeps, Bool.not_false, Bool.toNat_true,
      toNat_false] at hshares
    refine ⟨?_, fun hcr => (hrefs hcr).trans ?_, h.frees⟩
    · simp only [endLoop, holders, hrel, RunnerPc.keeps, Bool.not_false, Bool.toNat_true]
      omega
    · have hpos : 0 < s.shares := by omega
      simp [hpos]
  | release _ hr =>
    refine h.drop rfl rfl ?_ rfl rfl
    simp only [holders, State.drop, hr, Bool.not_true, Bool.not_false, Bool.toNat_true,
      Bool.toNat_false]
    omega
  | finish hr | won hr | lost hr | lostJoined hr | write hr | writeThrown hr | writeError hr
  | report hr | wake hr => exact h.frame rfl (by simp [hr]) rfl rfl rfl
  | failCancel hr | cancel hr =>
    obtain ⟨hk, hcr, hrun⟩ := keeps_cancel s.timer
    exact h.frame rfl (by simp [hr, hk]) rfl hcr hrun
  | publish hr | reportLast hr =>
    refine h.frame rfl ?_ rfl rfl rfl
    cases s.latch.publish.2
    all_goals simp [hr]
  | drop hr =>
    refine h.drop rfl rfl ?_ rfl rfl
    simp only [holders, State.drop, hr, RunnerPc.keeps, toNat_true, toNat_false]
    omega
  | fire ht | timerWon ht | timerLost ht | judge ht | record ht | recordJoined ht | timerWake ht =>
    exact h.frame rfl (by simp [ht, keeps]) rfl (by rw [ht]; rfl) (by rw [ht]; rfl)
  | recordLast ht | timerPublish ht =>
    refine h.frame rfl ?_ rfl ?_ ?_
    all_goals
      cases s.latch.publish.2
      all_goals simp [ht, keeps, created]
  | timerDrop ht => exact h.drop rfl rfl (by simp [ht, keeps]) (by rw [ht]; rfl) (by rw [ht]; rfl)
  | timerClose ht => exact h.close ht
  | _ => exact h.frame rfl rfl rfl rfl rfl

/-! ### Runs -/

/-- A caller destroyed while parked stays where it is. -/
theorem destroyed_step (h : Handle s resumes) (hd : s.latch.pc = .destroyed)
    (hc : Change join s e t) : t.latch.pc = .destroyed := by
  have hended := h.ended_of_pc (by simp [hd])
  have hrun (hw : 0 < s.wakers) : s.latch.run.pc = .destroyed := by
    obtain ⟨flying, hinv, hwakers⟩ := h.latch
    exact hinv.run_destroyed hd (hwakers ▸ hw)
  cases hc with
  | spawn hl | failPublish hl | failWake hl | failCancel hl => simp [hended] at hl
  | awaitReady hc | awaitSuspend hc | awaitResume hc | destroy hc => simp [hd] at hc
  | wake hr =>
    refine hrun ?_
    simp only [wakers, hr, RunnerPc.wakes, toNat_true]
    omega
  | timerWake ht =>
    refine hrun ?_
    simp only [wakers, ht, wakes, toNat_true]
    omega
  | _ => exact hd

/-- The caller's frame is not gone before it has awaited. -/
theorem held_step (h : Handle s resumes) (hheld : s.released = true → s.loop = .ended)
    (hc : Change join s e t) (ht : t.released = true) : t.loop = .ended := by
  cases hc with
  | release hc =>
    refine h.ended_of_pc fun hb => ?_
    simp [hb] at hc
  | spawn | failCancel => rfl
  | arm hl | armFail hl | spawnFail hl | failWon hl | failLost hl | failLostJoined hl
  | failWrite hl | failPublish hl | failReport hl | failReportLast hl | failWake hl =>
    simp [hheld ht] at hl
  | _ => exact hheld ht

theorem returned_step (hc : Change join s e t) (ht : t.latch.pc = .returned) :
    t.seen = some s.outcome ∧ t.outcome = s.outcome ∨ s.latch.pc = .returned ∧ t.seen = s.seen := by
  cases hc with
  | awaitResume => exact .inl ⟨rfl, rfl⟩
  | spawn | failCancel => simp at ht
  | awaitReady => exact absurd ht s.latch.awaitReady_pc
  | awaitSuspend => exact absurd ht s.latch.awaitSuspend_pc
  | destroy => simp at ht
  | wake | timerWake | failWake => exact .inr ⟨WhenAnyAwaiter.Latch.run_returned ht, rfl⟩
  | _ => exact .inr ⟨ht, rfl⟩

/-- After the outcome is published nobody writes it any more. -/
theorem outcome_step (h : Race join s wins thrown deads) (hp : s.latch.published = true)
    (hc : Change join s e t) : t.outcome = s.outcome := by
  cases hc with
  | write hr | writeThrown hr | writeError hr =>
    simp [h.not_published_of_writing (.inl ⟨_, hr⟩)] at hp
  | failWrite hl => simp [h.not_published_of_writing (.inr ⟨_, hl⟩)] at hp
  | record ht | recordJoined ht | recordLast ht =>
    simp [h.not_published (.inr (.inr (.inr (.inr ⟨_, ht⟩))))] at hp
  | _ => rfl

/-- What holds in every state of a run. -/
structure Inv (join : Bool) (tr : List (State α χ × Event α χ)) (s : State α χ) : Prop where
  race : Race join s (logOf winsAt tr) (logOf throwsAt tr) (logOf deadsAt tr)
  handle : Handle s (logOf resumesAt tr).length
  lifetime : Lifetime s (logOf freesAt tr).length
  held : s.released = true → s.loop = .ended
  seen : s.latch.pc = .returned → s.seen = some s.outcome
  destroyed : (∃ p ∈ tr, p.2 = .destroy) → s.latch.pc = .destroyed

theorem inv_init (join : Bool) : Inv join [] ({} : State α χ) where
  race := ⟨⟨rfl, rfl, rfl, rfl, rfl, rfl, rfl, rfl, rfl, ⟨nofun, fun _ => rfl⟩, fun _ => rfl⟩,
    rfl, rfl⟩
  handle := ⟨⟨false, WhenAnyAwaiter.inv_init, rfl⟩, fun _ => rfl⟩
  lifetime := ⟨rfl, nofun, rfl⟩
  held := nofun
  seen := nofun
  destroyed := by simp

theorem inv_step (h : Inv join tr s) (hc : Change join s e t) : Inv join (tr ++ [(s, e)]) t := by
  refine ⟨?_, ?_, ?_, held_step h.handle h.held hc, ?_, ?_⟩
  · rw [logOf_snoc, logOf_snoc, logOf_snoc]
    exact race_step h.race hc
  · rw [logOf_snoc, length_append]
    exact handle_step h.handle h.race hc
  · rw [logOf_snoc, length_append]
    exact lifetime_step h.lifetime h.held h.race hc
  · intro ht
    rcases returned_step hc ht with ⟨hseen, ho⟩ | ⟨hpc, hseen⟩
    · rw [hseen, ho]
    · obtain ⟨flying, hinv, -⟩ := h.handle.latch
      rw [hseen, h.seen hpc, outcome_step h.race (hinv.published (.inr hpc)) hc]
  · rintro ⟨p, hp, hd⟩
    rcases mem_append.mp hp with hp | hp
    · exact destroyed_step h.handle (h.destroyed ⟨p, hp, hd⟩) hc
    · rw [mem_singleton] at hp
      subst hp
      subst hd
      cases hc
      exact s.latch.destroy_pc

theorem inv_run (hr : Run (step join) {} tr s) : Inv join tr s := by
  induction hr with
  | start => exact inv_init join
  | next _ hs ih => exact inv_step ih (change_of_step hs)

/-- What `withTimeout` promises in every state of a run. -/
structure Promise (join : Bool) (tr : List (State α χ × Event α χ)) (s : State α χ) : Prop where
  /-- at most one of runner, timer and spawner wins `finished`, -/
  winner : (logOf winsAt tr).length ≤ 1
  /-- what is published is what it has written, -/
  written : s.latch.published = true → ∃ x, logOf winsAt tr = [x] ∧
    s.outcome = x.outcome (logOf throwsAt tr) (logOf deadsAt tr)
  /-- and the caller goes on only then and gets just that; -/
  published : s.latch.pc = .resuming ∨ s.latch.pc = .returned → s.latch.published = true
  sees : s.latch.pc = .returned → ∃ x, logOf winsAt tr = [x] ∧
    s.seen = some (x.outcome (logOf throwsAt tr) (logOf deadsAt tr))
  /-- the caller is resumed at most once, and one that goes on as often as it suspended; -/
  once : (logOf resumesAt tr).length ≤ 1
  resumed : s.latch.pc = .resuming ∨ s.latch.pc = .returned →
    (logOf resumesAt tr).length = s.latch.parked.toNat
  /-- in joined mode a timeout is published when it is recorded and the runner has finished or was
  reported unspawnable; -/
  joined : join = true → logOf winsAt tr = [.timer] →
    (s.latch.published = true ↔ s.timeoutRecorded = true ∧ s.runnerDone = true) ∧
      s.timeoutRecorded = s.timer.late ∧ s.runnerDone = s.reported
  /-- a caller destroyed while parked is never resumed; -/
  destroyed : (∃ p ∈ tr, p.2 = .destroy) → logOf resumesAt tr = [] ∧ s.latch.pc = .destroyed
  /-- when runner and timer have finished, the outcome is published and the caller not left
  parked; -/
  delivered : s.loop = .ended → (s.runner = .unspawned ∨ s.runner = .dropping ∨ s.runner = .gone) →
    (s.timer = .none ∨ s.timer = .dropping ∨ s.timer = .closing ∨ s.timer = .gone) →
    s.latch.published = true ∧ s.latch.pc ≠ .parked
  /-- the references on the timer's frame run out at most once, not before the frame has run to its
  end and the shared state is gone, -/
  freed : (logOf freesAt tr).length ≤ 1
  unused : logOf freesAt tr ≠ [] → s.timer = .gone ∧ s.shares = 0
  /-- and they do run out. -/
  spent : s.timer = .gone → s.released = true → (s.runner = .unspawned ∨ s.runner = .gone) →
    (logOf freesAt tr).length = 1

theorem Race.length_le (h : Race join s wins thrown deads) : wins.length ≤ 1 := by
  match wins, h with
  | [], _ => exact Nat.zero_le 1
  | [.runner _], _ | [.timer], _ | [.spawner _], _ => exact Nat.le_refl 1

/-- **Nothing is left over**: when runner and timer have finished, the outcome is published. -/
theorem Race.published_of_finished (h : Race join s wins thrown deads) (hl : s.loop = .ended)
    (hr : s.runner = .unspawned ∨ s.runner = .dropping ∨ s.runner = .gone)
    (ht : s.timer = .none ∨ s.timer = .dropping ∨ s.timer = .closing ∨ s.timer = .gone) :
    s.latch.published = true := by
  match wins, h with
  | [], ⟨h, _⟩ =>
    have hrun := h.runner
    have hsp := h.spawned
    rcases hr with hr | hr | hr
    · simp [hr, hl] at hsp
    · simp [hr] at hrun
    · simp [hr] at hrun
  | [.runner o], ⟨h, _⟩ =>
    have hstage := h.stage
    rcases hr with hr | hr | hr
    · simp [hr] at hstage
    · simp [h.published, hr]
    · simp [h.published, hr]
  | [.timer], ⟨h, _⟩ =>
    have hstage := h.stage
    have hlate : s.timer.late = true := by
      rcases ht with ht | ht | ht | ht
      · simp [ht] at hstage
      all_goals simp [ht, late]
    have hrep : s.reported = true := by
      rcases hr with hr | hr | hr
      all_goals simp [hl, hr]
    simp [-reported, h.published, h.done, hlate, hrep]
  | [.spawner x], ⟨h, _⟩ =>
    have hstage := h.stage
    rw [hl] at hstage
    exact hstage.2

/-- **`withTimeout` settles every race exactly once.** -/
theorem timeout_settles {join : Bool} {tr : List (State α χ × Event α χ)} {s : State α χ}
    (hr : Run (step join) {} tr s) : Promise join tr s := by
  have h := inv_run hr
  obtain ⟨flying, hinv, hwakers⟩ := h.handle.latch
  have hfrees := h.lifetime.frees
  refine ⟨h.race.length_le, h.race.written, hinv.published, ?_, hinv.resumes_le, hinv.resumes_eq,
    ?_, ?_, ?_, ?_, ?_, ?_⟩
  · intro hpc
    obtain ⟨x, hx, ho⟩ := h.race.written (hinv.published (.inr hpc))
    exact ⟨x, hx, by rw [h.seen hpc, ho]⟩
  · intro hj hw
    have hrace := h.race
    rw [hw] at hrace
    obtain ⟨htimer, -⟩ := hrace
    have hpub := htimer.published
    have hrec := htimer.recorded
    have hdone := htimer.done
    simp only [hj, Bool.true_and, Bool.not_true, Bool.false_or] at hpub hrec hdone
    exact ⟨by rw [hpub, hrec, Bool.and_eq_true], hrec, hdone⟩
  · intro hd
    have hpc := h.destroyed hd
    exact ⟨length_eq_zero_iff.mp (hinv.resumes_destroyed hpc), hpc⟩
  · intro hl hrun htim
    have hp := h.race.published_of_finished hl hrun htim
    refine ⟨hp, fun hpc => ?_⟩
    -- the handle of a parked caller would be in the hand of a party that has not finished
    rw [hinv.flying_of_parked hpc hp] at hwakers
    rcases hrun with hrun | hrun | hrun
    all_goals
      rcases htim with htim | htim | htim | htim
      all_goals simp [hl, hrun, htim, LoopPc.wakes, wakes] at hwakers
  · rw [hfrees]
    exact toNat_le _
  · intro hne
    have hpos : 0 < (logOf freesAt tr).length := length_pos_of_ne_nil hne
    cases hz : (s.timer.created && s.refs == 0) with
    | false =>
      rw [hfrees, hz] at hpos
      simp at hpos
    | true =>
      simp only [and_eq_true, beq_iff_eq] at hz
      have hrefs := h.lifetime.refs hz.1
      rw [hz.2] at hrefs
      constructor
      · match hs : s.timer with
        | .gone => rfl
        | .none => simp [hs, created] at hz
        | .armed | .exchanging | .judging | .recording _ | .publishing | .waking | .dropping
        | .closing => simp [hs] at hrefs
      · by_contra hsh
        rw [decide_eq_true (Nat.pos_of_ne_zero hsh), toNat_true] at hrefs
        omega
  · intro ht hrel hrun
    have hsh : s.shares = 0 := by
      rw [h.lifetime.shares]
      rcases hrun with hrun | hrun
      all_goals simp [ht, hrel, hrun, keeps]
    have hrefs := h.lifetime.refs (by rw [ht]; rfl)
    rw [hfrees, hrefs]
    simp [ht, hsh, created]

/-- A joined race that the timer wins on a live event loop. The runner is spawned, the caller parks,
the timeout is recorded while the task still runs, and the runner, reporting last, resumes the
caller; its frame is the last to hold a share. -/
def lateRunner : List (Event ℕ ℕ) :=
  [.arm, .spawn, .fire, .expire, .awaitReady, .awaitSuspend, .judge false, .record, .finish (.ok 7),
    .exchange, .timerDrop, .report, .wake, .awaitResume, .timerClose, .release, .drop]

theorem timeout_settles_lateRunner : ∃ tr s, Run (step true) ({} : State ℕ ℕ) tr s ∧
    logOf winsAt tr = [.timer] ∧ s.seen = some (.error .timeout) ∧
    logOf resumesAt tr = [.runner] ∧ logOf freesAt tr = [.runner] ∧ Promise true tr s := by
  have hr := Run.of_exec (show exec (step true) ({} : State ℕ ℕ) lateRunner = some _ from rfl)
  exact ⟨_, _, hr, rfl, rfl, rfl, rfl, timeout_settles hr⟩

end Manwe.Timeout
