import Manwe.Transition.Run

/-!
# Sleeps and the death of the event loop

`SleepAwaiter` (`Timers.h`) on the timers of the Windows `Reactor`. A loop that gives up resumes its
sleepers early, and `await_resume` tells such a resume from the end of a sleep by `isDead()`. But
**a loop dies twice**: `winstate->dead`, under `pollMu`, makes `registerTimer` resume its caller at
once, and `Reactor::dead`, which `isDead()` reads, is stored only after `pollMu` was given back. A
sleep that registers in between is resumed at once by a loop that is not dead yet.
-/

namespace Manwe.SleepAwaiter

open Function

/-- How far the death of `Reactor::run` has come. -/
inductive Loop
  | alive
  /-- the active registrations are scheduled -/
  | failing
  /-- `winstate->dead` is set -/
  | refusing
  /-- `Reactor::dead` is set -/
  | dead
  deriving DecidableEq

inductive Pc
  | idle
  /-- before the section of `registerTimer` under `pollMu` -/
  | arming
  /-- in `liveTimers` -/
  | armed
  /-- among the `sleepers` the dying loop has taken -/
  | orphaned
  /-- handed to `schedule` -/
  | scheduled
  | resumed
  | ended
  deriving DecidableEq

structure Sleeper where
  pc : Pc := .idle
  /-- the clock in `registerTimer` -/
  start : ℕ := 0
  duration : ℕ := 0
  cancelled : Bool := false

/-- `kMaxTimerNs`. -/
def maxTimerNs : ℕ := 3000000000000000000

def Sleeper.deadline (a : Sleeper) : ℕ := a.start + min a.duration maxTimerNs

structure State (ι : Type*) where
  now : ℕ := 0
  loop : Loop := .alive
  sleepers : ι → Sleeper := fun _ => {}

inductive Event (ι : Type*)
  | tick (ns : ℕ)
  | sleep (i : ι) (duration : ℕ)
  | registerTimer (i : ι)
  /-- the loop finds the timer expired -/
  | expire (i : ι)
  /-- the next part of the loop's death -/
  | die
  /-- the dead loop schedules one of its `sleepers` -/
  | orphan (i : ι)
  /-- a stop reaches `onCancel` -/
  | cancel (i : ι)
  | cancelTimer (i : ι)
  | resume (i : ι)
  | awaitResume (i : ι)

inductive Outcome
  | returned
  | cancelledException
  | reactorError
  deriving DecidableEq

variable {ι : Type*}

/-- `SleepAwaiter::await_resume`. -/
def awaitResume (s : State ι) (i : ι) : Outcome :=
  if (s.sleepers i).cancelled then .cancelledException
  else if s.loop = .dead then .reactorError else .returned

/-- The section under `pollMu` that ends the loop takes every live timer. -/
def Sleeper.bury (a : Sleeper) : Sleeper := if a.pc = .armed then { a with pc := .orphaned } else a

variable [DecidableEq ι]

def State.put (s : State ι) (i : ι) (a : Sleeper) : State ι :=
  { s with sleepers := update s.sleepers i a }

/-- A sleeper goes from `p` to `q`. -/
def State.go (s : State ι) (i : ι) (p q : Pc) : Option (State ι) :=
  if (s.sleepers i).pc = p then some (s.put i { s.sleepers i with pc := q }) else none

def step (s : State ι) : Event ι → Option (State ι)
  | .tick ns => some { s with now := s.now + ns }
  | .sleep i duration =>
    if (s.sleepers i).pc = .idle ∧ 0 < duration then
      some (s.put i { pc := .arming, start := s.now, duration := duration })
    else none
  | .registerTimer i =>
    s.go i .arming (if s.loop = .refusing ∨ s.loop = .dead then .scheduled else .armed)
  | .expire i =>
    if s.loop = .alive ∧ (s.sleepers i).deadline ≤ s.now then s.go i .armed .scheduled else none
  | .die =>
    match s.loop with
    | .alive => some { s with loop := .failing }
    | .failing => some { s with loop := .refusing, sleepers := fun i => (s.sleepers i).bury }
    | .refusing => some { s with loop := .dead }
    | .dead => none
  | .orphan i => if s.loop = .dead then s.go i .orphaned .scheduled else none
  | .cancel i => some (s.put i { s.sleepers i with cancelled := true })
  | .cancelTimer i => if (s.sleepers i).cancelled then s.go i .armed .scheduled else none
  | .resume i => s.go i .scheduled .resumed
  | .awaitResume i => s.go i .resumed .ended

/-! ### Resumes before the deadline -/

/-- A sleep that can be told from its end: it is not longer than the clamp, and it does not register
between the two deaths of the loop. -/
def Timely (s : State ι) : Event ι → Prop
  | .sleep _ duration => duration ≤ maxTimerNs
  | .registerTimer _ => s.loop ≠ .refusing
  | _ => True

instance (s : State ι) (e : Event ι) : Decidable (Timely s e) := by
  cases e <;> unfold Timely <;> infer_instance

/-- Who is resumed has slept, or is told why not. -/
def Sleeper.Sound (s : State ι) (a : Sleeper) : Prop :=
  a.duration ≤ maxTimerNs ∧ (a.pc = .scheduled ∨ a.pc = .resumed →
    a.cancelled = true ∨ a.start + a.duration ≤ s.now ∨ s.loop = .dead)

def Inv (s : State ι) : Prop := ∀ i, (s.sleepers i).Sound s

variable {s t : State ι} {e : Event ι} {i : ι}

theorem Inv.go {p q : Pc} (h : Inv s) (hg : s.go i p q = some t)
    (hq : q = .scheduled ∨ q = .resumed → (s.sleepers i).pc = p → (s.sleepers i).cancelled = true ∨
      (s.sleepers i).start + (s.sleepers i).duration ≤ s.now ∨ s.loop = .dead) : Inv t := by
  obtain ⟨hp, rfl⟩ := of_guard hg
  exact fun j => update_rec (fun _ => ⟨(h i).1, fun hpc => hq hpc hp⟩) fun _ => h j

theorem Inv.step (h : Inv s) (hok : Timely s e) (hs : step s e = some t) : Inv t := by
  cases e with simp only [SleepAwaiter.step] at hs
  | tick =>
    cases hs
    exact fun j => ⟨(h j).1, fun hpc => ((h j).2 hpc).imp_right (.imp_left Nat.le_add_right_of_le)⟩
  | sleep =>
    obtain ⟨-, rfl⟩ := of_guard hs
    exact fun j => update_rec (fun _ => ⟨hok, by simp⟩) fun _ => h j
  | registerTimer =>
    refine h.go hs fun hq _ => .inr (.inr ?_)
    -- only a dead loop refuses, if not one between its two deaths
    split at hq
    · exact ‹_ ∨ _›.resolve_left hok
    · simp at hq
  | expire i =>
    obtain ⟨⟨-, hdue⟩, hs⟩ := Option.ite_none_right_eq_some.1 hs
    rw [Sleeper.deadline, Nat.min_eq_left (h i).1] at hdue
    exact h.go hs fun _ _ => .inr (.inl hdue)
  | die =>
    split at hs <;> cases hs
    · next hl => exact fun j => ⟨(h j).1, fun hpc => by simpa [hl] using (h j).2 hpc⟩
    · next hl =>
      intro j
      dsimp only [Sleeper.bury]
      split
      · exact ⟨(h j).1, nofun⟩
      · exact ⟨(h j).1, fun hpc => by simpa [hl] using (h j).2 hpc⟩
    · exact fun j => ⟨(h j).1, fun _ => .inr (.inr rfl)⟩
  | orphan =>
    obtain ⟨hd, hs⟩ := Option.ite_none_right_eq_some.1 hs
    exact h.go hs fun _ _ => .inr (.inr hd)
  | cancel i =>
    cases hs
    exact fun j => update_rec (fun _ => ⟨(h i).1, fun _ => .inl rfl⟩) fun _ => h j
  | cancelTimer =>
    obtain ⟨hc, hs⟩ := Option.ite_none_right_eq_some.1 hs
    exact h.go hs fun _ _ => .inl hc
  | resume i => exact h.go hs fun _ hp => (h i).2 (.inl hp)
  | awaitResume => exact h.go hs nofun

/-- **A sleep that is resumed early is not reported as slept.** -/
theorem awaitResume_early {tr : List (State ι × Event ι)} (h : Run step {} tr s)
    (hok : ∀ p ∈ tr, Timely p.1 p.2) (hpc : (s.sleepers i).pc = .resumed)
    (hearly : s.now < (s.sleepers i).start + (s.sleepers i).duration)
    (hnot : (s.sleepers i).cancelled = false) : awaitResume s i = .reactorError := by
  have hinv := h.invariant (I := Inv) Timely hok (fun i => ⟨Nat.zero_le _, nofun⟩) Inv.step
  have hdead := ((hinv i).2 (.inr hpc)).resolve_left (by simp [hnot])
  rw [awaitResume, if_neg (by simp [hnot]), if_pos (hdead.resolve_left (by omega))]

/-- The loop dies while a sleep is registered. -/
theorem awaitResume_early_orphaned : ∃ tr s, Run (step (ι := Unit)) {} tr s ∧
    s.now < (s.sleepers ()).deadline ∧ awaitResume s () = .reactorError := by
  have h : Run (step (ι := Unit)) {} _ _ := .follow [.sleep () 5, .registerTimer (), .die, .die,
    .die, .orphan (), .resume ()] (by decide +kernel)
  exact ⟨_, _, h, by decide +kernel, awaitResume_early h (by decide +kernel) (by decide +kernel)
    (by decide +kernel) (by decide +kernel)⟩

/-- Registered between the two deaths, a sleep of five nanoseconds returns at once. -/
theorem awaitResume_between : ∃ tr s, Run (step (ι := Unit)) {} tr s ∧
    (s.sleepers ()).pc = .resumed ∧ s.now < (s.sleepers ()).deadline ∧
      (s.sleepers ()).cancelled = false ∧ awaitResume s () = .returned :=
  Run.exists_of_exec [.sleep () 5, .die, .die, .registerTimer (), .resume ()] (by decide +kernel)

end Manwe.SleepAwaiter
