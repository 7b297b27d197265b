import Manwe.Yarn.ParkBase.Runs

/-!
# Waits with a deadline

`timedWait` runs a wait inside a cancellation scope of its own, which a deadline stops. The
deadline is one more source of cancellation, so to the parking awaiters nothing is new: the wait
ends with the resource or with `CancelledException`. What `timedWait` adds is the translation of
that ending. It returns `true` if the wait came back, and on `CancelledException` it returns
`false`, unless its caller's own scope is cancelled: then the exception is passed on. Creating the
deadline can fail, and then the wait is never started.

`State` lays the endings of the timed calls beside a primitive, and a run of the combined system
contains a run of the primitive (`baseRun`).
-/

namespace Manwe.TimedWait

open Option

open ParkBase

variable {ρ ι ε : Type*}

/-- How a timed call ends. -/
inductive Outcome
  | returned (granted : Bool)
  | threw
  deriving DecidableEq

/-- The end of `timedWait`, once its wait is over; `outer` says whether the caller's own scope is
cancelled. -/
def timedWait (outer : Bool) : Pc → Option Outcome
  | .holding => some (.returned true)
  | .threw => some (if outer then .threw else .returned false)
  | .idle | .arming | .parked | .resuming | .revoking | .finished | .destroyed => none

/-- A primitive and the timed calls around it. -/
structure State (ρ : Type*) (ι : Type*) where
  base : ParkBase.State ρ ι
  ended : ι → Option Outcome := fun _ => none

inductive Event (ι : Type*) (ε : Type*)
  | base (e : ε)
  /-- the wait of a timed call is over -/
  | settle (i : ι) (outer : Bool)
  /-- `deadlineToken` throws -/
  | fail (i : ι)

section Step

variable [DecidableEq ι] (act : ParkBase.State ρ ι → ε → Option (Act ρ ι)) (starts : ε → Option ι)

def State.finish (s : State ρ ι) (i : ι) (o : Outcome) : State ρ ι :=
  { s with ended := Function.update s.ended i (some o) }

/-- The combined step; `starts e` is the call that `e` begins, if it begins one. -/
def step (s : State ρ ι) : Event ι ε → Option (State ρ ι)
  | .base e =>
    if (starts e).all fun i => (s.ended i).isNone then
      (stepOf act s.base e).map fun b => { s with base := b }
    else none
  | .settle i outer =>
    if s.ended i = none then (timedWait outer (s.base.calls i).pc).map (s.finish i) else none
  | .fail i =>
    if s.ended i = none ∧ (s.base.calls i).pc = .idle then some (s.finish i .threw) else none

/-- The steps of the primitive in a run. -/
def baseRun : List (State ρ ι × Event ι ε) → List (ParkBase.State ρ ι × ε) := logOf fun s e =>
    match e with
    | .base e => [(s.base, e)]
    | .settle .. | .fail _ => []

variable {act starts} {s₀ s : State ρ ι} {tr : List (State ρ ι × Event ι ε)}

theorem run_base (hr : Run (step act starts) s₀ tr s) :
    Run (stepOf act) s₀.base (baseRun tr) s.base := by
  induction hr with
  | start => exact .start
  | @next tr s t e hr hs ih =>
    cases e with simp only [step, ite_none_right_eq_some, map_eq_some_iff, some.injEq] at hs
    | base e =>
      obtain ⟨-, b, hb, rfl⟩ := hs
      have hlog : baseRun (tr ++ [(s, .base e)]) = baseRun tr ++ [(s.base, e)] := by simp [baseRun]
      exact hlog ▸ ih.next hb
    | settle =>
      obtain ⟨-, o, -, rfl⟩ := hs
      simpa [baseRun, State.finish] using ih
    | fail =>
      obtain ⟨-, rfl⟩ := hs
      simpa [baseRun, State.finish] using ih

end Step

/-! ### The endings -/

/-- The ending of a timed call agrees with that of its wait. -/
def Agrees (pc : Pc) : Outcome → Prop
  | .returned true => pc = .holding
  | .returned false => pc = .threw
  | .threw => pc = .threw ∨ pc = .idle

variable {o : Outcome}

theorem timedWait_agrees {outer : Bool} {pc : Pc} (h : timedWait outer pc = some o) :
    Agrees pc o := by
  cases pc <;> simp only [timedWait, some.injEq, reduceCtorEq] at h
  · subst h
    rfl
  · subst h
    cases outer
    · rfl
    · exact .inl rfl

theorem Agrees.kept {starts : ε → Option ι} {s t : ParkBase.State ρ ι} {e : ε}
    (hk : Keeps starts s e t) {i : ι} (hi : starts e ≠ some i)
    (h : Agrees (s.calls i).pc o) : Agrees (t.calls i).pc o := by
  rcases hk i with hpc | ⟨hd, hidle⟩
  · rwa [hpc]
  · match o, h with
    | .returned true, h | .returned false, h =>
      simp [show (s.calls i).pc = _ from h, Pc.settled] at hd
    | .threw, .inl h => simp [h, Pc.settled] at hd
    | .threw, .inr h => exact absurd (hidle h) hi

variable [DecidableEq ι] {act : ParkBase.State ρ ι → ε → Option (Act ρ ι)} {starts : ε → Option ι}
  {s₀ s : State ρ ι} {tr : List (State ρ ι × Event ι ε)}

/-- **The ending of every timed call agrees with that of its wait**, in every reachable state. -/
theorem ended_agrees (hr : Run (step act starts) s₀ tr s) (h₀ : ∀ i, s₀.ended i = none)
    (hk : ∀ {s e t}, stepOf act s e = some t → Keeps starts s e t)
    {i : ι} (ho : s.ended i = some o) : Agrees (s.base.calls i).pc o := by
  induction hr generalizing o with
  | start => simp [h₀] at ho
  | @next tr s t e hr hs ih =>
    have hfinish : ∀ {j o'}, (s.finish j o').ended i = some o → Agrees (s.base.calls j).pc o' →
        Agrees ((s.finish j o').base.calls i).pc o := by
      intro j o' h hj
      simp only [State.finish, Function.update_apply] at h
      split_ifs at h with hij
      · cases h
        exact hij ▸ hj
      · exact ih h
    cases e with simp only [step, ite_none_right_eq_some, map_eq_some_iff, some.injEq] at hs
    | base =>
      obtain ⟨hall, b, hb, rfl⟩ := hs
      refine (ih ho).kept (hk hb) fun hst => ?_
      simp [hst, show s.ended i = some o from ho] at hall
    | settle =>
      obtain ⟨-, o', ho', rfl⟩ := hs
      exact hfinish ho (timedWait_agrees ho')
    | fail =>
      obtain ⟨⟨-, hidle⟩, rfl⟩ := hs
      exact hfinish ho (.inr hidle)

end Manwe.TimedWait
