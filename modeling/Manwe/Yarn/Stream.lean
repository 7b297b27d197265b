import Mathlib

/-!
# Lazy streams

`Stream.h`: a producer coroutine that is driven by the pulls of its consumer. A pull of a producer
that is not at its final suspend resumes it up to the next `co_yield` or to its end; a pull of one
that is goes straight to `await_resume`. That reads the outcome off the promise, and **leaves the
exception there**: the pull that observes the failure throws it, and so does every later one.
-/

namespace Manwe.Stream

variable {α χ : Type*}

/-- What is left of a producer's body: the values it yields, and the exception it ends in. -/
structure Body (α : Type*) (χ : Type*) where
  values : List α
  thrown : Option χ := none

/-- The promise, with the body that the coroutine still has to run. -/
structure StreamPromise (α : Type*) (χ : Type*) where
  body : Body α χ
  current : Option α := none
  done : Bool := false
  exception : Option χ := none
  /-- the coroutine is at its final suspend -/
  ended : Bool := false

/-- The producer runs up to its next suspension. -/
def StreamPromise.resume (p : StreamPromise α χ) : StreamPromise α χ := match p.body.values with
  | v :: vs => { p with body := { p.body with values := vs }, current := some v }
  | [] => { p with exception := p.body.thrown, done := true, ended := true }

inductive Reply (α : Type*) (χ : Type*)
  | value (v : α)
  | nullopt
  | threw (x : χ)
  /-- the null pointer is dereferenced -/
  | wild
  /-- of `done()` -/
  | done (b : Bool)
  deriving DecidableEq

/-- `NextAwaiter::await_resume`. -/
def awaitResume (p : StreamPromise α χ) : Reply α χ × StreamPromise α χ := match p.exception with
  | some x => (.threw x, p)
  | none =>
    match p.current with
    | some v => (.value v, { p with current := none })
    | none => (if p.done then .nullopt else .wild, p)

inductive Call
  | next
  | done
  deriving DecidableEq

/-- A call on a stream, if it has a producer: its reply, and whether it has suspended. -/
def call : Call → Option (StreamPromise α χ) → (Reply α χ × Bool) × Option (StreamPromise α χ)
  | .next, none => ((.nullopt, false), none)
  | .next, some p =>
    let r := awaitResume (if p.ended then p else p.resume)
    ((r.1, !p.ended), some r.2)
  | .done, none => ((.done true, false), none)
  | .done, some p => ((.done p.ended, false), some p)

/-- The replies to a sequence of calls. -/
def replies : Option (StreamPromise α χ) → List Call → List (Reply α χ × Bool)
  | _, [] => []
  | s, c :: cs => (call c s).1 :: replies (call c s).2 cs

/-! ### What a consumer should be told -/

/-- The reply of a stream that has reported its end. -/
def past : Call → Reply α χ × Bool
  | .next => (.nullopt, false)
  | .done => (.done true, false)

/-- The values in order, then the end, and from then on nothing, at once. -/
def Body.told : Body α χ → List Call → List (Reply α χ × Bool)
  | _, [] => []
  | b, .done :: cs => (.done false, false) :: b.told cs
  | ⟨v :: vs, x⟩, .next :: cs => (.value v, true) :: told ⟨vs, x⟩ cs
  | ⟨[], x⟩, .next :: cs => (x.elim .nullopt .threw, true) :: cs.map past

/-- A stream that has ended, in an exception or not. -/
theorem replies_past {b : Body α χ} {x : Option χ} {cs : List Call}
    (h : x = none ∨ cs.count .next = 0) :
    replies (some ⟨b, none, true, x, true⟩) cs = cs.map past := by
  induction cs with
  | nil => rfl
  | cons c cs ih =>
    cases c with
    | next =>
      obtain rfl : x = none := h.resolve_right (by simp)
      exact congrArg _ (ih (.inl rfl))
    | done => exact congrArg _ (ih (by simpa using h))

/-- **A consumer is told the values in order and then the end, once**, if it does not pull again
after an exception. -/
theorem replies_told {b : Body α χ} {cs : List Call}
    (h : b.thrown = none ∨ cs.count .next ≤ b.values.length + 1) :
    replies (some { body := b }) cs = b.told cs := by
  induction cs generalizing b with
  | nil => rfl
  | cons c cs ih =>
    obtain ⟨vs, x⟩ := b
    match c, vs with
    | .done, vs => exact congrArg _ (ih (by simpa using h))
    | .next, v :: vs => exact congrArg _ (ih (b := ⟨vs, x⟩) (by simpa using h))
    | .next, [] =>
      rw [replies, Body.told, ← replies_past (b := ⟨[], x⟩) (by simpa using h)]
      cases x <;> rfl

theorem replies_told_failed :
    replies (some { body := ⟨[5], some 7⟩ }) [.done, .next, .next, .done] =
      [(.done false, false), (.value 5, true), (.threw 7, true), (.done true, false)] :=
  replies_told (.inr (by decide))

/-- **A failed stream fails again**, after `done()` has returned true. -/
theorem replies_again : replies (some { body := (⟨[], some 7⟩ : Body ℕ ℕ) }) [.next, .done, .next] =
    [(.threw 7, true), (.done true, false), (.threw 7, false)] := rfl

end Manwe.Stream
