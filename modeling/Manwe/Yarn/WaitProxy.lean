import Manwe.Transition.Run

/-!
# The proxy of a parked coroutine

`WaitProxy` and `ProxyCoro` (`Cancellation.h`). Where a parked coroutine is queued a proxy stands in
for it, which two parties may settle at once: whoever resumes it, and the awaiter that goes away.
**Two atomics decide**: `state` says who runs, by the order of the exchange in the final suspend and
of the compare-exchange in `kill`, and `refs` says who frees, since every holder gives its reference
back last.
-/

namespace Manwe.WaitProxy

/-- `promise_type::state`. -/
inductive Word
  | parked
  | resumed
  /-- the awaiter was destroyed first -/
  | killed
  deriving DecidableEq

/-- The resume of the proxy. -/
inductive Resumer
  | queued
  /-- the awaiter has taken the proxy out of its queue -/
  | removed
  /-- and has freed it -/
  | reclaimed
  /-- past the exchange, with the target to go on with, or nothing -/
  | exchanged (target : Bool)
  | finished
  deriving DecidableEq

structure State where
  word : Word := .parked
  refs : ℕ := 2
  resumer : Resumer := .queued
  /-- the awaiter has its reference -/
  held : Bool := true
  /-- what `kill` has returned -/
  dropped : Option Bool := none
  pins : ℕ := 0
  /-- how often the target was resumed -/
  resumed : ℕ := 0
  /-- how often the frame of the proxy was destroyed -/
  destroyed : ℕ := 0
  deriving DecidableEq

inductive Event
  | pin
  | unpin
  /-- the awaiter takes the proxy out of its queue -/
  | remove
  /-- the final suspend of the proxy -/
  | exchange
  | release
  /-- `kill`, also as the first half of `retire(false)` -/
  | kill
  /-- `drop`, also as the second half of `retire(false)` -/
  | drop
  /-- `reclaim` or `retire(true)` -/
  | reclaim
  deriving DecidableEq

/-- `refs.fetch_sub(1)`, and the frame is destroyed with the last reference. -/
def State.unref (s : State) : State :=
  if s.refs = 1 then { s with refs := 0, destroyed := s.destroyed + 1 }
  else { s with refs := s.refs - 1 }

def step (s : State) : Event → Option State
  | .pin =>
    if s.held ∧ s.dropped = none then some { s with refs := s.refs + 1, pins := s.pins + 1 }
    else none
  | .unpin => if 0 < s.pins then some { s with pins := s.pins - 1 }.unref else none
  | .remove =>
    if s.held ∧ s.dropped = none ∧ s.resumer = .queued then some { s with resumer := .removed }
    else none
  | .exchange =>
    if s.resumer = .queued then
      some { s with word := .resumed, resumer := .exchanged (s.word ≠ .killed) }
    else none
  | .release =>
    match s.resumer with
    | .exchanged target =>
      some { s with resumer := .finished, resumed := s.resumed + target.toNat }.unref
    | _ => none
  | .kill =>
    if s.held ∧ s.dropped = none then
      some (if s.word = .parked then { s with word := .killed, dropped := some true }
        else { s with dropped := some false })
    else none
  | .drop => if s.held then some { s with held := false }.unref else none
  -- never while a resume is pending, nor across a pin
  | .reclaim =>
    if s.held ∧ s.resumer = .removed ∧ s.pins = 0 then
      some { s with held := false, resumer := .reclaimed, destroyed := s.destroyed + 1 }
    else none

/-- The references there are. Whoever removes the proxy from its queue has the resumer's too, which
only `reclaim` gives back. -/
def State.holders (s : State) : ℕ := s.pins + s.held.toNat + match s.resumer with
    | .queued | .removed | .exchanged _ => 1
    | .reclaimed | .finished => 0

/-- The frame lives as long as somebody holds a reference. -/
def Counted (s : State) : Prop :=
  s.destroyed = 0 ∧ s.refs = s.holders ∧ 0 < s.holders ∨ s.destroyed = 1 ∧ s.holders = 0

/-- The two atomics on `state`, in their order. -/
def order : List (State × Event) → List Event :=
  logOf fun _ e => if e = .exchange ∨ e = .kill then [e] else []

/-- What the first of the two atomics leads to. -/
def Decided (s : State) : Option Event → Prop
  | none => s.word = .parked ∧ s.dropped = none ∧ s.resumed = 0 ∧
    (s.resumer = .queued ∨ s.resumer = .removed ∨ s.resumer = .reclaimed)
  | some .exchange => s.word = .resumed ∧ s.dropped ≠ some true ∧
    (s.resumer = .exchanged true ∧ s.resumed = 0 ∨ s.resumer = .finished ∧ s.resumed = 1)
  | some _ => s.dropped = some true ∧ s.resumed = 0 ∧
    (∀ target, s.resumer = .exchanged target → target = false) ∧
    (s.resumer = .queued → s.word = .killed)

variable {s t : State} {e : Event} {tr : List (State × Event)}

/-- Whoever takes a step holds a reference. -/
theorem holders_pos (hs : step s e = some t) : 0 < s.holders := by
  cases e <;> grind [step, State.holders, Bool.toNat]

theorem Counted.step (h : Counted s) (hs : step s e = some t) : s.destroyed = 0 ∧ Counted t := by
  have hpos := holders_pos hs
  obtain ⟨hd, hr, -⟩ := h.resolve_right fun h => Nat.ne_of_gt hpos h.2
  refine ⟨hd, ?_⟩
  unfold Counted
  cases e <;> grind [step, State.holders, State.unref, Bool.toNat]

theorem Decided.step {first : Option Event} (h : Decided s first) (hs : step s e = some t) :
    Decided t (first.or (if e = .exchange ∨ e = .kill then [e] else []).head?) := by
  -- the second atomic finds what the first has left in `state`
  rcases first with - | ⟨- | -⟩ <;> cases e <;> grind [step, Decided, State.unref, Bool.toNat]

theorem Decided.outcome {first : Option Event} (h : Decided s first) :
    (s.resumed = 1 ↔ s.resumer = .finished ∧ first = some .exchange) ∧ s.resumed ≤ 1 ∧
    (s.dropped = some true → s.resumed = 0) ∧
    (s.dropped = some false → s.resumer = .exchanged true ∨ s.resumed = 1) := by
  rcases first with - | ⟨- | -⟩ <;> grind [Decided]

/-- **Every resume-versus-destroy race is settled.** The target is resumed if the exchange came
before the `kill`; `kill` returns true if it never will be, and false if it has been or is about to
be; and the frame is destroyed once, with the last reference, and not touched afterwards. Only an
awaiter that took the proxy out of its queue and does not reclaim it leaves the frame behind. -/
theorem waitProxy_settles (h : Run step {} tr s) :
    (s.resumed = 1 ↔ s.resumer = .finished ∧ (order tr).head? = some .exchange) ∧
    s.resumed ≤ 1 ∧ (s.dropped = some true → s.resumed = 0) ∧
    (s.dropped = some false → s.resumer = .exchanged true ∨ s.resumed = 1) ∧
    (s.destroyed = if s.holders = 0 then 1 else 0) ∧ (∀ p ∈ tr, p.1.destroyed = 0) ∧
    ((∀ e, step s e = none) → s.resumer ≠ .removed → s.destroyed = 1) := by
  have hdec : Decided s (order tr).head? := by
    induction h with
    | start => exact ⟨rfl, rfl, rfl, .inl rfl⟩
    | next _ hs ih =>
      rw [order, logOf_snoc, List.head?_append]
      exact ih.step hs
  have hcount : Counted s ∧ ∀ p ∈ tr, p.1.destroyed = 0 := by
    clear hdec
    induction h with
    | start => exact ⟨.inl ⟨rfl, rfl, Nat.two_pos⟩, nofun⟩
    | next _ hs ih =>
      obtain ⟨hd, hc⟩ := ih.1.step hs
      exact ⟨hc, List.forall_mem_append.2 ⟨ih.2, by simpa using hd⟩⟩
  obtain ⟨hc, halive⟩ := hcount
  have hfree : s.destroyed = if s.holders = 0 then 1 else 0 := by grind [Counted]
  obtain ⟨hres, hone, htrue, hfalse⟩ := hdec.outcome
  refine ⟨hres, hone, htrue, hfalse, hfree, halive, fun hend hr => ?_⟩
  -- whoever holds a reference can go on
  have hnone : s.holders = 0 := by
    have := hend .unpin
    have := hend .exchange
    have := hend .release
    have := hend .drop
    have := hend .reclaim
    grind [step, State.holders, Bool.toNat]
  rw [hfree, if_pos hnone]

/-- A resume and the destruction of the awaiter meet while the proxy is pinned. -/
theorem waitProxy_settles_killed : ∃ tr s, Run step {} tr s ∧ s.dropped = some true ∧
    s.resumed = 0 ∧ s.destroyed = 1 := by
  have h : Run step {} _ _ := .follow [.pin, .kill, .exchange, .drop, .release, .unpin]
    (by decide +kernel)
  obtain ⟨-, -, hnever, -, hfree, -⟩ := waitProxy_settles h
  exact ⟨_, _, h, by decide +kernel, hnever (by decide +kernel), hfree⟩

end Manwe.WaitProxy
