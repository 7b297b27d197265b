import Mathlib

/-!
# Waiting for a race to be published

`whenAny` and `withTimeout` park their caller in the same awaiter. Some party of the race sets
`published` under the lock and takes the caller's handle out of `waiter`; it then runs that handle
outside the lock. The handle is that of a proxy, so that a caller whose frame has been destroyed in
the meantime is not touched.

`Latch` holds the part of the shared state that this handshake is about, together with where the
caller stands. Its operations are the locked sections and the run of the proxy. Nothing in the model
prevents the proxy from being run twice or without need; that this does not happen is part of
`Inv`, in which `flying` says whether somebody has the handle in hand, and `resumes` counts how
often the caller has been resumed through it.
-/

namespace Manwe.WhenAnyAwaiter

/-- The caller's proxy. -/
inductive Proxy
  /-- there is none, or the awaiter has freed it -/
  | none
  | parked
  | resumed
  /-- the awaiter was destroyed first -/
  | killed
  deriving DecidableEq

/-- Where the caller stands. -/
inductive Pc
  /-- it does not await yet -/
  | busy
  /-- `await_ready` comes next -/
  | awaiting
  /-- nothing was published; `await_suspend` comes next -/
  | looked
  | parked
  /-- `await_resume` comes next -/
  | resuming
  | returned
  | destroyed
  deriving DecidableEq

structure Latch where
  published : Bool := false
  /-- the proxy is in `waiter` -/
  waiter : Bool := false
  proxy : Proxy := .none
  /-- the proxy was published in `waiter` -/
  parked : Bool := false
  pc : Pc := .busy

namespace Latch

/-- Publish the outcome and take the caller's handle, if it is there. -/
def publish (l : Latch) : Latch × Bool := ({ l with published := true, waiter := false }, l.waiter)

/-- Publish where the caller cannot have parked. -/
def publishOnly (l : Latch) : Latch := { l with published := true }

def awaitReady (l : Latch) : Latch := { l with pc := if l.published then .resuming else .looked }

def awaitSuspend (l : Latch) : Latch := if l.published then { l with pc := .resuming }
  else { l with waiter := true, proxy := .parked, parked := true, pc := .parked }

/-- The handle is run: it resumes the caller unless the awaiter is gone. -/
def run (l : Latch) : Latch :=
  if l.proxy = .killed then l else { l with proxy := .resumed, pc := .resuming }

/-- The frame is destroyed while it is parked. -/
def destroy (l : Latch) : Latch :=
  -- still there: nothing is in flight towards the proxy
  if l.waiter then { l with waiter := false, proxy := .none, pc := .destroyed }
  else { l with proxy := .killed, pc := .destroyed }

variable (l : Latch)

@[simp] theorem publish_published : l.publish.1.published = true := rfl

@[simp] theorem publishOnly_published : l.publishOnly.published = true := rfl

@[simp] theorem awaitReady_published : l.awaitReady.published = l.published := rfl

@[simp] theorem awaitSuspend_published : l.awaitSuspend.published = l.published := by
  unfold awaitSuspend
  split
  all_goals rfl

@[simp] theorem run_published : l.run.published = l.published := by
  unfold run
  split
  all_goals rfl

@[simp] theorem destroy_published : l.destroy.published = l.published := by
  unfold destroy
  split
  all_goals rfl

theorem length_ite_killed {β : Type*} (b : β) :
    (if l.proxy = .killed then [] else [b]).length = (decide (l.proxy ≠ .killed)).toNat := by
  by_cases hk : l.proxy = .killed
  · simp [hk]
  · simp [hk]

@[simp] theorem destroy_pc : l.destroy.pc = .destroyed := by
  unfold destroy
  split
  all_goals rfl

/-- Only `await_resume` lets the caller return. -/
theorem awaitReady_pc : l.awaitReady.pc ≠ .returned := by
  unfold awaitReady
  split
  all_goals nofun

theorem awaitSuspend_pc : l.awaitSuspend.pc ≠ .returned := by
  unfold awaitSuspend
  split
  all_goals nofun

theorem run_returned {l : Latch} (h : l.run.pc = .returned) : l.pc = .returned := by
  unfold run at h
  split at h
  · exact h
  · cases h

end Latch

/-- **The handshake**: where the caller stands determines whether its handle is in `waiter`, in
somebody's hand or used up. -/
def Inv (l : Latch) (flying : Bool) (resumes : ℕ) : Prop := match l.pc with
  | .busy | .awaiting | .looked =>
    l.waiter = false ∧ l.proxy = .none ∧ flying = false ∧ l.parked = false ∧ resumes = 0
  | .parked =>
    l.proxy = .parked ∧ l.parked = true ∧ resumes = 0 ∧ l.waiter = !l.published ∧
      flying = l.published
  | .resuming | .returned =>
    l.waiter = false ∧ l.published = true ∧ flying = false ∧ resumes = l.parked.toNat
  | .destroyed =>
    l.waiter = false ∧ resumes = 0 ∧
      ((l.proxy = .none ∧ flying = false) ∨ (l.proxy = .killed ∧ l.published = true))

theorem inv_init : Inv {} false 0 := ⟨rfl, rfl, rfl, rfl, rfl⟩

namespace Inv

variable {l : Latch} {flying : Bool} {resumes : ℕ} (h : Inv l flying resumes)

include h

/-- Before anything is published nobody has the handle. -/
theorem not_flying (hp : l.published = false) : flying = false := by
  unfold Inv at h
  split at h <;> simp_all

/-- Nor before the caller awaits. -/
theorem not_flying_of_busy (hb : l.pc = .busy) : flying = false := by
  unfold Inv at h
  simp only [hb] at h
  exact h.2.2.1

theorem publish (hp : l.published = false) : Inv l.publish.1 l.publish.2 resumes := by
  unfold Inv at h ⊢
  simp only [Latch.publish]
  split at h <;> simp_all

/-- The caller publishes before it awaits. -/
theorem publishOnly (hb : l.pc = .busy) : Inv l.publishOnly flying resumes := by
  unfold Inv at h ⊢
  simp_all [Latch.publishOnly]

theorem start (hb : l.pc = .busy) : Inv { l with pc := .awaiting } flying resumes := by
  unfold Inv at h ⊢
  simp_all

theorem awaitReady (ha : l.pc = .awaiting) : Inv l.awaitReady flying resumes := by
  unfold Inv at h
  simp only [ha] at h
  obtain ⟨hw, hx, hf, hq, hk⟩ := h
  cases hp : l.published
  · simp [Inv, Latch.awaitReady, hp, hw, hx, hf, hq, hk]
  · simp [Inv, Latch.awaitReady, hp, hw, hf, hq, hk]

theorem awaitSuspend (ha : l.pc = .looked) : Inv l.awaitSuspend flying resumes := by
  unfold Inv at h
  simp only [ha] at h
  obtain ⟨hw, hx, hf, hq, hk⟩ := h
  cases hp : l.published
  · simp [Inv, Latch.awaitSuspend, hp, hf, hk]
  · simp [Inv, Latch.awaitSuspend, hp, hw, hf, hq, hk]

theorem awaitResume (ha : l.pc = .resuming) : Inv { l with pc := .returned } flying resumes := by
  unfold Inv at h ⊢
  simp_all

omit h

/-- **The handle is run once**, and resumes the caller if it is still there. -/
theorem run (h : Inv l true resumes) :
    Inv l.run false (resumes + (decide (l.proxy ≠ .killed)).toNat) := by
  unfold Inv at h
  split at h
  · simp at h
  · simp at h
  · simp at h
  · obtain ⟨hx, hq, hk, hw, hp⟩ := h
    simp [Inv, Latch.run, hx, hq, hw, ← hp, hk]
  · simp at h
  · simp at h
  · rename_i hpc
    obtain ⟨hw, hk, ⟨-, hf⟩ | ⟨hx, hp⟩⟩ := h
    · simp at hf
    · simp [Inv, Latch.run, hpc, hx, hw, hp, hk]

include h

theorem destroy (ha : l.pc = .parked) : Inv l.destroy flying resumes := by
  unfold Inv at h
  simp only [ha] at h
  obtain ⟨hx, hq, hk, hw, hf⟩ := h
  cases hp : l.published
  · simp [Inv, Latch.destroy, hw, hp, hf, hk]
  · simp [Inv, Latch.destroy, hw, hp, hk]

/-- The caller goes on only after the outcome has been published. -/
theorem published (hpc : l.pc = .resuming ∨ l.pc = .returned) : l.published = true := by
  unfold Inv at h
  rcases hpc with hpc | hpc
  all_goals
    simp only [hpc] at h
    exact h.2.1

theorem resumes_le : resumes ≤ 1 := by
  unfold Inv at h
  split at h
  case h_5 | h_6 => exact h.2.2.2 ▸ Bool.toNat_le _
  all_goals omega

/-- A caller that goes on has been resumed as often as it parked. -/
theorem resumes_eq (hpc : l.pc = .resuming ∨ l.pc = .returned) : resumes = l.parked.toNat := by
  unfold Inv at h
  rcases hpc with hpc | hpc
  all_goals
    simp only [hpc] at h
    exact h.2.2.2

/-- A caller whose frame was destroyed while it was parked has not been resumed. -/
theorem resumes_destroyed (hpc : l.pc = .destroyed) : resumes = 0 := by
  unfold Inv at h
  simp only [hpc] at h
  exact h.2.1

/-- A destroyed caller stays where it is. -/
theorem run_destroyed (hpc : l.pc = .destroyed) (hfly : 0 < flying.toNat) :
    l.run.pc = .destroyed := by
  unfold Inv at h
  simp only [hpc] at h
  obtain ⟨-, -, ⟨-, rfl⟩ | ⟨hx, -⟩⟩ := h
  · cases hfly
  · simp [Latch.run, hx, hpc]

/-- A caller that is parked when the outcome has been published is about to be resumed. -/
theorem flying_of_parked (hpc : l.pc = .parked) (hp : l.published = true) : flying = true := by
  unfold Inv at h
  simp only [hpc] at h
  exact h.2.2.2.2.trans hp

end Inv

end Manwe.WhenAnyAwaiter
