import Manwe.Transition.Tally
import Manwe.Yarn.ParkBase.Runs

/-!
# The mutex

`AsyncMutex` is one flag, `held`, and a FIFO of suspended `lock()` calls. `release_one` gives the
mutex to the head of the queue without clearing the flag, so that nobody can slip in between; a
grant that reaches a dead frame is given back the same way.

The mutex is a `Resource` over the parking awaiters. The field `res` of the state is `held`. The
accounts say that `held` counts the calls to which the mutex is granted: **live guards** and
**grants in flight**, of which there is at most one.
-/

namespace Manwe.AsyncMutex

open ParkBase

variable {ι : Type*}

/-- The fast path of `AsyncMutexLockAwaiter`, which is also that of `tryLock`. -/
@[simp] def take (held : Bool) : Option Bool := if held then none else some true

def release_one (held : Bool) : List ι → Served Bool ι
  | [] => ⟨false, [], []⟩
  -- ownership transfers to the head; `held` stays as it is
  | i :: ws => ⟨held, [i], ws⟩

def resource : Resource Bool ι where
  tryNow _ held _ := take held
  fixup held ws := ⟨held, [], ws⟩
  giveBack _ held ws := release_one held ws
  fixup_split _ _ := rfl
  giveBack_split _ held ws := by cases ws <;> rfl

abbrev State (ι : Type*) := ParkBase.State Bool ι

def init : State ι := { res := false }

inductive Event (ι : Type*)
  | await (e : ParkBase.Event ι)
  | tryLock (i : ι)
  /-- a guard is released -/
  | unlock (i : ι)

section Step

variable [DecidableEq ι]

def tryLock (s : State ι) (i : ι) : Act Bool ι := attempt resource s i

def act (s : State ι) : Event ι → Option (Act Bool ι)
  | .await e => ParkBase.act resource s e
  | .tryLock i => if (s.calls i).pc = .idle then some (tryLock s i) else none
  | .unlock i =>
    if (s.calls i).pc = .holding then
      some (giveBack resource s i { s.calls i with pc := .finished })
    else none

def step : State ι → Event ι → Option (State ι) := stepOf act

/-- The call that a step takes out of the queue unserved. -/
def withdraws (s : State ι) : Event ι → List ι
  | .await e => ParkBase.withdraws s e
  | .tryLock _ | .unlock _ => []

/-- The calls that were cancelled or destroyed while they were queued. -/
def withdrawals : List (State ι × Event ι) → List ι := logOf withdraws

variable {s : State ι} {e : Event ι} {a : Act Bool ι}

variable (h : Inv s) (ha : act s e = some a)

include h ha

theorem act_refines : Refines resource s a := by
  cases e with
  | await => exact ParkBase.act_refines h ha
  | tryLock =>
    obtain ⟨hpc, rfl⟩ := of_guard ha
    exact refines_attempt h (by simp [Call.arrived, hpc])
  | unlock i =>
    obtain ⟨hpc, rfl⟩ := of_guard ha
    have hq := h.not_queued (i := i) (by simp [hpc])
    exact refines_giveBack h (by simp [Call.granted, hpc]) hq rfl rfl

theorem act_tracks : Tracks s a := by
  cases e with
  | await => exact ParkBase.act_tracks h ha
  | tryLock =>
    obtain ⟨hpc, rfl⟩ := of_guard ha
    exact tracks_attempt h (by simp [Call.arrived, hpc])
  | unlock =>
    obtain ⟨hpc, rfl⟩ := of_guard ha
    exact tracks_giveBack h (by simp [Call.granted, hpc])
      (h.not_queued (by simp [hpc])) rfl rfl fun hs => ⟨rfl, hs.queued, hs.cancelled, by simp⟩

theorem act_queue :
    (a.admits ++ a.next.waiters ++ withdraws s e).Perm (s.waiters ++ a.arrives) := by
  cases e with
  | await => exact ParkBase.act_queue h ha
  | tryLock i =>
    obtain ⟨-, rfl⟩ := of_guard ha
    simpa [withdraws, tryLock] using attempt_perm resource s i
  | unlock =>
    obtain ⟨-, rfl⟩ := of_guard ha
    simp [giveBack, State.serve, withdraws, resource.giveBack_split]

end Step

/-! ### The accounts -/

/-- The invariant of the books: the flag counts the calls to which the mutex is granted, and
nobody waits for a free mutex. -/
structure Safe (b : Books Bool ι) : Prop where
  balanced : Tally (· ∈ b.granted) b.res.toNat
  empty : b.res = false → b.waiters = []

theorem safe_init : Safe (init : State ι).books :=
  ⟨.zero fun k => by simp [init, State.books, Call.granted], fun _ => rfl⟩

variable [DecidableEq ι]

theorem safe_move {b b' : Books Bool ι} {arr adm : List ι} (hok : b.Ok) (h : Safe b)
    (hm : Move resource b arr adm b') : Safe b' := by
  obtain ⟨held, waiters, granted⟩ := b
  obtain ⟨hbal, hempty⟩ := h
  cases hm with
  | idle => exact ⟨hbal, hempty⟩
  | @take i r _ hg ht =>
    cases held with
    | true => simp [resource] at ht
    | false =>
      obtain rfl : true = r := by simpa [resource] using ht
      exact ⟨hbal.insert hg fun k => by simp [or_comm], by simp⟩
  | enqueue _ _ ht =>
    cases held with
    | true => exact ⟨hbal, by simp⟩
    | false => simp [resource] at ht
  | @withdraw i v _ hv =>
    subst hv
    refine ⟨by simpa [resource] using hbal, fun hf => ?_⟩
    have hnil : waiters = [] := hempty hf
    simp [resource, hnil]
  | @giveBack i v hi hv =>
    subst hv
    have hpos := hbal.pos hi
    cases held with
    | false => simp at hpos
    | true =>
      have hnone : Tally (· ∈ granted \ {i}) 0 := hbal.erase hi fun k => by simp
      cases waiters with
      | nil => exact ⟨by simpa [resource, release_one] using hnone, fun _ => rfl⟩
      | cons j =>
        refine ⟨hnone.insert (j := j) (fun hj => ?_) fun k => ?_, by simp [resource, release_one]⟩
        · exact hok.disjoint (by simp) hj.1
        · simp [resource, release_one, or_comm]

omit [DecidableEq ι] in
/-- A lock that can be had at once has no queue. -/
theorem take_empty {b : Books Bool ι} {i : ι} {r : Bool} (h : Safe b)
    (ht : resource.tryNow i b.res b.waiters = some r) : b.waiters = [] := by
  refine h.empty ?_
  cases hb : b.res with
  | false => rfl
  | true => simp [resource, hb] at ht

/-- What the mutex promises after the run `tr` to `s`. -/
structure Promise (tr : List (State ι × Event ι)) (s : State ι) : Prop where
  /-- `held` means exactly one live guard or grant in flight -/
  held : s.res = true ↔ Tally (fun i => (s.calls i).holds = true ∨ (s.calls i).inFlight = true) 1
  /-- a mutex that is not held has neither -/
  free : s.res = false ↔ Tally (fun i => (s.calls i).holds = true ∨ (s.calls i).inFlight = true) 0
  /-- nobody waits for a free mutex -/
  empty : s.res = false → s.waiters = []
  /-- those who got the mutex, then those who wait, are in order all that were queued or let
  through, except who was cancelled or destroyed in the queue -/
  order : (arrivals act tr).filter (fun i => decide (i ∉ withdrawals tr)) =
    admissions act tr ++ s.waiters
  /-- a call that throws was never given the mutex -/
  threw : ∀ {i}, (s.calls i).pc = .threw → i ∉ admissions act tr
  /-- a call that throws, or whose frame is gone, has neither a guard nor a grant -/
  gone : ∀ {i}, (s.calls i).pc = .threw ∨ (s.calls i).pc = .destroyed →
    (s.calls i).holds = false ∧ (s.calls i).inFlight = false

/-- **The mutex keeps its promise** in every reachable state, whatever is cancelled or destroyed
on the way. -/
theorem mutex_safe {tr : List (State ι × Event ι)} {s : State ι} (hr : Run step init tr s) :
    Promise tr s := by
  have h₀ : Inv (init : State ι) := inv_init false
  obtain ⟨-, hsafe⟩ := books_invariant act_refines hr h₀ safe_init safe_move
  have hfifo := admissions_fifo act_refines hr h₀ safe_init rfl safe_move take_empty
  obtain ⟨-, hnodup, -⟩ := arrivals_nodup hr h₀ act_tracks
  obtain ⟨-, hqueue⟩ := queue_balance hr h₀ withdraws rfl act_tracks act_queue
  obtain ⟨-, -, hserved⟩ := tracked hr h₀ act_tracks (by simp [State.books, Call.granted, init])
  have hbal : Tally (fun i => (s.calls i).holds = true ∨ (s.calls i).inFlight = true)
      s.res.toNat := hsafe.balanced.congr fun k => (s.calls k).granted_iff.symm
  refine ⟨⟨fun hh => by simpa [hh] using hbal, fun h1 => ?_⟩,
    ⟨fun hh => by simpa [hh] using hbal, fun h0 => ?_⟩, hsafe.empty,
    filter_of_fifo hfifo hqueue hnodup, fun {i} hi hm => (hserved hm).pc hi, fun {i} hi => ?_⟩
  · exact Bool.toNat_eq_one.mp (hbal.unique h1)
  · exact Bool.toNat_eq_zero.mp (hbal.unique h0)
  · rcases hi with hi | hi <;> simp [hi, Call.granted]

/-- Calls `1`, `2` and `3` queue behind `0`. Call `1` is cancelled in the queue, and the frame of
`2` is destroyed after it has been granted the mutex, which goes to `3`. -/
def destroyedOwner : List (Event ℕ) :=
  [.tryLock 0, .await (.park 1 (some false)), .await (.retry 1), .await (.park 2 none),
    .await (.park 3 none), .await (.cancel 1), .unlock 0, .await (.destroy 2),
    .await (.wake 1), .await (.resume 1), .await (.revoke 2), .await (.wake 3), .tryLock 4,
    .await (.resume 3)]

theorem mutex_safe_destroyedOwner : ∃ tr s, Run step (init : State ℕ) tr s ∧ s.res = true ∧
    admissions act tr = [0, 2, 3] ∧ withdrawals tr = [1] ∧
    (s.calls 1).pc = .threw ∧ (s.calls 2).pc = .destroyed ∧ Promise tr s := by
  have hr := Run.of_exec (show exec step (init : State ℕ) destroyedOwner = some _ from rfl)
  exact ⟨_, _, hr, rfl, rfl, rfl, rfl, rfl, mutex_safe hr⟩

end Manwe.AsyncMutex
