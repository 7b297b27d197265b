import Mathlib
import Manwe.Transition.Run

/-!
# Wake claims on a parked worker

A permanent worker of the pool sleeps in `Fiber::park` on the futex word `parkSignal`. A
producer that has published work wakes one sleeper through `Yarn::wakeOneParked`: it looks for a
fiber that `isParked`, reserves it with `claimWake` and calls `poke`, which bumps `parkSignal`
only if it still reads `parked`. `Fiber::tryPushInbox` bumps unconditionally, since it targets
this fiber's inbox. `park` drops the claim of the previous sleep before it publishes `parked`.

Each atomic operation is one step. Only this worker's side of the walk over the pool is
modelled: what the other workers contribute to the parked-worker counter, and whether the
sources other than the inbox have work, are the environment's answers. The worker is never
stopped, and `parkSignal` is a 32-bit word. The flag `wakeClaimed` records **whose** exchange
set it, and `bumps` how often `parkSignal` was bumped since the worker's snapshot; neither
influences a step.

A claim on a sleeping worker is worth something only if its owner's `poke` is still going to
bump (`ClaimLive`). This can fail (`claim_goes_stale`): `isParked` and `claimWake` are separate
reads, so a waker can observe one sleep and claim during the next one, between the clearing of
the claim and the publication of `parked`; its `poke` then reads `parked = false`, skips the
bump, and leaves the claim behind on a worker that goes to sleep. `claimLive_of_published`
shows that this is the only way, short of `2 ^ 32` bumps within one sleep.
-/

namespace Manwe.WakeClaim

variable {τ : Type*}

/-- Capacity of a worker's inbox. -/
def kInboxCapacity : ℕ := 32

/-- Where the worker stands in `park`; from the snapshot to the wake it carries `expected`. -/
inductive WorkerPc
  | running
  | snapped (expected : BitVec 32)
  /-- `wakeClaimed` has been cleared, `parked` not yet published -/
  | cleared (expected : BitVec 32)
  | published (expected : BitVec 32)
  | counted (expected : BitVec 32)
  /-- blocked in `parkSignal.wait(expected)` -/
  | waiting (expected : BitVec 32)
  | leaving
  | unparked
  deriving DecidableEq

/-- The value `park` will wait on. -/
@[simp] def WorkerPc.expected : WorkerPc → Option (BitVec 32)
  | .snapped e | .cleared e | .published e | .counted e | .waiting e => some e
  | .running | .leaving | .unparked => none

/-- The claim of the previous sleep has been dropped and the worker has not woken since. -/
@[simp] def WorkerPc.asleep : WorkerPc → Bool
  | .cleared _ | .published _ | .counted _ | .waiting _ => true
  | .running | .snapped _ | .leaving | .unparked => false

/-- `parked` has been published and not taken back. -/
def WorkerPc.isParked : WorkerPc → Bool
  | .published _ | .counted _ | .waiting _ | .leaving => true
  | .running | .snapped _ | .cleared _ | .unparked => false

/-- Where a thread stands in `wakeOneParked` or `tryPushInbox`. -/
inductive ThreadPc
  | idle
  /-- `wakeOneParked` saw a parked worker counted and is about to look at this one -/
  | walking
  | sawParked
  /-- `claimWake` returned true; `poke` has not read `parked` yet -/
  | claimed
  /-- `poke` read `parked = true`: the bump comes next -/
  | poking
  | notifying
  /-- `tryPushInbox` has enqueued its task -/
  | enqueued
  | pushBumped
  deriving DecidableEq

/-- The shared words of one fiber, its worker and the threads around it. -/
structure State (τ : Type*) where
  parkSignal : BitVec 32 := 0
  parked : Bool := false
  wakeClaimed : Option τ := none
  /-- this worker's share of the pool's parked-worker counter -/
  parkedWorkers : ℕ := 0
  inbox : ℕ := 0
  worker : WorkerPc := .running
  threads : τ → ThreadPc := fun _ => .idle
  bumps : ℕ := 0

def init : State τ := {}

inductive Event (τ : Type*)
  | snapshot
  | clearClaim
  | publish
  | noteParked
  | recheck (otherWork : Bool)
  | unblock
  | unpark
  | noteUnparked
  | dequeue
  | check (t : τ) (others : ℕ)
  | loadParked (t : τ)
  | claim (t : τ)
  | pokeLoad (t : τ)
  | pokeBump (t : τ)
  | notify (t : τ)
  | enqueue (t : τ) (ok : Bool)
  | pushBump (t : τ)
  | pushLoad (t : τ)
  | steal

section Step

variable [DecidableEq τ]

/-- Thread `t` moves on to `pc`. -/
def State.set (s : State τ) (t : τ) (pc : ThreadPc) : State τ :=
  { s with threads := Function.update s.threads t pc }

/-- `parkSignal.fetch_add(1)`. -/
def State.bump (s : State τ) : State τ :=
  { s with parkSignal := s.parkSignal + 1, bumps := s.bumps + 1 }

/-- The atomic steps of `park`, `wakeOneParked`, `poke` and `tryPushInbox`. -/
def step (s : State τ) : Event τ → Option (State τ)
  | .snapshot =>
    if s.worker = .running then some { s with worker := .snapped s.parkSignal, bumps := 0 }
    else none
  | .clearClaim =>
    -- before `parked` is published, so that no claim of the last sleep survives into this one
    match s.worker with
    | .snapped e => some { s with worker := .cleared e, wakeClaimed := none }
    | _ => none
  | .publish =>
    match s.worker with
    | .cleared e => some { s with worker := .published e, parked := true }
    | _ => none
  | .noteParked =>
    match s.worker with
    | .published e => some { s with worker := .counted e, parkedWorkers := s.parkedWorkers + 1 }
    | _ => none
  | .recheck otherWork =>
    match s.worker with
    | .counted e =>
      if s.inbox ≠ 0 || otherWork then some { s with worker := .leaving }
      else some { s with worker := .waiting e }
    | _ => none
  | .unblock =>
    -- the wait ends when `parkSignal` has changed, or spuriously
    match s.worker with
    | .waiting _ => some { s with worker := .leaving }
    | _ => none
  | .unpark =>
    if s.worker = .leaving then some { s with worker := .unparked, parked := false } else none
  | .noteUnparked =>
    if s.worker = .unparked then
      some { s with worker := .running, parkedWorkers := s.parkedWorkers - 1 }
    else none
  | .dequeue =>
    if s.worker = .running ∧ s.inbox ≠ 0 then some { s with inbox := s.inbox - 1 } else none
  | .check t others =>
    if s.threads t = .idle ∧ s.parkedWorkers + others ≠ 0 then some (s.set t .walking) else none
  | .loadParked t =>
    if s.threads t = .walking then some (s.set t (if s.parked then .sawParked else .idle))
    else none
  | .claim t =>
    if s.threads t = .sawParked then
      if s.wakeClaimed = none then some { s.set t .claimed with wakeClaimed := some t }
      else some (s.set t .idle)
    else none
  | .pokeLoad t =>
    -- the fast skip: a worker that does not read as parked is not bumped
    if s.threads t = .claimed then some (s.set t (if s.parked then .poking else .idle)) else none
  | .pokeBump t => if s.threads t = .poking then some (s.set t .notifying).bump else none
  | .notify t => if s.threads t = .notifying then some (s.set t .idle) else none
  | .enqueue t ok =>
    if s.threads t = .idle then
      if ok then
        if s.inbox < kInboxCapacity then some { s.set t .enqueued with inbox := s.inbox + 1 }
        else none
      -- refused: the caller tries another fiber or the injection queue
      else some s
    else none
  | .pushBump t => if s.threads t = .enqueued then some (s.set t .pushBumped).bump else none
  | .pushLoad t =>
    -- a busy target is left alone and an idle peer is woken instead (`wakeOneIdle`)
    if s.threads t = .pushBumped then some (s.set t (if s.parked then .notifying else .idle))
    else none
  | .steal => if s.inbox ≠ 0 then some { s with inbox := s.inbox - 1 } else none

end Step

/-- The `poke` of thread `t` is under way and is going to bump `parkSignal`. -/
def WillBump (s : State τ) (t : τ) : Prop :=
  s.threads t = .poking ∨ s.threads t = .claimed ∧ s.parked = true

/-- **A claim on a sleeping worker is never stale**: while the worker is blocked with
`parkSignal` unchanged, whoever set the claim is still going to bump it. -/
def ClaimLive (s : State τ) : Prop :=
  ∀ e, s.worker = .waiting e → s.parkSignal = e → ∀ t, s.wakeClaimed = some t → WillBump s t

/-- The thread whose `poke` reads `parked` in this step. -/
def Event.pokes : Event τ → Option τ
  | .pokeLoad t => some t
  | _ => none

/-- The step bumps `parkSignal`. -/
def Event.isBump : Event τ → Bool
  | .pokeBump _ | .pushBump _ => true
  | _ => false

/-- A step that, if it is the read of `parked` in a claim owner's `poke`, does not fall between
the worker's clearing of the claim and its publication of `parked`. -/
def PokesPublished (s : State τ) (e : Event τ) : Prop :=
  ∀ t ∈ e.pokes, s.wakeClaimed = some t → s.worker.asleep = true → s.worker.isParked = true

/-- A step that does not bring `parkSignal` round to the worker's snapshot again. -/
def NoWrap (s : State τ) (e : Event τ) : Prop :=
  e.isBump = true → s.worker.expected.isSome = true → s.bumps + 1 < 2 ^ 32

instance [DecidableEq τ] (s : State τ) (e : Event τ) : Decidable (PokesPublished s e) :=
  inferInstanceAs (Decidable (∀ t ∈ e.pokes, _))

instance (s : State τ) (e : Event τ) : Decidable (NoWrap s e) := inferInstanceAs (Decidable (_ → _))

/-! ### What a sleep keeps -/

/-- The invariant of runs that meet both conditions. -/
structure Inv (s : State τ) : Prop where
  parked : s.parked = s.worker.isParked
  signal : ∀ {e}, s.worker.expected = some e → s.parkSignal = e + BitVec.ofNat 32 s.bumps
  small : s.worker.expected.isSome = true → s.bumps < 2 ^ 32
  owner : ∀ {t}, s.wakeClaimed = some t → s.worker.asleep = true →
    s.threads t = .claimed ∨ s.threads t = .poking ∨ 0 < s.bumps

theorem inv_init : Inv (init : State τ) := ⟨rfl, by simp [init], by simp [init], by simp [init]⟩

variable {s : State τ}

variable (h : Inv s)

include h

/-- Fewer than `2 ^ 32` bumps are seen. -/
theorem Inv.bumps_eq_zero {e : BitVec 32} (he : s.worker.expected = some e)
    (hs : s.parkSignal = e) : s.bumps = 0 := by
  have hsig := h.signal he
  have hsmall := h.small (by rw [he]; rfl)
  rw [hs] at hsig
  have hz : BitVec.ofNat 32 s.bumps = 0#32 := by simpa using hsig.symm
  have := congrArg BitVec.toNat hz
  simp only [BitVec.toNat_ofNat, Nat.zero_mod] at this
  omega

theorem Inv.claimLive : ClaimLive s := by
  intro e hw hs t ht
  have h0 := h.bumps_eq_zero (by simp [hw]) hs
  rcases h.owner ht (by simp [hw]) with hc | hp | hb
  · exact .inr ⟨hc, by rw [h.parked, hw]; rfl⟩
  · exact .inl hp
  · omega

variable [DecidableEq τ] {pc : ThreadPc}

/-- A thread's own step: what matters is whether the owner of the claim is still on its way to
the bump. -/
theorem Inv.set {t : τ} (hpc : s.wakeClaimed = some t → s.worker.asleep = true →
    s.threads t = .claimed ∨ s.threads t = .poking → pc = .claimed ∨ pc = .poking) :
    Inv (s.set t pc) := by
  refine ⟨h.parked, h.signal, h.small, fun {t'} ht hw => ?_⟩
  have ho := h.owner ht hw
  simp only [State.set, Function.update_apply]
  split_ifs with heq
  · subst heq
    rcases ho with ho | ho | ho
    · exact (hpc ht hw (.inl ho)).imp id .inl
    · exact (hpc ht hw (.inr ho)).imp id .inl
    · exact .inr (.inr ho)
  · exact ho

/-- A bump by thread `t`, which then moves on to `pc`. -/
theorem Inv.bump {t : τ} (hwrap : s.worker.expected.isSome = true → s.bumps + 1 < 2 ^ 32) :
    Inv (s.set t pc).bump := by
  refine ⟨h.parked, fun {e} he => ?_, fun he => hwrap he,
    fun _ _ => .inr (.inr (by simp [State.bump]))⟩
  have hsig := h.signal he
  simp only [State.bump, State.set, hsig]
  rw [BitVec.add_assoc]
  congr 1
  apply BitVec.eq_of_toNat_eq
  simp [BitVec.toNat_add]

omit [DecidableEq τ] in
/-- A step of the worker that starts no new sleep: it publishes `parked` as `isParked` says, and
neither takes a new snapshot nor falls asleep. -/
theorem Inv.move (w : WorkerPc) (n : ℕ)
    (hexp : ∀ e, w.expected = some e → s.worker.expected = some e)
    (hasleep : w.asleep = true → s.worker.asleep = true) :
    Inv { s with worker := w, parked := w.isParked, parkedWorkers := n } := by
  refine ⟨rfl, fun he => h.signal (hexp _ he), fun he => ?_, fun ht hw => h.owner ht (hasleep hw)⟩
  obtain ⟨e, he⟩ := Option.isSome_iff_exists.mp he
  exact h.small (by rw [hexp e he]; rfl)

theorem inv_step {t : State τ} {e : Event τ} (hpub : PokesPublished s e)
    (hwrap : NoWrap s e) (hs : step s e = some t) : Inv t := by
  have hparked := h.parked
  cases e with (simp only [step] at hs; repeat' first | cases hs | split at hs)
  | snapshot =>
    next hw =>
    refine ⟨by rw [hparked, hw]; rfl, fun he => ?_, fun _ => by simp, by simp⟩
    simp only [WorkerPc.expected, Option.some.injEq] at he
    simp [he]
  | clearClaim =>
    next hw =>
    exact ⟨by rw [hparked, hw]; rfl, fun he => h.signal (by rw [hw]; exact he),
      fun he => h.small (by rw [hw]; exact he), by simp⟩
  | publish => next e' hw => exact h.move (.published e') _ (by simp [hw]) (by simp [hw])
  | noteParked =>
    next e' hw =>
    rw [hw] at hparked
    rw [hparked]
    exact h.move (.counted e') _ (by simp [hw]) (by simp [hw])
  | recheck =>
    next e' hw _ =>
    rw [hw] at hparked
    rw [hparked]
    first
    | exact h.move .leaving _ (by simp) (by simp)
    | exact h.move (.waiting e') _ (by simp [hw]) (by simp [hw])
  | unblock =>
    next e' hw =>
    rw [hw] at hparked
    rw [hparked]
    exact h.move .leaving _ (by simp) (by simp)
  | unpark => exact h.move .unparked _ (by simp) (by simp)
  | noteUnparked =>
    next hw =>
    rw [hw] at hparked
    rw [hparked]
    exact h.move .running _ (by simp) (by simp)
  | dequeue | steal => exact ⟨h.parked, h.signal, h.small, h.owner⟩
  | check => next ht => exact h.set (by simp [ht.1])
  | loadParked | notify | pushLoad => next ht => exact h.set (by simp [ht])
  | claim =>
    next ht _ =>
    first
    | exact h.set (by simp [ht])
    | -- whoever set the flag is on its way to the bump
      refine ⟨h.parked, h.signal, h.small, fun {t'} ht' _ => .inl ?_⟩
      simp only [Option.some.injEq] at ht'
      simp [State.set, ht']
  | pokeLoad t =>
    -- the read that can go wrong: `hpub` excludes it before `parked` is published
    refine h.set fun hc hw _ => .inr ?_
    have hp : s.parked = true := by rw [h.parked]; exact hpub t rfl hc hw
    simp [hp]
  | pokeBump | pushBump => exact h.bump (hwrap rfl)
  | enqueue t =>
    first
    | exact h
    | next ht _ _ =>
      have hset : Inv (s.set t .enqueued) := h.set (by simp [ht])
      exact ⟨hset.parked, hset.signal, hset.small, hset.owner⟩

omit h

/-- **No stale claim**: in every run in which no claim owner's `poke` reads `parked` while the
worker is between clearing the claim and publishing `parked`, and in which no sleep sees
`2 ^ 32` bumps, a claim on a sleeping worker has an owner that is going to wake it. -/
theorem claimLive_of_published {tr : List (State τ × Event τ)} {s : State τ}
    (hr : Run step init tr s) (hpub : ∀ p ∈ tr, PokesPublished p.1 p.2)
    (hwrap : ∀ p ∈ tr, NoWrap p.1 p.2) : ClaimLive s := by
  have hok : ∀ p ∈ tr, PokesPublished p.1 p.2 ∧ NoWrap p.1 p.2 :=
    fun p hp => ⟨hpub p hp, hwrap p hp⟩
  have hinv : Inv s := hr.invariant (fun s e => PokesPublished s e ∧ NoWrap s e) hok inv_init
    fun h hok hs => inv_step h hok.1 hok.2 hs
  exact hinv.claimLive

/-- The worker goes to sleep. -/
def fallAsleep : List (Event τ) := [.snapshot, .clearClaim, .publish, .noteParked, .recheck false]

/-- A waker claims the sleeping worker and its `poke` is about to bump. -/
def claimedAsleep : List (Event ℕ) :=
  fallAsleep ++ [.check 0 0, .loadParked 0, .claim 0, .pokeLoad 0]

/-- A claim on a worker that is still asleep, whose owner will bump. -/
theorem claimLive_claimedAsleep : ∃ tr s, Run step (init : State ℕ) tr s ∧
    (∀ p ∈ tr, PokesPublished p.1 p.2) ∧ (∀ p ∈ tr, NoWrap p.1 p.2) ∧
    s.worker = .waiting 0 ∧ s.parkSignal = 0 ∧ s.wakeClaimed = some 0 ∧ ClaimLive s := by
  have hr := Run.of_exec (show exec step (init : State ℕ) claimedAsleep = some _ from rfl)
  exact ⟨_, _, hr, by decide, by decide, rfl, rfl, rfl,
    claimLive_of_published hr (by decide) (by decide)⟩

/-- Thread `0` reads `parked` during the worker's first sleep; thread `1` wakes the worker through
its inbox; the worker runs that task and goes to sleep again, and thread `0` claims and pokes
between the clearing of the claim and the publication of `parked`. -/
def lateClaim : List (Event ℕ) :=
  fallAsleep ++ [.check 0 0, .loadParked 0, .enqueue 1 true, .pushBump 1, .pushLoad 1, .notify 1,
    .unblock, .unpark, .noteUnparked, .dequeue, .snapshot, .clearClaim, .claim 0, .pokeLoad 0,
    .publish, .noteParked, .recheck false]

/-- **A claim can go stale**: the worker sleeps on an unchanged `parkSignal` with its claim taken
by a thread that has long left `poke`. -/
theorem claim_goes_stale : ¬ ∀ (tr : List (State ℕ × Event ℕ)) (s : State ℕ),
    Run step init tr s → ClaimLive s := by
  intro hall
  have hr := Run.of_exec (show exec step (init : State ℕ) lateClaim = some _ from rfl)
  obtain ⟨tr, s, hr, hw, hp, hc, ht⟩ : ∃ tr s, Run step (init : State ℕ) tr s ∧
      s.worker = .waiting 1 ∧ s.parkSignal = 1 ∧ s.wakeClaimed = some 0 ∧ s.threads 0 = .idle :=
    ⟨_, _, hr, rfl, rfl, rfl, rfl⟩
  have hlive := hall tr s hr 1 hw hp 0 hc
  simp [WillBump, ht] at hlive

end Manwe.WakeClaim
