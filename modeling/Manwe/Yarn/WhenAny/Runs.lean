import Manwe.Yarn.WhenAny.Publish

/-!
# A race delivers its outcome once

The parts put together over whole runs: who won (`Race`), who publishes (`Joined`, `Default`) and
the caller's handle. An outcome that is published has been written by the winner, so what the caller
reads after it is resumed does not change any more.
-/

namespace Manwe.WhenAny

open List RunnerPc

variable {α χ : Type*}

/-! ### The caller's handle -/

def RunnerPc.wakes : RunnerPc α χ → Bool
  | .waking => true
  | _ => false

/-- The step resumes the caller through its handle. -/
def resumesAt (s : State α χ) : Event α χ → List ℕ
  | .wake i => if s.latch.proxy = .killed then [] else [i]
  | _ => []

/-- The caller's handle is in the hand of the one runner that is about to run it. -/
structure Handle (s : State α χ) (resumes : ℕ) : Prop where
  latch : ∃ flying, WhenAnyAwaiter.Inv s.latch flying resumes ∧
    Tally (fun i => (s.runners i).wakes = true) flying.toNat
  busy : s.loop ≠ .ended → s.latch.pc = .busy

namespace Handle

variable {s t : State α χ} {resumes i : ℕ}

variable (h : Handle s resumes)

include h

/-- Steps of the runners that do not touch the handle. -/
theorem frame (hr : ∀ i, (t.runners i).wakes = (s.runners i).wakes)
    (hl : t.loop ≠ .ended → s.loop ≠ .ended) (hp : t.latch = s.latch) : Handle t resumes := by
  obtain ⟨flying, hinv, htally⟩ := h.latch
  refine ⟨⟨flying, hp ▸ hinv, htally.congr fun i => by rw [hr]⟩, fun ht => ?_⟩
  rw [hp]
  exact h.busy (hl ht)

/-- The caller's own steps. -/
theorem caller (hinv : ∀ {flying}, WhenAnyAwaiter.Inv s.latch flying resumes →
      WhenAnyAwaiter.Inv t.latch flying resumes)
    (hr : ∀ i, (t.runners i).wakes = (s.runners i).wakes)
    (hl : t.loop ≠ .ended → t.latch.pc = .busy) : Handle t resumes := by
  obtain ⟨flying, hinv', htally⟩ := h.latch
  exact ⟨⟨flying, hinv hinv', htally.congr fun i => by rw [hr]⟩, hl⟩

/-- A caller that awaits has left its loop. -/
theorem ended_of_pc (hpc : s.latch.pc ≠ .busy) : s.loop = .ended := by
  by_contra hl
  exact hpc (h.busy hl)

/-- A runner publishes, and takes the handle if it is there. -/
theorem publish (hi : s.runners i = .publishing) (hp : s.latch.published = false)
    (hl : s.loop ≠ .ended → s.latch.publish.1.pc = .busy) :
    Handle { s.put i (if s.latch.publish.2 then .waking else .ended) with
      latch := s.latch.publish.1 } resumes := by
  obtain ⟨flying, hinv, htally⟩ := h.latch
  have hf := hinv.not_flying hp
  subst hf
  refine ⟨⟨_, hinv.publish hp, ?_⟩, hl⟩
  cases s.latch.publish.2 with
  | false => exact htally.update (wakes · = true) (by rw [hi]; rfl)
  | true => exact htally.update_enter (wakes · = true) (by rw [hi]; nofun) rfl

/-- A runner runs the handle it has taken. -/
theorem wake (hi : s.runners i = .waking) : Handle { s.put i .ended with latch := s.latch.run }
      (resumes + (decide (s.latch.proxy ≠ .killed)).toNat) := by
  obtain ⟨flying, hinv, htally⟩ := h.latch
  have hpos := htally.pos (by rw [hi]; rfl)
  obtain rfl : flying = true := by
    cases flying with
    | false => cases hpos
    | true => rfl
  refine ⟨⟨false, hinv.run, ?_⟩, fun hl => ?_⟩
  · exact htally.update_leave (wakes · = true) (by rw [hi]; rfl) nofun
  · simpa using hinv.not_flying_of_busy (h.busy hl)

end Handle

variable {e : Event α χ}

variable {n resumes : ℕ} {join : Bool} {s t : State α χ}

theorem handle_step {due : Prop} (h : Handle s resumes) (hs : Spawned n s) (hright : Right due s)
    (hc : Change n join s e t) : Handle t (resumes + (resumesAt s e).length) := by
  have hbusy {l : LoopPc χ} (hl : s.loop = l) (hne : l ≠ .ended) : s.latch.pc = .busy :=
    h.busy (hl ▸ hne)
  cases hc with simp only [resumesAt, length_nil, Nat.add_zero]
  | @spawn k hl =>
    have hu : s.runners k = .unspawned := (hs.unspawned k hl k).mpr le_rfl
    exact h.frame (update_alike hu rfl) (by simp [hl]) rfl
  | @spawnLast k hl =>
    have hu : s.runners k = .unspawned := (hs.unspawned k hl k).mpr le_rfl
    exact h.caller (·.start (hbusy hl nofun)) (update_alike hu rfl) (absurd rfl)
  | spawnFail hl | failWon hl | failLostJoined hl | failWrite hl | failWriteJoined hl
  | failCountLast hl => exact h.frame (fun _ => rfl) (by simp [hl]) rfl
  | failLost hl | failCount hl =>
    exact h.caller (·.start (hbusy hl nofun)) (fun _ => rfl) (absurd rfl)
  | failPublish hl =>
    have hb := hbusy hl nofun
    exact h.caller (fun hinv => (hinv.publishOnly hb).start hb) (fun _ => rfl) (absurd rfl)
  | awaitReady hc | awaitSuspend hc | awaitResume hc | destroy hc =>
    refine h.caller (fun h => ?_) (fun _ => rfl) (absurd (h.ended_of_pc (by simp [hc])))
    first
    | exact h.awaitReady hc | exact h.awaitSuspend hc | exact h.awaitResume hc | exact h.destroy hc
  | finish hi | won hi | lost hi | stamp hi | write hi | writeThrown hi | writeError hi
  | settleLast hi | settleJoined hi | settleWon hi | settleLost hi =>
    exact h.frame (update_alike hi rfl) id rfl
  | publish hi => exact h.publish hi (hright.not_published hi) h.busy
  | @wake i hi =>
    rw [s.latch.length_ite_killed]
    exact h.wake hi

/-- A caller destroyed while parked stays where it is. -/
theorem destroyed_step (h : Handle s resumes) (hd : s.latch.pc = .destroyed)
    (hc : Change n join s e t) : t.latch.pc = .destroyed := by
  have hended := h.ended_of_pc (by simp [hd])
  cases hc with
  | spawnLast hl | failLost hl | failCount hl | failPublish hl => simp [hended] at hl
  | awaitReady hc | awaitSuspend hc | awaitResume hc | destroy hc => simp [hd] at hc
  | @wake i hi =>
    obtain ⟨flying, hinv, htally⟩ := h.latch
    exact hinv.run_destroyed hd (htally.pos (by rw [hi]; rfl))
  | _ => exact hd

/-! ### Runs -/

/-- What holds in every state of a run. -/
structure Inv (n : ℕ) (join : Bool) (tr : List (State α χ × Event α χ)) (s : State α χ) : Prop where
  race : Race s (logOf winsAt tr) (logOf throwsAt tr)
  spawned : Spawned n s
  joined : join = true → Joined n s
  default : join = false → Default s (logOf winsAt tr)
  handle : Handle s (logOf resumesAt tr).length
  seen : s.latch.pc = .returned → s.seen = some s.outcome
  destroyed : (∃ p ∈ tr, p.2 = .destroy) → s.latch.pc = .destroyed

namespace Inv

variable {n : ℕ} {join : Bool} {tr : List (State α χ × Event α χ)} {s t : State α χ}
  (h : Inv n join tr s)

include h

theorem right : ∃ due, Right due s := by
  cases join with
  | false => exact ⟨_, (h.default rfl).right⟩
  | true => exact ⟨_, (h.joined rfl).right⟩

/-- Nothing is published while the winner still writes. -/
theorem not_published_of_writing {i : ℕ} {o : Except χ α}
    (hi : s.runners i = .stamping o ∨ s.runners i = .writing o) : s.latch.published = false := by
  have hwin : (s.runners i).winning = true := by rcases hi with hi | hi <;> rw [hi] <;> rfl
  by_contra hp
  rw [Bool.not_eq_false] at hp
  cases join with
  | false =>
    have hd := (h.default rfl).right.due_of_published hp
    obtain ⟨o', hw⟩ := h.race.winner i hwin
    rcases hi with hi | hi
    all_goals simp [hw, Settled, hi, settled] at hd
  | true =>
    have hd := (h.joined rfl).right.due_of_published hp
    have hpos := (h.joined rfl).remaining_pos_of_busy (by
      rcases hi with hi | hi <;> rw [hi] <;> rfl)
    omega

theorem not_published_of_failWriting {k : ℕ} {x : χ} (hl : s.loop = .failWriting k x) :
    s.latch.published = false := by
  by_contra hp
  rw [Bool.not_eq_false] at hp
  cases join with
  | false =>
    have hd := (h.default rfl).right.due_of_published hp
    simp [h.race.spawner k x hl, Settled, hl, LoopPc.settled] at hd
  | true =>
    have hd := (h.joined rfl).right.due_of_published hp
    have hpos := (h.joined rfl).remaining_pos_of_reached h.spawned (by rw [hl]; rfl)
    omega

/-- When publication is due in joined mode, every runner has settled and the loop is left. -/
theorem settled_of_joined (hj : join = true) (hrem : s.remaining = 0) :
    (∀ i, (s.runners i).busy = false) ∧ s.loop.settled = true := by
  constructor
  · intro i
    by_contra hi
    have hpos := (h.joined hj).remaining_pos_of_busy (by simpa using hi)
    omega
  · cases hk : s.loop.reached with
    | none =>
      match hl : s.loop, hk with
      | .failPublishing, _ => rfl
      | .ended, _ => rfl
    | some =>
      have hpos := (h.joined hj).remaining_pos_of_reached h.spawned hk
      omega

variable (hp : s.latch.published = true)

include hp

/-- A published race has been decided. -/
theorem finished_of_published : s.finished = true := by
  by_contra hf
  rw [Bool.not_eq_true] at hf
  cases hj : join with
  | false =>
    have hd := (h.default hj).right.due_of_published hp
    simp [(h.race.undecided hf).1, Settled] at hd
  | true =>
    obtain ⟨hbusy, hloop⟩ := h.settled_of_joined hj ((h.joined hj).right.due_of_published hp)
    have hlate : s.loop.late = true := by
      match hl : s.loop, hloop with
      | .failPublishing, _ => rfl
      | .ended, _ => rfl
    rcases h.spawned.begun hlate with hf' | h0
    · simp [hf] at hf'
    · have hpast : (s.runners 0).fresh = false := by
        have hb := hbusy 0
        match hr : s.runners 0 with
        | .unspawned => exact absurd hr h0
        | .working | .exchanging _ => simp [hr, RunnerPc.busy] at hb
        | .stamping _ | .writing _ | .settling _ | .publishing | .waking | .ended => rfl
      simp [h.race.past 0 hpast] at hf

/-- **A published outcome has been written by the winner.** -/
theorem written : ∃ x, logOf winsAt tr = [x] ∧ s.outcome = x.outcome (logOf throwsAt tr) := by
  obtain ⟨x, hx, hst⟩ := h.race.decided (h.finished_of_published hp)
  refine ⟨x, hx, ?_⟩
  generalize logOf throwsAt tr = thrown at hst ⊢
  cases hst with
  | stamping hi => simp [h.not_published_of_writing (.inl hi)] at hp
  | writing hi => simp [h.not_published_of_writing (.inr hi)] at hp
  | written _ ho => exact ho
  | failWriting hl => simp [h.not_published_of_failWriting hl] at hp
  | failed _ ho => exact ho

/-- After the outcome is published nobody writes it any more. -/
theorem outcome_step {e : Event α χ} (hc : Change n join s e t) : t.outcome = s.outcome := by
  cases hc with
  | stamp hi => simp [h.not_published_of_writing (.inl hi)] at hp
  | write hi | writeThrown hi | writeError hi => simp [h.not_published_of_writing (.inr hi)] at hp
  | failWrite hl | failWriteJoined hl => simp [h.not_published_of_failWriting hl] at hp
  | _ => rfl

end Inv

variable {n : ℕ} {join : Bool} {s t : State α χ} {tr : List (State α χ × Event α χ)}

theorem returned_step (hc : Change n join s e t) (ht : t.latch.pc = .returned) :
    t.seen = some s.outcome ∧ t.outcome = s.outcome ∨ s.latch.pc = .returned ∧ t.seen = s.seen := by
  cases hc with
  | awaitResume => exact .inl ⟨rfl, rfl⟩
  | spawnLast | failLost | failCount | failPublish => simp [State.endLoop] at ht
  | awaitReady => exact absurd ht s.latch.awaitReady_pc
  | awaitSuspend => exact absurd ht s.latch.awaitSuspend_pc
  | destroy => simp at ht
  | wake => exact .inr ⟨WhenAnyAwaiter.Latch.run_returned ht, rfl⟩
  | _ => exact .inr ⟨ht, rfl⟩

theorem inv_init (hn : 0 < n) (join : Bool) : Inv n join [] (init n : State α χ) where
  race := ⟨fun _ => ⟨rfl, rfl, rfl, rfl⟩, nofun, nofun, nofun, nofun⟩
  spawned := spawned_init hn
  joined _ := joined_init hn
  default _ := default_init
  handle := ⟨⟨false, WhenAnyAwaiter.inv_init, .zero nofun⟩, fun _ => rfl⟩
  seen := nofun
  destroyed := by simp

theorem inv_step (h : Inv n join tr s) (hc : Change n join s e t) :
    Inv n join (tr ++ [(s, e)]) t := by
  obtain ⟨due, hright⟩ := h.right
  refine ⟨?_, spawned_step h.spawned h.race hc, ?_, ?_, ?_, ?_, ?_⟩
  · rw [logOf_snoc, logOf_snoc]
    exact race_step h.race (fun k hk => (h.spawned.unspawned k hk k).mpr le_rfl) hc
  · rintro rfl
    exact joined_step (h.joined rfl) h.spawned hc
  · rintro rfl
    rw [logOf_snoc]
    exact default_step (h.default rfl) h.spawned h.race hc
  · rw [logOf_snoc, length_append]
    exact handle_step h.handle h.spawned hright hc
  · intro ht
    rcases returned_step hc ht with ⟨hseen, ho⟩ | ⟨hpc, hseen⟩
    · rw [hseen, ho]
    · obtain ⟨flying, hinv, -⟩ := h.handle.latch
      rw [hseen, h.seen hpc, h.outcome_step (hinv.published (.inr hpc)) hc]
  · rintro ⟨p, hp, hd⟩
    rcases mem_append.mp hp with hp | hp
    · exact destroyed_step h.handle (h.destroyed ⟨p, hp, hd⟩) hc
    · rw [mem_singleton] at hp
      subst hp
      subst hd
      cases hc
      exact s.latch.destroy_pc

theorem inv_run (hn : 0 < n) (hr : Run (step n join) (init n) tr s) : Inv n join tr s := by
  induction hr with
  | start => exact inv_init hn join
  | next _ hs ih => exact inv_step ih (change_of_step hs)

/-- What `whenAny` promises in every state of a run. -/
structure Promise (join : Bool) (tr : List (State α χ × Event α χ)) (s : State α χ) : Prop where
  /-- at most one party wins `finished`, -/
  winner : (logOf winsAt tr).length ≤ 1
  /-- what is published is what it has written, -/
  written : s.latch.published = true →
    ∃ x, logOf winsAt tr = [x] ∧ s.outcome = x.outcome (logOf throwsAt tr)
  /-- and the caller goes on only then and gets just that; -/
  published : s.latch.pc = .resuming ∨ s.latch.pc = .returned → s.latch.published = true
  sees : s.latch.pc = .returned →
    ∃ x, logOf winsAt tr = [x] ∧ s.seen = some (x.outcome (logOf throwsAt tr))
  /-- the caller is resumed at most once, and one that goes on as often as it suspended; -/
  once : (logOf resumesAt tr).length ≤ 1
  resumed : s.latch.pc = .resuming ∨ s.latch.pc = .returned →
    (logOf resumesAt tr).length = s.latch.parked.toNat
  /-- in joined mode every spawned runner has settled when the outcome is published; -/
  joined : join = true → s.latch.published = true →
    s.loop = .ended ∧ ∀ i, s.runners i = .unspawned ∨ s.runners i = .waking ∨ s.runners i = .ended
  /-- a caller destroyed while parked is never resumed; -/
  destroyed : (∃ p ∈ tr, p.2 = .destroy) → logOf resumesAt tr = [] ∧ s.latch.pc = .destroyed
  /-- and when the spawned runners have ended, the outcome is published and the caller not left
  parked. -/
  delivered : s.loop = .ended → (∀ i, s.runners i = .unspawned ∨ s.runners i = .ended) →
    s.latch.published = true ∧ s.latch.pc ≠ .parked

namespace Inv

variable {n : ℕ} {join : Bool} {tr : List (State α χ × Event α χ)} {s : State α χ}

variable (h : Inv n join tr s) (hl : s.loop = .ended)
  (hr : ∀ i, s.runners i = .unspawned ∨ s.runners i = .ended)

include h hl hr

/-- After all spawned runners have ended, the race is decided. -/
theorem finished_of_ended : s.finished = true := by
  rcases h.spawned.begun (by simp [hl]) with hf | h0
  · exact hf
  · exact h.race.past 0 (by rw [(hr 0).resolve_left h0]; rfl)

/-- **Nothing is left over**: when all spawned runners have ended, the outcome is published. -/
theorem published_of_ended : s.latch.published = true := by
  have hpub : ∀ i, (s.runners i).publishes = false := by
    intro i
    rcases hr i with hi | hi
    all_goals rw [hi]; rfl
  cases hj : join with
  | false =>
    refine (h.default hj).right.published ?_ hpub (by rw [hl]; rfl)
    obtain ⟨x, hx, hst⟩ := h.race.decided (h.finished_of_ended hl hr)
    rw [hx]
    generalize logOf throwsAt tr = thrown at hst
    cases hst with
    | @stamping i o hi | @writing i o hi => simpa [hi] using hr i
    | @written i o _ hi =>
      rcases hr i with h' | h'
      · simp [h', late] at hi
      · simp [Settled, h', settled]
    | failWriting hk => simp [hl] at hk
    | failed => simp [Settled, hl, LoopPc.settled]
  | true =>
    refine (h.joined hj).right.published ?_ hpub (by rw [hl]; rfl)
    obtain ⟨b, htally, hcount⟩ := (h.joined hj).count
    have hb : b = 0 := by
      refine htally.unique (.zero fun i => ?_)
      rcases hr i with hi | hi
      all_goals simp [hi, RunnerPc.busy]
    rw [hb, hl] at hcount
    exact hcount

end Inv

/-- **`whenAny` delivers exactly one outcome exactly once.** -/
theorem race_delivers {n : ℕ} {join : Bool} {tr : List (State α χ × Event α χ)} {s : State α χ}
    (hn : 1 ≤ n) (hr : Run (step n join) (init n) tr s) : Promise join tr s := by
  have h := inv_run hn hr
  obtain ⟨flying, hinv, htally⟩ := h.handle.latch
  obtain ⟨due, hright⟩ := h.right
  refine ⟨?_, h.written, hinv.published, ?_, hinv.resumes_le, hinv.resumes_eq, ?_, ?_, ?_⟩
  · cases hf : s.finished with
    | false => simp [(h.race.undecided hf).1]
    | true =>
      obtain ⟨x, hx, -⟩ := h.race.decided hf
      simp [hx]
  · intro hpc
    obtain ⟨x, hx, ho⟩ := h.written (hinv.published (.inr hpc))
    exact ⟨x, hx, by rw [h.seen hpc, ho]⟩
  · intro hj hp
    obtain ⟨hbusy, hloop⟩ := h.settled_of_joined hj ((h.joined hj).right.due_of_published hp)
    constructor
    · cases hl : s.loop with simp only [hl] at hloop
      | ended => rfl
      | failPublishing =>
        obtain ⟨p, -, h1, -⟩ := (h.joined hj).right
        have hsum := h1 ((h.joined hj).right.due_of_published hp)
        simp [hl, LoopPc.publishes, hp] at hsum
      | _ => cases hloop
    · intro i
      have hb := hbusy i
      have hnp := hright.not_publishing hp i
      cases hi : s.runners i with
      | unspawned => exact .inl rfl
      | waking => exact .inr (.inl rfl)
      | ended => exact .inr (.inr rfl)
      | publishing => exact absurd hi hnp
      | _ => simp [hi, RunnerPc.busy] at hb
  · intro hd
    have hpc := h.destroyed hd
    exact ⟨length_eq_zero_iff.mp (hinv.resumes_destroyed hpc), hpc⟩
  · intro hl hends
    have hp := h.published_of_ended hl hends
    refine ⟨hp, fun hpc => ?_⟩
    -- the handle of a parked caller would be in the hand of a runner that has not ended
    rw [hinv.flying_of_parked hpc hp] at htally
    obtain ⟨i, hi⟩ := htally.exists_of_pos (by decide)
    rcases hends i with h' | h'
    all_goals simp [h', wakes] at hi

/-- Two tasks are raced in joined mode. Runner `0` wins while spawning the second one fails; the
caller parks before runner `0` has settled. -/
def lostSpawn : List (Event ℕ ℕ) :=
  [.spawn, .spawnFail 9, .finish 0 (.ok 7), .exchange 0, .failExchange, .stamp 0, .write 0 none,
    .failCount, .awaitReady, .awaitSuspend, .settle 0, .publish 0, .wake 0, .awaitResume]

theorem race_delivers_lostSpawn : 1 ≤ 2 ∧
    ∃ tr s, Run (step 2 true) (init 2 : State ℕ ℕ) tr s ∧ logOf winsAt tr = [.runner 0 (.ok 7)] ∧
      s.latch.pc = .returned ∧ s.seen = some (.ok (0, some 7)) ∧ logOf resumesAt tr = [0] ∧
      Promise true tr s := by
  have hr := Run.of_exec (show exec (step 2 true) (init 2 : State ℕ ℕ) lostSpawn = some _ from rfl)
  exact ⟨by decide, _, _, hr, rfl, rfl, rfl, rfl, race_delivers (by decide) hr⟩

end Manwe.WhenAny
