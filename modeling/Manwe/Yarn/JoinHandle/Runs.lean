import Manwe.Yarn.JoinHandle.News

/-!
# Joins on a handle, one after the other

A run in which no address is reused too early (`Fresh`) wakes every joiner once, for a reason, and
leaves the word to the next join. Without the condition it does not: the thread that parked a join
which has ended since takes a later joiner, whose proxy got the same address, out of the word.
-/

namespace Manwe.JoinHandle

open Function List Join

variable {α χ : Type*}

/-! ### How joins end -/

/-- What `await_resume` makes of the shared state. -/
inductive Report (α : Type*) (χ : Type*)
  /-- `CancelledException` -/
  | cancelled
  /-- the value or the exception stored by the runner, if one is -/
  | result (o : Option (Except χ α))
  deriving DecidableEq

inductive End (α : Type*) (χ : Type*)
  | completed (r : Report α χ)
  /-- destroyed while parked -/
  | destroyed
  deriving DecidableEq

def State.report (s : State α χ) (j : ℕ) : Report α χ :=
  if (s.joins j).cancelled then .cancelled else .result s.outcome

/-- The step ends join `j`. -/
def endsAt (j : ℕ) (s : State α χ) : Event α χ → List (End α χ)
  | .awaitResume i => if i = j then [.completed (s.report j)] else []
  | .destroy i => if i = j then [.destroyed] else []
  | _ => []

/-- The step stores the task's outcome. -/
def finishesAt (_ : State α χ) : Event α χ → List (Except χ α)
  | .finish o => [o]
  | _ => []

def BodyPc.ended : BodyPc → Bool
  | .disarming _ | .unlatching _ | .retiring _ _ | .gone => true
  | _ => false

variable {s t : State α χ} {e : Event α χ}

theorem ended_step (hl : Latch s) (hc : Change s e t) (i : ℕ) :
    (t.joins i).body.ended.toNat = (s.joins i).body.ended.toNat + (endsAt i s e).length := by
  have hput {j : ℕ} {jn : Join} {b : BodyPc} (hb : (s.joins j).body = b)
      (hj : jn.body.ended = b.ended) :
      (update s.joins j jn i).body.ended.toNat = (s.joins i).body.ended.toNat + 0 := by
    obtain rfl | hi := eq_or_ne i j
    · rw [update_self, hj, hb, Nat.add_zero]
    · rw [update_of_ne hi, Nat.add_zero]
  have hend {j : ℕ} {jn : Join} {x : End α χ} (hj : jn.body.ended = true)
      (hb : (s.joins j).body.ended = false) :
      (update s.joins j jn i).body.ended.toNat =
        (s.joins i).body.ended.toNat + (if j = i then [x] else []).length := by
    obtain rfl | hi := eq_or_ne j i
    · simp [hj, hb]
    · simp [hi, Ne.symm hi]
  cases hc with
  | @awaitResume j hb | @destroy j hb => exact hend rfl (by rw [hb]; rfl)
  | joinFirst hb | ready hb | notReady hb | disarm hb | disarmBare hb | unlatch hb
  | unlatchFail hb => exact hput hb rfl
  | joinNext => exact hput (hl.future _ (Nat.lt_succ_self _)) rfl
  | checkCancelled hs | park hs => exact hput (hl.suspending hs rfl (by decide)).2.1 rfl
  | @settle j hs =>
    rw [reclaim_eq]
    exact hput ((hl.sound j).body_of_unparked hs) (by rw [reclaim_body]; rfl)
  | reclaim hs =>
    rw [reclaim_eq]
    exact hput (hl.suspending hs rfl (by decide)).2.1 (by rw [reclaim_body]; rfl)
  | retire hb =>
    rw [reclaim_eq]
    exact hput hb (by rw [reclaim_body]; rfl)
  | retireKill hb =>
    rw [release_eq]
    exact hput hb rfl
  | run ha hh hd =>
    rw [release_eq]
    obtain ⟨-, -, ⟨-, hb, hst⟩ | ⟨hb, hst⟩⟩ := hl.run_cases ha hh hd
    · exact hput hb (by simp [resume, release, hst, BodyPc.ended])
    · exact hput hb (by simp [resume, release, hst, hb])
  | check | publish | arm | parkFail | disarmFailed | lookSet | look | unpark | unparkFail
  | request | fire | onCancel | onCancelFail | post => exact hput rfl rfl
  | finish | publishWaking | publishReady | wake | runFreed => rfl

/-! ### Runs -/

/-- What holds in every state of a run whose steps meet the condition. -/
structure Inv (tr : List (State α χ × Event α χ)) (s : State α χ) : Prop where
  latch : Latch s
  told : ∀ j, (s.joins j).Told
  requested : ∀ j, (s.joins j).requested = true → ∃ p ∈ tr, p.2 = .request j
  published : Published s
  news : ∀ j, (s.joins j).News s.word s.pool
  ends : ∀ j, (logOf (endsAt j) tr).length = (s.joins j).body.ended.toNat
  finished : logOf finishesAt tr = s.outcome.toList
  working : s.runner = .working → s.outcome = none
  reports : ∀ j x, x ∈ logOf (endsAt j) tr → x = .destroyed ∨ x = .completed .cancelled ∨
    x = .completed (.result s.outcome) ∧ s.runner ≠ .working

theorem latch_init : Latch ({} : State α χ) where
  sound _ := ⟨rfl, ⟨rfl, rfl⟩, ⟨rfl, rfl, rfl⟩, rfl⟩
  past _ hi := absurd hi (Nat.not_lt_zero _)
  future _ _ := rfl
  home _ _ := iff_of_false nofun fun h => h.2 rfl
  apart _ _ _ := nofun
  word _ := nofun
  hands a := by simp [State.hands, State.awaited, holds, grip, RunnerPc.holds]

theorem inv_init : Inv [] ({} : State α χ) where
  latch := latch_init
  told _ := ⟨nofun, nofun, nofun, nofun, nofun, nofun⟩
  requested _ := nofun
  published := ⟨iff_of_false nofun nofun, fun h => absurd rfl h⟩
  news _ := ⟨nofun, nofun, by simp, nofun⟩
  ends _ := rfl
  finished := rfl
  working _ := rfl
  reports _ _ := by simp

/-- The outcome changes once, when the task ends. -/
theorem outcome_step (hc : Change s e t) :
    t.outcome = s.outcome ∧ finishesAt s e = [] ∧ (s.runner ≠ .working ↔ t.runner ≠ .working) ∨
      ∃ o, t.outcome = some o ∧ finishesAt s e = [o] ∧ s.runner = .working ∧
        t.runner ≠ .working := by
  cases hc with
  | finish hr => exact .inr ⟨_, rfl, rfl, hr, nofun⟩
  | publishWaking hr | publishReady hr | wake hr =>
    exact .inl ⟨rfl, rfl, by simp [hr]⟩
  | settle | reclaim | retire | retireKill | run =>
    refine .inl ?_
    simp only [State.reclaim, State.release]
    split <;> exact ⟨rfl, rfl, Iff.rfl⟩
  | _ => exact .inl ⟨rfl, rfl, Iff.rfl⟩

variable {j : ℕ}

/-- How a join ends, in the state it ends in. -/
theorem ends_of_step (hp : Published s) (hn : ∀ j, (s.joins j).News s.word s.pool)
    (hc : Change s e t) {x : End α χ} (hx : x ∈ endsAt j s e) :
    x = .destroyed ∨ x = .completed .cancelled ∨
      x = .completed (.result s.outcome) ∧ s.runner ≠ .working := by
  cases hc with
  | @awaitResume i hb =>
    simp only [endsAt] at hx
    split at hx
    · subst i
      rw [mem_singleton] at hx
      subst hx
      unfold State.report
      split
      · exact .inr (.inl rfl)
      · refine .inr (.inr ⟨rfl, fun hr => ?_⟩)
        have hw := ((hn j).resumed hb).resolve_left ‹_›
        simpa [hr] using hp.ready.mp hw
    · cases hx
  | @destroy =>
    simp only [endsAt] at hx
    split at hx
    · exact .inl (mem_singleton.mp hx)
    · cases hx
  | _ => cases hx

variable {tr : List (State α χ × Event α χ)}

theorem inv_step (h : Inv tr s) (hf : Fresh s e) (hc : Change s e t) : Inv (tr ++ [(s, e)]) t where
  latch := h.latch.step hf hc
  told := told_step h.told hc
  requested j hj := by
    rcases requested_step hc hj with hj | rfl
    · obtain ⟨p, hp, he⟩ := h.requested j hj
      exact ⟨p, mem_append_left _ hp, he⟩
    · exact ⟨(s, _), by simp, rfl⟩
  published := published_step h.published hc
  news := news_step h.latch h.published h.news hc
  ends j := by
    rw [logOf_snoc, length_append, h.ends j, ended_step h.latch hc j]
  finished := by
    rw [logOf_snoc, h.finished]
    rcases outcome_step hc with ⟨ho, hn, -⟩ | ⟨o, ho, hn, hr, -⟩
    · rw [ho, hn, append_nil]
    · rw [ho, hn, h.working hr]
      rfl
  working hr := by
    rcases outcome_step hc with ⟨ho, -, hw⟩ | ⟨o, -, -, -, hne⟩
    · rw [ho]
      exact h.working (by_contra fun hn => hw.mp hn hr)
    · exact absurd hr hne
  reports j x hx := by
    have hold : x = .destroyed ∨ x = .completed .cancelled ∨
        x = .completed (.result s.outcome) ∧ s.runner ≠ .working := by
      rw [logOf_snoc] at hx
      rcases mem_append.mp hx with hx | hx
      · exact h.reports j x hx
      · exact ends_of_step h.published h.news hc hx
    rcases outcome_step hc with ⟨ho, -, hw⟩ | ⟨o, -, -, hr, -⟩
    · rwa [ho, ← hw]
    · exact hold.imp id (.imp id fun hx => absurd hr hx.2)

theorem inv_run (hr : Run step {} tr s) (hf : ∀ p ∈ tr, Fresh p.1 p.2) : Inv tr s := by
  refine hr.induct Fresh hf inv_init fun _ _ ih hf hs => ?_
  exact inv_step ih hf (change_of_step hs)

/-- **The latch word never loses or doubles a wake.** -/
structure Promise (tr : List (State α χ × Event α χ)) (s : State α χ) : Prop where
  /-- A join ends once: it completes, or its frame is destroyed while it is parked. -/
  once : ∀ j, (logOf (endsAt j) tr).length ≤ 1
  /-- A join whose awaiter is gone has ended. -/
  gone : ∀ j, (s.joins j).body = .gone → (logOf (endsAt j) tr).length = 1
  /-- A join that completes does so with the task's outcome or with `CancelledException`. -/
  outcome : ∀ j r, .completed r ∈ logOf (endsAt j) tr →
    r = .cancelled ∨ ∃ o, r = .result (some o) ∧ logOf finishesAt tr = [o]
  /-- Before a join reports that it was cancelled, its cancellation was requested. -/
  cancelled : ∀ tr₁ p tr₂ j, tr = tr₁ ++ p :: tr₂ →
    .completed .cancelled ∈ endsAt j p.1 p.2 → ∃ q ∈ tr₁, q.2 = .request j
  /-- A parked joiner that nobody is about to wake is in the word, the outcome is not published and
  no cancel callback of the join has run. -/
  parked : ∀ j, (s.joins j).body = .parked → (s.joins j).suspend.running = false →
    (s.joins j).firing = 0 → (s.joins j).took = 0 → (s.joins j).addr ∉ s.pool →
    s.runner ≠ .waking (s.joins j).addr →
    s.word = .proxy (s.joins j).addr ∧ s.runner.published = false ∧ (s.joins j).watch = false
  /-- A join that was woken, or whose destructor has been at the word, leaves it `0` or ready. -/
  left : (s.joins s.cur).body.latched = false → s.word = .zero ∨ s.word = .ready
  /-- The pool resumes a proxy that exists: a parked joiner's, or that of a joiner destroyed before,
  which stays destroyed. -/
  resumes : ∀ p ∈ tr, ∀ a, p.2 = .run a → ∃ j, p.1.home a = some j ∧
    ((p.1.joins j).body = .parked ∨ (p.1.joins j).body = .gone ∧ (p.1.joins j).state = .killed)
  /-- A thread that took its proxy back resumes a joiner that is still parked. -/
  settles : ∀ p ∈ tr, ∀ j, p.2 = .settle j → (p.1.joins j).body = .parked

theorem Inv.parked (h : Inv tr s) (hb : (s.joins j).body = .parked)
    (hs : (s.joins j).suspend.running = false) (hfire : (s.joins j).firing = 0)
    (ht : (s.joins j).took = 0) (hpool : (s.joins j).addr ∉ s.pool)
    (hrun : s.runner ≠ .waking (s.joins j).addr) :
    s.word = .proxy (s.joins j).addr ∧ s.runner.published = false ∧ (s.joins j).watch = false := by
  obtain rfl := h.latch.eq_cur_of_latched (by rw [hb]; rfl)
  have hj := h.latch.sound s.cur
  simp only [Sound, hb] at hj
  have hr0 : (s.joins s.cur).refs ≠ 0 := by
    rw [hj.1.2.2]
    decide
  have hone := h.latch.hands (s.joins s.cur).addr
  have hgrip : (s.joins s.cur).grip = 0 := by
    have hu : (s.joins s.cur).suspend ≠ .unparked := by
      intro hu
      simp [hu] at hs
    simp [grip, ht, hu]
  have hrunner : s.runner.holds (s.joins s.cur).addr = 0 := by
    by_contra hne
    exact hrun (RunnerPc.eq_of_holds hne)
  rw [h.latch.awaited_self hr0] at hone
  simp only [State.hands, holds, hgrip, ↓reduceIte, hrunner,
    count_eq_zero_of_not_mem hpool, waits, hb, Bool.toNat_true] at hone
  have hw : s.word = .proxy (s.joins s.cur).addr := Word.eq_of_holds (by omega)
  refine ⟨hw, ?_, ?_⟩
  · by_contra hp
    have hready := h.published.ready.mpr (Bool.not_eq_false _ ▸ hp)
    cases hready.symm.trans hw
  · by_contra hwatch
    rcases (h.news s.cur).heard hw (by rw [hb]; rfl) (Bool.not_eq_false _ ▸ hwatch) with
      hc | hu | hfire'
    · simp [hc] at hs
    · simp [hu] at hs
    · exact hfire' hfire

theorem cancelled_of_ends (hx : .completed .cancelled ∈ endsAt j s e) :
    (s.joins j).cancelled = true := by
  cases e with simp only [endsAt] at hx
  | awaitResume =>
    by_contra hc
    split at hx
    · simp [State.report, hc] at hx
    · cases hx
  | destroy => split at hx <;> simp at hx
  | _ => cases hx

/-- Whom a step resumes. -/
theorem resumes_of_step (h : Latch s) (hc : Change s e t) :
    (∀ a, e = .run a → ∃ j, s.home a = some j ∧ ((s.joins j).body = .parked ∨
      (s.joins j).body = .gone ∧ (s.joins j).state = .killed)) ∧
      ∀ j, e = .settle j → (s.joins j).body = .parked := by
  refine ⟨?_, ?_⟩
  · rintro a rfl
    cases hc with
    | runFreed ha hh =>
      obtain ⟨j, hj, -⟩ := h.of_pool ha
      cases hh.symm.trans hj
    | @run _ j ha hh hd =>
      obtain ⟨-, -, hj⟩ := h.run_cases ha hh hd
      exact ⟨j, hh, hj.imp (fun hj => hj.2.1) id⟩
  · rintro j rfl
    cases hc with
    | settle hs => exact (h.sound j).body_of_unparked hs

/-- **Joins are safe as long as no address is reused too early.** In every run of a handle, with
whatever joins, cancellations and destroyed frames, whose steps all meet `Fresh`. -/
theorem join_safe {tr : List (State α χ × Event α χ)} {s : State α χ}
    (hr : Run step ({} : State α χ) tr s) (hf : ∀ p ∈ tr, Fresh p.1 p.2) : Promise tr s := by
  have h := inv_run hr hf
  have hstep : ∀ p ∈ tr, Latch p.1 ∧ ∃ t, Change p.1 p.2 t := by
    intro p hp
    obtain ⟨tr', t, hr', hs, hpre⟩ := hr.before hp
    exact ⟨(inv_run hr' fun q hq => hf q (hpre.subset hq)).latch, t, change_of_step hs⟩
  refine ⟨fun j => ?_, fun j hj => ?_, fun j r hx => ?_, ?_, fun j => h.parked, fun hb => ?_,
    fun p hp => ?_, fun p hp => ?_⟩
  · rw [h.ends j]
    exact Bool.toNat_le _
  · rw [h.ends j, hj]
    rfl
  · rcases h.reports j _ hx with hx | hx | ⟨hx, hw⟩
    · cases hx
    · cases hx
      exact .inl rfl
    · cases hx
      obtain ⟨o, ho⟩ := Option.ne_none_iff_exists'.mp (h.published.stored hw)
      exact .inr ⟨o, by rw [ho], by rw [h.finished, ho]; rfl⟩
  · rintro tr₁ p tr₂ j rfl hx
    have h₁ := inv_run hr.cut fun q hq => hf q (mem_append_left _ hq)
    exact h₁.requested j ((h₁.told j).cancelled (cancelled_of_ends hx))
  · cases hw : s.word with
    | zero => exact .inl rfl
    | ready => exact .inr rfl
    | proxy a => cases hb.symm.trans (h.latch.word a hw).2
  · obtain ⟨hl, t, hc⟩ := hstep p hp
    exact (resumes_of_step hl hc).1
  · obtain ⟨hl, t, hc⟩ := hstep p hp
    exact (resumes_of_step hl hc).2

/-- The first join is cancelled while it waits, and the next one, at another address, gets the
outcome. The thread that parked the first one looks at the latch last of all. -/
def cancelledThenJoined : List (Event Bool Unit) :=
  [.join true, .awaitReady 0, .check 0, .publish 0 8, .arm 0, .request 0, .fire 0, .park 0,
    .onCancel 0, .post 0, .run 8, .awaitResume 0, .disarm 0, .unlatch 0, .retire 0,
    .join false, .awaitReady 1, .check 1, .publish 1 16, .arm 1, .park 1, .look 1,
    .look 0, .unpark 0, .finish (.ok true), .publishReady, .wake, .run 16, .awaitResume 1,
    .disarm 1, .unlatch 1, .retire 1]

theorem join_safe_cancelledThenJoined : ∃ tr s, Run step ({} : State Bool Unit) tr s ∧
    (∀ p ∈ tr, Fresh p.1 p.2) ∧ logOf (endsAt 0) tr = [.completed .cancelled] ∧
    logOf (endsAt 1) tr = [.completed (.result (some (.ok true)))] ∧ s.word = .ready ∧
    Promise tr s := by
  have hr : Run step ({} : State Bool Unit) _ _ := .follow cancelledThenJoined (by decide +kernel)
  refine ⟨_, _, hr, ?_, ?_, ?_, ?_, join_safe hr ?_⟩ <;> decide +kernel

/-! ### Without the condition -/

/-- As before, but the second proxy is allocated where the first one was. -/
def addressReused : List (Event Bool Unit) :=
  [.join true, .awaitReady 0, .check 0, .publish 0 8, .arm 0, .request 0, .fire 0, .park 0,
    .onCancel 0, .post 0, .run 8, .awaitResume 0, .disarm 0, .unlatch 0, .retire 0,
    .join false, .awaitReady 1, .check 1, .publish 1 8, .arm 1, .park 1, .look 1,
    .look 0, .unpark 0, .settle 0, .finish (.ok true), .publishReady]

/-- The callback has run before the joiner parks, and the frame is destroyed while the thread that
parked it takes the proxy back. -/
def destroyedWhileUnparking : List (Event Bool Unit) :=
  [.join true, .awaitReady 0, .check 0, .publish 0 8, .arm 0, .request 0, .fire 0, .onCancel 0,
    .park 0, .look 0, .destroy 0, .disarm 0, .unpark 0, .unlatch 0, .retire 0, .settle 0]

/-- **A reused address loses a wake, and resumes a join that was over.** The second joiner is parked
for good: the outcome is published, and nobody has its proxy. The first one is resumed again after
it has completed, and, in the other schedule, after it was destroyed. -/
theorem join_loses_wake :
    (∃ tr s, Run step ({} : State Bool Unit) tr s ∧ (s.joins 1).body = .parked ∧
      s.word = .ready ∧ s.runner = .ended ∧ s.pool = [] ∧
      (∀ j ≤ s.cur, (s.joins j).suspend.running = false ∧ (s.joins j).firing = 0 ∧
        (s.joins j).took = 0) ∧
      logOf (endsAt 0) tr = [.completed .cancelled] ∧ (s.joins 0).body = .resumed ∧
      ¬ Promise tr s) ∧
    ∃ tr s, Run step ({} : State Bool Unit) tr s ∧ logOf (endsAt 0) tr = [.destroyed] ∧
      (s.joins 0).body = .resumed := by
  constructor
  · obtain ⟨tr, s, hr, hb, hw, hrun, hpool, hcur, hquiet, hend, hres⟩ : ∃ tr s,
        Run step ({} : State Bool Unit) tr s ∧ (s.joins 1).body = .parked ∧ s.word = .ready ∧
        s.runner = .ended ∧ s.pool = [] ∧ s.cur = 1 ∧
        (∀ j ≤ s.cur, (s.joins j).suspend.running = false ∧ (s.joins j).firing = 0 ∧
          (s.joins j).took = 0) ∧
        logOf (endsAt 0) tr = [.completed .cancelled] ∧ (s.joins 0).body = .resumed := by
      refine Run.exists_of_exec addressReused ?_
      decide +kernel
    refine ⟨tr, s, hr, hb, hw, hrun, hpool, hquiet, hend, hres, fun h => ?_⟩
    obtain ⟨hs, hf, ht⟩ := hquiet 1 (Nat.le_of_eq hcur.symm)
    have hword := (h.parked 1 hb hs hf ht (by simp [hpool]) (by simp [hrun])).1
    cases hw.symm.trans hword
  · refine Run.exists_of_exec destroyedWhileUnparking ?_
    decide +kernel

end Manwe.JoinHandle
