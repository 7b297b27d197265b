import Manwe.Wire.Signal.Story

/-!
# Signals, run after run

Every emission of a run calls the handlers that were connected at its snapshot, and every parked
`next()` ends once, with the first emission since or with `CancelledException`.
-/

namespace Manwe.Signal

open Function List State

variable {η α χ : Type*}

/-! ### A waiter on its way -/

namespace Seat

/-- The steps that bring a waiter from its seat to the pool and out of it. -/
@[simp] def own (j : ℕ) : Seat → Event η α χ → Bool
  | .emission k, .wake i _ => i == k
  | .thunk, .post i => i == j
  | .orphan, .orphan => true
  | .pool, .run i => i == j
  | _, _ => false

/-- How many such steps are left. -/
@[simp] def ahead (s : State η α χ) (j : ℕ) : Seat → ℕ
  | .pending => 0
  | .emission k => (s.emits k).waiters.idxOf j + 2
  | .thunk => 2
  | .orphan => s.orphans.idxOf j + 2
  | .pool => 1

end Seat

variable {s t : State η α χ} {e : Event η α χ} {j : ℕ}

theorem pool_step (hc : Change s e t) (hj : j ∈ s.pool) : j ∈ t.pool ∨ e = .run j := by
  cases hc with
  | @runKilled i | @run i =>
    by_cases hi : j = i
    · exact .inr (by rw [hi])
    · exact .inl ((mem_erase_of_ne hi).mpr hj)
  | @wake _ _ _ _ _ _ ok => cases ok <;> exact .inl (mem_append_left _ hj)
  | post _ | orphan _ => exact .inl (mem_append_left _ hj)
  | disconnect => exact .inl (by rwa [(quiet_disconnect ..).pool])
  | next | retry => exact .inl (by rwa [(quiet_park ..).pool])
  | cancel => exact .inl (by rwa [(quiet_cancelThunk ..).pool])
  | destroy => exact .inl (by rwa [(quiet_destroyNext ..).pool])
  | _ => exact .inl hj

theorem orphans_step (hs : Seats s) (hc : Change s e t) (hj : j ∈ s.orphans) :
    t.orphans = s.orphans ∧ e ≠ .orphan ∨ e = .orphan ∧ (j ∈ t.pool ∨
      j ∈ t.orphans ∧ t.orphans.idxOf j < s.orphans.idxOf j) := by
  cases hc with
  | destroySignal hd =>
    rw [hs.alive hd] at hj
    cases hj
  | @orphan i rest ho =>
    refine .inr ⟨rfl, ?_⟩
    by_cases hi : j = i
    · exact .inl (by simp [hi])
    · rw [ho] at hj ⊢
      have hmem := (mem_cons.mp hj).resolve_left hi
      exact .inr ⟨hmem, by rw [idxOf_cons_ne _ (Ne.symm hi)]; exact Nat.lt_succ_self _⟩
  | @wake _ _ _ _ _ _ ok => cases ok <;> exact .inl ⟨rfl, nofun⟩
  | disconnect => exact .inl ⟨(quiet_disconnect ..).orphans, nofun⟩
  | next | retry => exact .inl ⟨(quiet_park ..).orphans, nofun⟩
  | cancel => exact .inl ⟨(quiet_cancelThunk ..).orphans, nofun⟩
  | destroy => exact .inl ⟨(quiet_destroyNext ..).orphans, nofun⟩
  | _ => exact .inl ⟨rfl, nofun⟩

theorem took_step (hc : Change s e t) (hj : (s.nexts j).took = true) :
    (t.nexts j).took = true ∧ e ≠ .post j ∨ e = .post j ∧ j ∈ t.pool := by
  obtain rfl | he := eq_or_ne e (.post j)
  · cases hc with
    | post => exact .inr ⟨rfl, by simp⟩
  · refine .inl ⟨?_, he⟩
    have ha := alters_of_change hc j
    generalize t.nexts j = n at ha ⊢
    cases ha with
    | posted _ he' => exact absurd he' he
    | cancelled => rfl
    | _ => exact hj

theorem waiters_step (hc : Change s e t) {k : ℕ} (hj : j ∈ (s.emits k).waiters) :
    (t.emits k).waiters = (s.emits k).waiters ∧ (∀ ok, e ≠ .wake k ok) ∨
      (∃ ok, e = .wake k ok) ∧ (j ∈ t.pool ∨
        j ∈ (t.emits k).waiters ∧ (t.emits k).waiters.idxOf j < (s.emits k).waiters.idxOf j) := by
  have hput {i : ℕ} {p q : EmitPc α χ} (hi : s.emits i = q) (hq : q.waiters = [])
      (ht : t.emits = update s.emits i p) : (t.emits k).waiters = (s.emits k).waiters := by
    have hik : k ≠ i := by
      rintro rfl
      rw [hi, hq] at hj
      cases hj
    rw [ht, update_of_ne hik]
  cases hc with
  | emit hi => exact .inl ⟨hput hi rfl rfl, by simp⟩
  | @wake i m a list i' ws ok hi =>
    have hemits : ((s.hand i' (if ok then some a else none)).putEmit i (.waking m a list ws)).emits
      = update s.emits i (.waking m a list ws) := by
      rw [putEmit, (still_hand ..).emits]
    obtain rfl | hik := eq_or_ne k i
    · refine .inr ⟨⟨ok, rfl⟩, ?_⟩
      rw [hi] at hj ⊢
      rw [hemits, update_self]
      simp only [EmitPc.waiters] at hj ⊢
      by_cases hij : j = i'
      · refine .inl ?_
        cases ok <;> simp [hand, hij]
      · refine .inr ⟨(mem_cons.mp hj).resolve_left hij, ?_⟩
        rw [idxOf_cons_ne _ (Ne.symm hij)]
        exact Nat.lt_succ_self _
    · refine .inl ⟨by rw [hemits, update_of_ne hik], fun ok' he => hik ?_⟩
      cases he
      rfl
  | enterNone hi | enter hi | invokeEnd hi _ | dispatch hi _ | call hi _ _ | returned hi
  | returnedAsync hi | release hi => exact .inl ⟨hput hi rfl rfl, by simp⟩
  | disconnect =>
    refine .inl ⟨?_, by simp⟩
    unfold disconnect
    split <;> rfl
  | next | retry => exact .inl ⟨by rw [(still_park ..).emits], by simp⟩
  | cancel => exact .inl ⟨by rw [(still_cancelThunk ..).emits], by simp⟩
  | destroy => exact .inl ⟨by rw [(still_destroyNext ..).emits], by simp⟩
  | connect | runTask _ | post _ | runKilled _ _ | run _ _ | resume _ | destroySignal _
  | orphan => exact .inl ⟨rfl, by simp⟩

/-- Once the pool has resumed it, nobody has the waiter. -/
theorem not_at_of_run (hs : Seats s) (hj : j ∈ s.pool) (hc : Change s (.run j) t) (q : Seat) :
    ¬ t.At q j := by
  have hpool : s.At .pool j := hj
  suffices hat : t.At q j → s.At q j ∧ q ≠ .pool by
    intro hq
    exact (hat hq).2 (hs.one q .pool j (hat hq).1 hpool)
  intro hq
  cases hc with
  | runKilled | run =>
    cases q with
    | pool => exact absurd hq hs.poolNodup.not_mem_erase
    | thunk => exact ⟨by simpa [putNext] using hq, by simp⟩
    | pending | emission | orphan => exact ⟨hq, by simp⟩

/-- **A waiter on its way gets there.** Whoever has it can take a step, each such step brings it
closer to the end, and no other step takes it away from it. -/
def Arrives (s : State η α χ) (p : Seat) (j : ℕ) : Prop :=
  (∃ e t, p.own j e = true ∧ step s e = some t) ∧
  ∀ e t, step s e = some t → (∀ q, ¬ t.At q j) ∨ ∃ q, q ≠ .pending ∧ t.At q j ∧
    q.ahead t j ≤ p.ahead s j ∧ (p.own j e = true → q.ahead t j < p.ahead s j)

theorem exists_own_step {p : Seat} (hp : p ≠ .pending) (hj : s.At p j) :
    ∃ e t, p.own j e = true ∧ step s e = some t := by
  cases p with
  | pending => exact absurd rfl hp
  | emission k =>
    cases hk : s.emits k with
    | waking m a list ws =>
      simp only [At, hk, EmitPc.waiters] at hj
      obtain ⟨i, ws, rfl⟩ := exists_cons_of_ne_nil (ne_nil_of_mem hj)
      exact ⟨.wake k true, _, by simp, by simp only [step, hk]; rfl⟩
    | _ =>
      simp only [At, hk] at hj
      cases hj
  | thunk => exact ⟨.post j, _, by simp, if_pos hj⟩
  | orphan =>
    obtain ⟨i, rest, ho⟩ := exists_cons_of_ne_nil (ne_nil_of_mem hj)
    exact ⟨.orphan, _, rfl, by simp only [step, ho]; rfl⟩
  | pool =>
    refine ⟨.run j, ?_⟩
    simp only [step, if_pos (show j ∈ s.pool from hj)]
    split <;> exact ⟨_, by simp, rfl⟩

theorem arrives (hs : Seats s) {p : Seat} (hp : p ≠ .pending) (hj : s.At p j) : Arrives s p j := by
  refine ⟨exists_own_step hp hj, fun e t hst => ?_⟩
  have hc := change_of_step hst
  cases p with
  | pending => exact absurd rfl hp
  | emission k =>
    refine .inr ?_
    rcases waiters_step hc hj with ⟨hw, hne⟩ | ⟨⟨ok, rfl⟩, hpool | ⟨hmem, hlt⟩⟩
    · refine ⟨.emission k, nofun, by rwa [At, hw], by simp [hw], fun ho => ?_⟩
      cases e with
      | wake i ok =>
        have hi : i = k := by simpa using ho
        exact absurd (by rw [hi]) (hne ok)
      | _ => cases ho
    · exact ⟨.pool, nofun, hpool, by simp, fun _ => by simp⟩
    · refine ⟨.emission k, nofun, hmem, ?_, fun _ => ?_⟩ <;> simp only [Seat.ahead] <;> omega
  | thunk =>
    refine .inr ?_
    rcases took_step hc hj with ⟨ht, hne⟩ | ⟨-, hpool⟩
    · refine ⟨.thunk, nofun, ht, Nat.le_refl _, fun ho => ?_⟩
      cases e with
      | post i =>
        have hi : i = j := by simpa using ho
        exact absurd (by rw [hi]) hne
      | _ => cases ho
    · exact ⟨.pool, nofun, hpool, by simp, fun _ => by simp⟩
  | orphan =>
    refine .inr ?_
    rcases orphans_step hs hc hj with ⟨ht, hne⟩ | ⟨-, hpool | ⟨hmem, hlt⟩⟩
    · refine ⟨.orphan, nofun, by rwa [At, ht], by simp [ht], fun ho => ?_⟩
      cases e with
      | orphan => exact absurd rfl hne
      | _ => cases ho
    · exact ⟨.pool, nofun, hpool, by simp, fun _ => by simp⟩
    · refine ⟨.orphan, nofun, hmem, ?_, fun _ => ?_⟩ <;> simp only [Seat.ahead] <;> omega
  | pool =>
    obtain rfl | he := eq_or_ne e (.run j)
    · exact .inl fun q hq => not_at_of_run hs hj hc q hq
    · refine .inr ⟨.pool, nofun, (pool_step hc hj).resolve_right he, Nat.le_refl _, fun ho => ?_⟩
      cases e with
      | run i =>
        have hi : i = j := by simpa using ho
        exact absurd (by rw [hi]) he
      | _ => cases ho

/-! ### Runs -/

/-- The handlers that are connected after a history, in the order in which they were. -/
def roster (tr : List (State η α χ × Event η α χ)) : List (ℕ × η) :=
  tr.foldl (fun l p => edit p.1 p.2 l) []

/-- What holds in every state of a run. -/
structure Inv (tr : List (State η α χ × Event η α χ)) (s : State η α χ) : Prop where
  frozen : Frozen s
  told : Told tr s
  roster : s.connected = roster tr
  tasks : (logOf dispatchesAt tr).Perm (s.tasks ++ logOf runsAt tr)
  seats : Seats s
  story : Story tr s

theorem inv_init : Inv [] ({} : State η α χ) where
  frozen := .init
  told := .init
  roster := rfl
  tasks := .refl _
  seats := .init
  story := .init

variable {tr : List (State η α χ × Event η α χ)}

theorem inv_step (h : Inv tr s) (hc : Change s e t) : Inv (tr ++ [(s, e)]) t where
  frozen := h.frozen.step hc
  told := h.told.step h.frozen hc
  roster := by
    rw [connected_step hc, h.roster]
    simp [Signal.roster]
  tasks := by
    have hstep := (tasks_step hc).append_right (logOf runsAt tr)
    rw [logOf_snoc, logOf_snoc]
    refine (h.tasks.append_right _).trans ?_
    rw [append_assoc] at hstep ⊢
    refine (perm_append_comm.append_left _).trans (hstep.trans ?_)
    rw [append_assoc]
    exact perm_append_comm.append_left _
  seats := h.seats.step hc
  story := h.story.step h.seats hc

theorem inv_run (hr : Run step {} tr s) : Inv tr s := by
  induction hr with
  | start => exact inv_init
  | next _ hs ih => exact inv_step ih (change_of_step hs)

/-- **A Signal keeps its word.** -/
structure Promise (tr : List (State η α χ × Event η α χ)) (s : State η α χ) : Prop where
  /-- The handlers that are connected are those the calls to `connect` and `disconnect` leave, in
  the order of their registration. -/
  connected : s.connected = roster tr
  /-- An emission has one snapshot, which is the list connected at that step (`snapsAt`). What it
  has called is the first part of the snapshot, each handler once and in order, with its arguments.
  -/
  calls : ∀ k, s.emits k ≠ .idle → ∃ m args view n, logOf (snapsAt k) tr = [(m, args, view)] ∧
    logOf (callsAt k) tr = (view.take n).map (callOf args)
  /-- An emission that is over has called all of them, whichever threw, and left with the first
  exception. -/
  all : ∀ k first, s.emits k = .finished first → ∃ m args view,
    logOf (snapsAt k) tr = [(m, args, view)] ∧ logOf (callsAt k) tr = view.map (callOf args) ∧
    first = (logOf (throwsAt k) tr).head?
  /-- A handler given to the pool is run once, or the pool still has it. -/
  dispatched : (logOf dispatchesAt tr).Perm (s.tasks ++ logOf runsAt tr)
  /-- A `next()` ends once. -/
  once : ∀ j, (logOf (endsAt j) tr).length ≤ 1
  /-- It ends with arguments only if they are those of the first emission since it parked, and it
  was not withdrawn before. -/
  value : ∀ j a, some (some a) ∈ logOf (endsAt j) tr → Got j tr a ∧ ¬ Withdrawn j tr
  /-- One that has parked ends with `CancelledException` only if it was withdrawn before any
  emission came, or the copy of the arguments of that emission threw. -/
  cancelled : ∀ j, some none ∈ logOf (endsAt j) tr →
    since j tr = none ∨ Withdrawn j tr ∨ Failed j tr
  /-- While it is suspended it is in the pending list, and then no emission has come since it parked
  and it was not withdrawn; or somebody has it, and it is on its way. -/
  parked : ∀ j, (s.nexts j).pc = .parked → j ∈ s.pending ∧ since j tr = some [] ∧ ¬ Withdrawn j tr ∨
    ∃ p, p ≠ .pending ∧ s.At p j ∧ Arrives s p j

theorem Inv.value (h : Inv tr s) {a : α} (hj : some (some a) ∈ logOf (endsAt j) tr) :
    Got j tr a ∧ ¬ Withdrawn j tr := by
  have hpc := h.story.results j _ hj
  have hr := h.story.completed j _ hpc
  unfold Next.awaitResume at hr
  split at hr
  · cases hr
  · rename_i hflags
    refine ⟨h.story.value j a hr.symm, fun hw => ?_⟩
    rcases h.story.withdrawn j hw with hc | hg | hd
    · simp [hc] at hflags
    · simp [hg] at hflags
    · cases hd.symm.trans hpc

theorem Inv.cancelled (h : Inv tr s) (hj : some none ∈ logOf (endsAt j) tr) : Excused j tr := by
  have hpc := h.story.results j _ hj
  have hr := h.story.completed j _ hpc
  refine h.story.told j ?_
  rcases h.story.served j (.inr (.inr ⟨_, hpc⟩)) with hc | hg | hv
  · exact .inl hc
  · exact .inr hg
  · unfold Next.awaitResume at hr
    split_ifs at hr with hflags
    · exact (Bool.or_eq_true _ _).mp hflags
    · exact absurd hr.symm hv

theorem Inv.parked (h : Inv tr s) (hj : (s.nexts j).pc = .parked) :
    j ∈ s.pending ∧ since j tr = some [] ∧ ¬ Withdrawn j tr ∨
      ∃ p, p ≠ .pending ∧ s.At p j ∧ Arrives s p j := by
  obtain ⟨p, hp⟩ := h.seats.seated j hj
  obtain rfl | hpend := eq_or_ne p .pending
  · have hq := (h.seats.queued j).mpr hp
    obtain ⟨hc, hg⟩ := h.story.live j hq
    refine .inl ⟨hp, h.story.queued j hq, fun hw => ?_⟩
    rcases h.story.withdrawn j hw with hc' | hg' | hd
    · cases hc.symm.trans hc'
    · cases hg.symm.trans hg'
    · cases hj.symm.trans hd
  · exact .inr ⟨p, hpend, hp, arrives h.seats hpend hp⟩

/-- **Signals are safe**, whatever emissions, connections, waits, cancellations and destructions
interleave. -/
theorem signal_safe {tr : List (State η α χ × Event η α χ)} (hr : Run step {} tr s) :
    Promise tr s := by
  have h := inv_run hr
  refine ⟨h.roster, fun k hk => ?_, fun k first hk => ?_, h.tasks, fun j => ?_, fun j a => h.value,
    fun j => h.cancelled, fun j => h.parked⟩
  · have htold := h.told k
    cases hk' : s.emits k with rw [hk'] at htold
    | idle => exact absurd hk' hk
    | waking m args => exact ⟨m, args, _, 0, htold.1, htold.2.1⟩
    | calling m args a i => exact ⟨m, args, _, i, htold.1, htold.2.1⟩
    | running m args a i => exact ⟨m, args, _, i + 1, htold.1, htold.2.1⟩
    | releasing | finished =>
      obtain ⟨m, args, view, hsnap, hcalls, -⟩ := htold
      exact ⟨m, args, view, view.length, hsnap, by rwa [take_length]⟩
  · have htold := h.told k
    rwa [hk] at htold
  · rw [h.story.ends j]
    exact Bool.toNat_le _

/-- Two handlers and two waiters, the second of which is cancelled. The first handler disconnects
the second, connects a third, emits itself and throws; the emission that called it is not affected.
-/
def emittedInHandler : List (Event ℕ ℕ Unit) :=
  [.connect 10 true, .connect 20 true, .next 0 none, .next 1 (some false), .retry 1, .cancel 1,
    .emit 0 .emit 7, .wake 0 true, .enter 0, .invoke 0 false, .disconnect 2 true, .connect 30 true,
    .emit 1 .emitAsync 8, .enter 1, .invoke 1 false, .invoke 1 false, .invoke 1 false, .release 1,
    .returned 0 (some ()), .invoke 0 false, .returned 0 none, .invoke 0 false, .release 0,
    .post 1, .run 0, .run 1, .resume 0, .resume 1, .runTask 0]

theorem signal_safe_emittedInHandler : ∃ tr s, Run step ({} : State ℕ ℕ Unit) tr s ∧
    logOf (callsAt 0) tr = [(1, 10, 7), (2, 20, 7)] ∧ s.emits 0 = .finished (some ()) ∧
    logOf (callsAt 1) tr = [(1, 10, 8), (3, 30, 8)] ∧ logOf (endsAt 0) tr = [some (some 7)] ∧
    logOf (endsAt 1) tr = [some none] ∧ Promise tr s := by
  have hr : Run step ({} : State ℕ ℕ Unit) _ _ := .follow emittedInHandler (by decide +kernel)
  refine ⟨_, _, hr, ?_, ?_, ?_, ?_, ?_, signal_safe hr⟩ <;> decide +kernel

end Manwe.Signal
