import Manwe.Yarn.WhenAll.Latch

/-!
# `whenAll` collects every result

A runner that is done has stored the value of its task, or an exception is recorded (`Collected`).
Together with the latch, which lets the caller go on only when every runner has taken its slot off,
this gives what the caller gets: the values in the order of the tasks, or the exception that was
recorded first.
-/

namespace Manwe.WhenAll

open List State Prod

variable {α χ : Type*}

/-! ### Results and exceptions -/

/-- A task ends. -/
def finishesAt (_ : State α χ) : Event α χ → List (ℕ × Except χ α)
  | .finish i o => [(i, o)]
  | _ => []

/-- An exception is handed to `recordException`. -/
def recordedAt (s : State α χ) : Event α χ → List χ
  | .record i =>
    match s.runners i with
    | .recording x => [x]
    | _ => []
  | .failRecord =>
    match s.loop with
    | .failing _ x => [x]
    | _ => []
  | _ => []

/-- The runner's task has not ended. -/
def RunnerPc.fresh : RunnerPc χ → Bool
  | .unspawned | .working => true
  | _ => false

/-- The runner has stored a value or recorded an exception. -/
def RunnerPc.late : RunnerPc χ → Bool
  | .completing | .taking | .waking | .ended => true
  | _ => false

/-- **What has been collected**: a runner that is done has stored the value of its task, or some
exception is recorded; the first one recorded is kept. -/
structure Collected (n : ℕ) (s : State α χ) (finishes : List (ℕ × Except χ α))
    (recorded : List χ) : Prop where
  exception : s.exception = recorded.head?
  fresh : ∀ i, (s.runners i).fresh = true → i ∉ finishes.map fst
  failed : ∀ i x, s.runners i = .recording x → (i, .error x) ∈ finishes
  stored : ∀ i, (s.runners i).late = true →
    (∃ a, s.results i = some a ∧ (i, .ok a) ∈ finishes) ∨ recorded ≠ []
  nodup : (finishes.map fst).Nodup
  unspawned : ∀ k, s.loop = .spawning k → ∀ j, s.runners j = .unspawned ↔ k ≤ j
  settling : ∀ j, s.loop = .settling j → recorded ≠ []
  ended : s.loop = .ended → recorded ≠ [] ∨ ∀ j < n, s.runners j ≠ .unspawned

theorem collected_init (n : ℕ) : Collected n (init n : State α χ) [] [] := by
  unfold init spawnFrom loopFrom
  split
  · refine ⟨rfl, by simp, nofun, nofun, .nil, ?_, nofun, nofun⟩
    rintro _ ⟨⟩ j
    exact ⟨fun _ => Nat.zero_le j, fun _ => rfl⟩
  · refine ⟨rfl, by simp, nofun, nofun, .nil, nofun, nofun, fun _ => .inr fun j hj => ?_⟩
    omega

namespace Collected

variable {n : ℕ} {s t : State α χ} {finishes : List (ℕ × Except χ α)} {recorded : List χ}
  {i : ℕ} {r : RunnerPc χ}

theorem forall_put {Q : ℕ → RunnerPc χ → Prop} (h : ∀ j, j ≠ i → Q j (s.runners j)) (hi : Q i r)
    (j : ℕ) : Q j ((s.put i r).runners j) := by
  obtain rfl | hj := eq_or_ne j i
  · simpa [State.put] using hi
  · simpa [State.put, hj] using h j hj

variable {r₀ : RunnerPc χ}

variable (h : Collected n s finishes recorded) (hi : s.runners i = r₀)

include h hi

/-- A spawned runner goes on; what it adds to the two logs is its own. -/
theorem put {f : List (ℕ × Except χ α)} {x : List χ} (h₀ : r₀ ≠ .unspawned)
    (ht : t.runners = (s.put i r).runners) (hfresh : r.fresh = false) (hl : t.loop = s.loop)
    (hres : ∀ j, j ≠ i → t.results j = s.results j)
    (hf : f = [] ∨ r₀.fresh = true ∧ ∃ o, f = [(i, o)]) (hx : t.exception = (recorded ++ x).head?)
    (hfailed : ∀ y, r = .recording y → (i, .error y) ∈ finishes ++ f)
    (hstored : r.late = true → (∃ a, t.results i = some a ∧ (i, .ok a) ∈ finishes ++ f) ∨
      recorded ++ x ≠ []) : Collected n t (finishes ++ f) (recorded ++ x) := by
  have hmem : ∀ j, j ≠ i → j ∉ finishes.map fst → j ∉ (finishes ++ f).map fst := by
    intro j hj hj'
    rcases hf with rfl | ⟨-, o, rfl⟩
    · simpa using hj'
    · simpa [hj] using hj'
  have hrec : recorded ≠ [] → recorded ++ x ≠ [] := by simp +contextual
  have hr : r ≠ .unspawned := by
    rintro rfl
    simp [RunnerPc.fresh] at hfresh
  refine ⟨hx, ?_, ?_, ?_, ?_, ?_, fun j hj => hrec (h.settling j (hl ▸ hj)), ?_⟩
  · rw [ht]
    exact forall_put (Q := fun j r => r.fresh = true → j ∉ (finishes ++ f).map fst)
      (fun j hj hjf => hmem j hj (h.fresh j hjf)) (by simp [hfresh])
  · rw [ht]
    exact forall_put (Q := fun j r => ∀ y, r = .recording y → (j, .error y) ∈ finishes ++ f)
      (fun j _ y hy => mem_append_left _ (h.failed j y hy)) hfailed
  · rw [ht]
    refine forall_put (Q := fun j r => r.late = true →
      (∃ a, t.results j = some a ∧ (j, .ok a) ∈ finishes ++ f) ∨ recorded ++ x ≠ []) ?_ hstored
    intro j hj hlate
    rw [hres j hj]
    rcases h.stored j hlate with ⟨a, ha, hm⟩ | hne
    · exact .inl ⟨a, ha, mem_append_left _ hm⟩
    · exact .inr (hrec hne)
  · rcases hf with rfl | ⟨hfr, o, rfl⟩
    · simpa using h.nodup
    · rw [map_append, map_singleton, nodup_append]
      refine ⟨h.nodup, nodup_singleton _, ?_⟩
      rintro j hj _ hk rfl
      rw [mem_singleton] at hk
      exact h.fresh i (hi ▸ hfr) ((show j = i from hk) ▸ hj)
  · intro k hk
    have hki : ¬ k ≤ i := fun hle => h₀ (hi ▸ (h.unspawned k (hl ▸ hk) i).mpr hle)
    rw [ht]
    exact forall_put (Q := fun j r => r = .unspawned ↔ k ≤ j)
      (fun j _ => h.unspawned k (hl ▸ hk) j) (iff_of_false hr hki)
  · intro hend
    rcases h.ended (hl ▸ hend) with hne | hsp
    · exact .inl (hrec hne)
    · rw [ht]
      exact .inr (forall_put (Q := fun j r => j < n → r ≠ .unspawned) (fun j _ => hsp j)
        fun _ => hr)

/-- The runner goes on after it has stored or recorded. -/
theorem pass (h₀ : r₀.late = true) (hr : r.late = true) (ht : t.runners = (s.put i r).runners)
    (hl : t.loop = s.loop) (hres : t.results = s.results) (hx : t.exception = s.exception) :
    Collected n t finishes recorded := by
  have hcases {r : RunnerPc χ} (hr : r.late = true) :
      r ≠ .unspawned ∧ r.fresh = false ∧ ∀ y, r ≠ .recording y := by
    cases r <;> simp_all [RunnerPc.late, RunnerPc.fresh]
  have hput := h.put hi (hcases h₀).1 ht (hcases hr).2.1 hl (fun j _ => by rw [hres]) (.inl rfl)
    (by rw [hx, h.exception, append_nil]) (fun y hy => absurd hy ((hcases hr).2.2 y))
    (fun _ => by
      rw [hres, append_nil, append_nil]
      exact h.stored i (hi ▸ h₀))
  simpa using hput

end Collected

theorem head?_append_singleton (l : List χ) (x : χ) : (l ++ [x]).head? = l.head?.or (some x) := by
  cases l <;> rfl

variable {e : Event α χ}

variable {n : ℕ} {s t : State α χ} {tr : List (State α χ × Event α χ)}

theorem collected_step {finishes : List (ℕ × Except χ α)} {recorded : List χ}
    (h : Collected n s finishes recorded) (hc : Change n s e t) :
    Collected n t (finishes ++ finishesAt s e) (recorded ++ recordedAt s e) := by
  cases hc with
  | @spawn k hl =>
    have hu := h.unspawned k hl
    have hk : s.runners k = .unspawned := (hu k).mpr le_rfl
    have hfresh := Collected.forall_put (r := .working)
      (Q := fun j r => r.fresh = true → j ∉ finishes.map fst) (fun j _ => h.fresh j)
      fun _ => h.fresh k (by rw [hk]; rfl)
    have hfailed := Collected.forall_put (i := k) (r := .working)
      (Q := fun j r => ∀ x, r = .recording x → (j, .error x) ∈ finishes) (fun j _ => h.failed j)
      nofun
    have hstored := Collected.forall_put (i := k) (r := .working)
      (Q := fun j r => r.late = true → (∃ a, s.results j = some a ∧ (j, .ok a) ∈ finishes) ∨
        recorded ≠ []) (fun j _ => h.stored j) nofun
    simp only [finishesAt, recordedAt, append_nil]
    unfold spawnFrom loopFrom
    split
    · refine ⟨h.exception, hfresh, hfailed, hstored, h.nodup, ?_, nofun, nofun⟩
      rintro _ ⟨⟩
      refine Collected.forall_put (Q := fun j r => r = .unspawned ↔ k + 1 ≤ j) (fun j hj => ?_)
        (iff_of_false nofun (by omega))
      rw [hu j]
      omega
    · refine ⟨h.exception, hfresh, hfailed, hstored, h.nodup, nofun, nofun, fun _ => .inr ?_⟩
      refine Collected.forall_put (Q := fun j r => j < n → r ≠ .unspawned) (fun j hj hjn => ?_)
        nofun
      rw [ne_eq, hu j]
      omega
  | spawnFail =>
    simp only [finishesAt, recordedAt, append_nil]
    exact { h with unspawned := nofun, settling := nofun, ended := nofun }
  | @failRecord k x hl =>
    have hne : recorded ++ [x] ≠ [] := by simp
    have hx : s.exception.or (some x) = (recorded ++ [x]).head? := by
      rw [head?_append_singleton, h.exception]
    have hstored : ∀ i, (s.runners i).late = true →
        (∃ a, s.results i = some a ∧ (i, .ok a) ∈ finishes) ∨ recorded ++ [x] ≠ [] :=
      fun _ _ => .inr hne
    simp only [finishesAt, recordedAt, hl, append_nil]
    unfold settleFrom loopFrom
    split <;> exact ⟨hx, h.fresh, h.failed, hstored, h.nodup, nofun, fun _ _ => hne,
      fun _ => .inl hne⟩
  | @failComplete j hl =>
    have hne := h.settling j hl
    simp only [finishesAt, recordedAt, append_nil]
    unfold settleFrom loopFrom
    split <;> exact { h with
      unspawned := nofun
      settling := fun _ _ => hne
      ended := fun _ => .inl hne }
  | @finish i a hi =>
    simp only [recordedAt]
    refine h.put hi nofun rfl rfl rfl (fun j hj => by simp [hj]) (.inr ⟨rfl, _, rfl⟩) ?_ nofun
      fun _ => .inl ⟨a, ?_, ?_⟩
    · rw [append_nil]
      exact h.exception
    · simp
    · simp [finishesAt]
  | @finishError i x hi =>
    simp only [recordedAt]
    refine h.put hi nofun rfl rfl rfl (fun _ _ => rfl) (.inr ⟨rfl, _, rfl⟩) ?_ ?_ nofun
    · rw [append_nil]
      exact h.exception
    · rintro y ⟨⟩
      simp [finishesAt]
  | @record i x hi =>
    simp only [finishesAt, recordedAt, hi]
    refine h.put hi nofun rfl rfl rfl (fun _ _ => rfl) (.inl rfl) ?_ nofun fun _ => .inr (by simp)
    rw [head?_append_singleton, ← h.exception]
    rfl
  | completeLast hi | complete hi | take hi | takeNone hi | wake hi | wakeKilled hi =>
    simp only [finishesAt, recordedAt, append_nil]
    exact h.pass hi rfl rfl rfl rfl rfl rfl
  | _ =>
    simp only [finishesAt, recordedAt, append_nil]
    exact { h with }

/-! ### Runs -/

/-- The step takes a slot off the latch. -/
def Event.latches : Event α χ → Bool
  | .failComplete | .count | .complete _ => true
  | _ => false

/-- **The latch does not underflow.** -/
theorem remaining_pos (h : Counts n s) (hc : Change n s e t) (he : e.latches = true) :
    0 < s.remaining := by
  obtain ⟨b, slot, -, hcount, hslot⟩ := h.latch
  cases hc with
  | failComplete hl =>
    have hb : s.caller = .busy := h.busy (by simp [hl])
    simp only [Slot, hb] at hslot
    omega
  | countLast hc | count hc =>
    simp only [Slot, hc] at hslot
    omega
  | completeLast hi | complete hi => exact (h.not_past (by rw [hi]; rfl)).1
  | _ => cases he

/-- What holds in every state of a run. -/
structure Inv (n : ℕ) (tr : List (State α χ × Event α χ)) (s : State α χ) : Prop where
  counts : Counts n s
  handle : Handle s (logOf resumesAt tr).length
  collected : Collected n s (logOf finishesAt tr) (logOf recordedAt tr)
  seen : s.caller = .returned → s.seen = some (s.outcome n)
  destroyed : (∃ p ∈ tr, p.2 = .destroy) → s.caller = .destroyed

theorem inv_init (n : ℕ) : Inv n [] (init n : State α χ) := by
  refine ⟨counts_init n, handle_init n, collected_init n, ?_, by simp⟩
  unfold init spawnFrom loopFrom
  split
  · nofun
  · nofun

/-- After the caller has returned, nothing it has read changes. -/
theorem returned_step (h : Counts n s) (hc : Change n s e t) (ht : t.caller = .returned) :
    t.outcome n = s.outcome n ∧
      (t.seen = some (s.outcome n) ∨ s.caller = .returned ∧ t.seen = s.seen) := by
  have hfrom {k : ℕ} {l : LoopPc χ} {u : State α χ} (hu : u.caller = .busy) :
      (u.loopFrom n k l).caller ≠ .returned := by
    unfold loopFrom
    split
    · simp [hu]
    · nofun
  have hbusy {i : ℕ} (hi : (s.runners i).busy = true) : s.caller ≠ .returned :=
    (h.not_past hi).2.2.2
  cases hc with
  | awaitResume => exact ⟨rfl, .inl rfl⟩
  | spawn hl | failRecord hl | failComplete hl => exact absurd ht (hfrom (h.busy (by simp [hl])))
  | finish hi | finishError hi | record hi => exact absurd ht (hbusy (by rw [hi]; rfl))
  | ready | notReady | store | countLast | count | reclaim | destroy | destroyTaken | wake =>
    cases ht
  | _ => exact ⟨rfl, .inr ⟨ht, rfl⟩⟩

/-- A caller destroyed while parked stays where it is. -/
theorem destroyed_step {resumes : ℕ} (h : Counts n s) (hh : Handle s resumes) (hc : Change n s e t)
    (hd : s.caller = .destroyed) : t.caller = .destroyed := by
  have hloop (hl : s.loop ≠ .ended) : False := by simp [h.busy hl] at hd
  cases hc with
  | spawn hl | failRecord hl | failComplete hl => exact (hloop (by simp [hl])).elim
  | ready hc | notReady hc | store hc | countLast hc | count hc | reclaim hc | awaitResume hc
  | destroy hc | destroyTaken hc => simp [hd] at hc
  | wake hi hk => simp [(hh.remaining_of_wakes hi hk).2] at hd
  | _ => exact hd

theorem inv_step (h : Inv n tr s) (hc : Change n s e t) : Inv n (tr ++ [(s, e)]) t := by
  have hu : ∀ k, s.loop = .spawning k → s.runners k = .unspawned :=
    fun k hk => (h.collected.unspawned k hk k).mpr le_rfl
  refine ⟨counts_step h.counts hu (fun i hi hk => (h.handle.remaining_of_wakes hi hk).1) hc, ?_, ?_,
    ?_, ?_⟩
  · rw [logOf_snoc, length_append]
    exact handle_step h.handle h.counts hu hc
  · rw [logOf_snoc, logOf_snoc]
    exact collected_step h.collected hc
  · intro ht
    obtain ⟨ho, hseen | ⟨hret, hseen⟩⟩ := returned_step h.counts hc ht
    · rw [hseen, ho]
    · rw [hseen, ho, h.seen hret]
  · rintro ⟨p, hp, hd⟩
    rcases mem_append.mp hp with hp | hp
    · exact destroyed_step h.counts h.handle hc (h.destroyed ⟨p, hp, hd⟩)
    · rw [mem_singleton] at hp
      subst hp
      subst hd
      cases hc
      · rfl
      · rfl

theorem inv_run (hr : Run (step n) (init n) tr s) : Inv n tr s := by
  induction hr with
  | start => exact inv_init n
  | next _ hs ih => exact inv_step ih (change_of_step hs)

/-- Slots that are all filled hold a list of values. -/
theorem exists_values {P : ℕ → α → Prop} {f : ℕ → Option α} :
    ∀ {n : ℕ}, (∀ i < n, ∃ a, f i = some a ∧ P i a) →
      ∃ vs : List α, (range n).map f = vs.map some ∧ ∀ (i : ℕ) a, vs[i]? = some a → P i a
  | 0, _ => ⟨[], rfl, by simp⟩
  | n + 1, h => by
    obtain ⟨vs, hvs, hP⟩ := exists_values fun i hi => h i (Nat.lt_succ_of_lt hi)
    obtain ⟨a, ha, hPa⟩ := h n (Nat.lt_succ_self n)
    have hlen : vs.length = n := by simpa using (congrArg length hvs).symm
    refine ⟨vs ++ [a], ?_, fun i b hb => ?_⟩
    · rw [range_succ, map_append, map_append, hvs, map_singleton, ha, map_singleton]
    · rcases Nat.lt_trichotomy i n with hi | rfl | hi
      · exact hP i b (by rwa [getElem?_append_left (by omega)] at hb)
      · simp only [← hlen, getElem?_concat_length, Option.some.injEq] at hb
        exact hb ▸ hPa
      · have hle : (vs ++ [a]).length ≤ i := by
          rw [length_append, length_singleton]
          omega
        rw [getElem?_eq_none hle] at hb
        cases hb

/-- What `whenAll` promises in every state of a run. -/
structure Promise (n : ℕ) (tr : List (State α χ × Event α χ)) (s : State α χ) : Prop where
  /-- the latch never underflows; -/
  latch : ∀ p ∈ tr, p.2.latches = true → 0 < p.1.remaining
  /-- the caller is resumed at most once, and one that goes on as often as it stayed suspended, -/
  once : (logOf resumesAt tr).length ≤ 1
  resumed : s.caller = .resuming ∨ s.caller = .returned →
    (logOf resumesAt tr).length = s.parked.toNat
  /-- after every spawned runner has taken its slot off the latch; -/
  latched : s.caller = .resuming ∨ s.caller = .returned →
    s.loop = .ended ∧ ∀ i, (s.runners i).busy = false
  /-- then it gets the values of the tasks, each of which has ended once, in their order, -/
  tasks : ((logOf finishesAt tr).map fst).Nodup
  values : s.caller = .returned → logOf recordedAt tr = [] →
    ∃ vs : List α, vs.length = n ∧ s.seen = some (.ok (vs.map some)) ∧
      ∀ (i : ℕ) a, vs[i]? = some a → (i, .ok a) ∈ logOf finishesAt tr
  /-- or the exception recorded first; -/
  throws : s.caller = .returned → ∀ x, (logOf recordedAt tr).head? = some x →
    s.seen = some (.error x)
  /-- a caller destroyed while parked is never resumed; -/
  destroyed : (∃ p ∈ tr, p.2 = .destroy) → logOf resumesAt tr = [] ∧ s.caller = .destroyed
  /-- and when the spawned runners have ended, the caller is not left parked. -/
  delivered : s.loop = .ended → (∀ i, s.runners i = .unspawned ∨ s.runners i = .ended) →
    s.caller ≠ .parked

namespace Inv

variable {n : ℕ} {tr : List (State α χ × Event α χ)} {s : State α χ}

variable (h : Inv n tr s) (hc : s.caller = .resuming ∨ s.caller = .returned)

include h hc

/-- A caller that goes on finds every slot taken off. -/
theorem latched : s.loop = .ended ∧ ∀ i, (s.runners i).busy = false := by
  constructor
  · by_contra hl
    rcases hc with hc | hc
    all_goals simp [h.counts.busy hl] at hc
  · intro i
    by_contra hi
    obtain ⟨-, -, h1, h2⟩ := h.counts.not_past (by simpa using hi)
    exact hc.elim h1 h2

/-- Without an exception every task has left its value. -/
theorem stored (hrec : logOf recordedAt tr = []) :
    ∀ i < n, ∃ a, s.results i = some a ∧ (i, .ok a) ∈ logOf finishesAt tr := by
  obtain ⟨hl, hbusy⟩ := h.latched hc
  intro i hi
  have hsp : s.runners i ≠ .unspawned := by
    rcases h.collected.ended hl with hne | hsp
    · exact absurd hrec hne
    · exact hsp i hi
  have hlate : (s.runners i).late = true := by
    have hb := hbusy i
    match hr : s.runners i with
    | .unspawned => exact absurd hr hsp
    | .working | .recording _ | .completing => simp [hr, RunnerPc.busy] at hb
    | .taking | .waking | .ended => rfl
  rcases h.collected.stored i hlate with hval | hne
  · exact hval
  · exact absurd hrec hne

omit h hc

theorem not_parked (h : Inv n tr s) (hl : s.loop = .ended)
    (hr : ∀ i, s.runners i = .unspawned ∨ s.runners i = .ended) : s.caller ≠ .parked := by
  intro hc
  obtain ⟨b, slot, htally, hcount, hslot⟩ := h.counts.latch
  obtain ⟨p, f, hp, hf, hholds⟩ := h.handle
  have hnone {R : RunnerPc χ → Bool} (hu : R .unspawned = false) (he : R .ended = false) (i : ℕ) :
      ¬ R (s.runners i) = true := by
    rcases hr i with hi | hi
    all_goals simp [hi, hu, he]
  have hb0 : b = 0 := htally.unique (.zero (hnone rfl rfl))
  have hp0 : p = 0 := hp.unique (.zero (hnone rfl rfl))
  have hf0 : f = 0 := hf.unique (.zero (hnone rfl rfl))
  simp only [Slot, hc] at hslot
  -- the latch is complete, so somebody would have to be on the way to the caller
  have hrem : s.remaining = 0 := by
    rw [hcount, hb0, hslot, hl]
    rfl
  simp only [Holds, hc, hrem, hp0, hf0, if_true] at hholds
  omega

end Inv

/-- **`whenAll` resumes its caller once, after every runner, with every result.** -/
theorem all_collected {n : ℕ} {tr : List (State α χ × Event α χ)} {s : State α χ}
    (hr : Run (step n) (init n) tr s) : Promise n tr s := by
  have h := inv_run hr
  obtain ⟨p, f, hp, hf, hholds⟩ := h.handle
  have hresumed : s.caller = .resuming ∨ s.caller = .returned →
      (logOf resumesAt tr).length = s.parked.toNat := by
    rintro (hc | hc)
    all_goals
      simp only [Holds, hc] at hholds
      exact hholds.2.2.2
  refine ⟨?_, ?_, hresumed, h.latched, h.collected.nodup, ?_, ?_, ?_, h.not_parked⟩
  · intro q hq hlat
    obtain ⟨tr', t, hr', hs, -⟩ := hr.before hq
    exact remaining_pos (inv_run hr').counts (change_of_step hs) hlat
  · unfold Holds at hholds
    split at hholds
    case h_7 | h_8 => exact hholds.2.2.2 ▸ Bool.toNat_le _
    all_goals omega
  · intro hc hrec
    obtain ⟨vs, hvs, hmem⟩ := exists_values (h.stored (.inr hc) hrec)
    refine ⟨vs, by simpa using (congrArg length hvs).symm, ?_, hmem⟩
    rw [h.seen hc, outcome, h.collected.exception, hrec, hvs]
    rfl
  · intro hc x hx
    rw [h.seen hc, outcome, h.collected.exception, hx]
  · intro hd
    have hc := h.destroyed hd
    simp only [Holds, hc] at hholds
    exact ⟨length_eq_zero_iff.mp hholds.2.1, hc⟩

/-- Two tasks. The second ends first; the caller parks between the two, and the runner of the first
task completes the latch. -/
def secondFirst : List (Event ℕ ℕ) :=
  [.spawn, .spawn, .finish 1 (.ok 8), .complete 1, .awaitReady, .store, .finish 0 (.ok 7), .count,
    .complete 0, .take 0, .wake 0, .awaitResume]

theorem all_collected_secondFirst : ∃ tr s, Run (step 2) (init 2 : State ℕ ℕ) tr s ∧
    s.caller = .returned ∧ s.seen = some (.ok [some 7, some 8]) ∧ logOf resumesAt tr = [0] ∧
    Promise 2 tr s := by
  have hr := Run.of_exec (show exec (step 2) (init 2 : State ℕ ℕ) secondFirst = some _ from rfl)
  exact ⟨_, _, hr, rfl, rfl, rfl, all_collected hr⟩

end Manwe.WhenAll
