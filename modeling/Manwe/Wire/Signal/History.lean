import Manwe.Wire.Signal.Emissions
import Manwe.Wire.Signal.Waiters

/-!
# The history of a waiter

A parked `next()` ends with the arguments of the first emission after it parked, unless it was
withdrawn before, by a cancel callback or by the destructor of the Signal. There is one more way for
it to end: if the copy of the arguments throws, the waiter is told that the Signal is gone.
-/

namespace Manwe.Signal

open Function List State

variable {η α χ : Type*}

/-! ### What the history says of a waiter -/

/-- The step parks waiter `j`. -/
def parksAt (j : ℕ) (s : State η α χ) : Event η α χ → List Unit
  | .next i core =>
    if i = j ∧ (s.nexts i).earlyCancel = false ∧ s.dead = false ∧ core = none then [()] else []
  | .retry i => if i = j ∧ (s.nexts i).earlyCancel = false ∧ s.dead = false then [()] else []
  | _ => []

/-- The step is the snapshot of an emission. -/
def emitsAt (_ : State η α χ) : Event η α χ → List α
  | .emit _ _ args => [args]
  | _ => []

/-- How a `next()` ends: `none` when its frame is destroyed. -/
def endsAt (j : ℕ) (s : State η α χ) : Event η α χ → List (Option (Option α))
  | .resume i => if i = j then [some (s.nexts j).awaitResume] else []
  | .destroy i => if i = j then [none] else []
  | _ => []

/-- The emissions since waiter `j` has parked, if it has. -/
def hear (j : ℕ) (l : Option (List α)) (p : State η α χ × Event η α χ) : Option (List α) :=
  match l with
  | none => if (parksAt j p.1 p.2).isEmpty then none else some []
  | some l => some (l ++ emitsAt p.1 p.2)

def since (j : ℕ) (tr : List (State η α χ × Event η α χ)) : Option (List α) :=
  tr.foldl (hear j) none

/-- Waiter `j` has parked, and the first emission since had the arguments `a`. -/
def Got (j : ℕ) (tr : List (State η α χ × Event η α χ)) (a : α) : Prop :=
  ∃ l, since j tr = some (a :: l)

/-- After the waiter had parked and before any emission came, it was cancelled or the Signal
destroyed. -/
def Withdrawn (j : ℕ) (tr : List (State η α χ × Event η α χ)) : Prop :=
  ∃ tr₁ p tr₂, tr = tr₁ ++ p :: tr₂ ∧ since j tr₁ = some [] ∧
    (p.2 = .cancel j ∨ p.2 = .destroySignal)

/-- The copy of the arguments for waiter `j` threw. -/
def Failed (j : ℕ) (tr : List (State η α χ × Event η α χ)) : Prop :=
  ∃ p ∈ tr, ∃ k m a list ws, p.2 = .wake k false ∧ p.1.emits k = .waking m a list (j :: ws)

/-- Why a waiter may be told that it is cancelled: it has not parked, it was withdrawn, or the copy
threw. -/
def Excused (j : ℕ) (tr : List (State η α χ × Event η α χ)) : Prop :=
  since j tr = none ∨ Withdrawn j tr ∨ Failed j tr

variable {tr : List (State η α χ × Event η α χ)} {s t : State η α χ} {e : Event η α χ} {j : ℕ}

theorem since_snoc : since j (tr ++ [(s, e)]) = hear j (since j tr) (s, e) := by
  simp [since]

theorem since_snoc_none (h : since j tr = none) (hp : parksAt j s e = []) :
    since j (tr ++ [(s, e)]) = none := by
  rw [since_snoc, h, hear, hp]
  rfl

theorem since_snoc_nil (h : since j tr = some []) (he : emitsAt s e = []) :
    since j (tr ++ [(s, e)]) = some [] := by
  rw [since_snoc, h, hear, he]
  rfl

theorem Got.snoc {a : α} (h : Got j tr a) : Got j (tr ++ [(s, e)]) a := by
  obtain ⟨l, hl⟩ := h
  exact ⟨l ++ emitsAt s e, by rw [since_snoc, hl]; rfl⟩

theorem Withdrawn.snoc (h : Withdrawn j tr) : Withdrawn j (tr ++ [(s, e)]) := by
  obtain ⟨tr₁, p, tr₂, rfl, hw, hp⟩ := h
  exact ⟨tr₁, p, tr₂ ++ [(s, e)], by simp, hw, hp⟩

theorem Withdrawn.of_snoc (h : Withdrawn j (tr ++ [(s, e)])) :
    Withdrawn j tr ∨ since j tr = some [] ∧ (e = .cancel j ∨ e = .destroySignal) := by
  obtain ⟨tr₁, p, tr₂, htr, hw, hp⟩ := h
  rcases eq_nil_or_concat tr₂ with rfl | ⟨tr₂, q, rfl⟩
  · obtain ⟨rfl, hq⟩ := append_inj' htr rfl
    obtain rfl := singleton_inj.mp hq
    exact .inr ⟨hw, hp⟩
  · rw [concat_eq_append, ← cons_append, ← append_assoc] at htr
    exact .inl ⟨tr₁, p, tr₂, (append_inj' htr rfl).1, hw, hp⟩

theorem Excused.snoc (h : Excused j tr) (hp : parksAt j s e = []) : Excused j (tr ++ [(s, e)]) := by
  rcases h with h | h | ⟨p, hmem, h⟩
  · exact .inl (since_snoc_none h hp)
  · exact .inr (.inl h.snoc)
  · exact .inr (.inr ⟨p, mem_append_left _ hmem, h⟩)

/-! ### What a step does to one waiter -/

/-- The ways in which a step can change waiter `j`. -/
inductive Alters (s : State η α χ) (e : Event η α χ) (j : ℕ) : Next α → Prop
  | same (hp : parksAt j s e = []) (he : endsAt j s e = []) : Alters s e j (s.nexts j)
  | dequeued {k : ℕ} {m : Mode} {a : α} (he : e = .emit k m a) :
      Alters s e j { s.nexts j with queued := false }
  | noted (he : e = .cancel j) : Alters s e j { s.nexts j with earlyCancel := true }
  | refused (hpc : (s.nexts j).pc = .idle ∨ (s.nexts j).pc = .arming) (hp : parksAt j s e = [])
      (he : endsAt j s e = []) : Alters s e j { s.nexts j with pc := .resuming, cancelled := true }
  | late (hpc : (s.nexts j).pc = .idle ∨ (s.nexts j).pc = .arming) (hp : parksAt j s e = [])
      (he : endsAt j s e = []) : Alters s e j { s.nexts j with pc := .resuming, gone := true }
  | arming (hpc : (s.nexts j).pc = .idle ∨ (s.nexts j).pc = .arming) (hp : parksAt j s e = [])
      (he : endsAt j s e = []) : Alters s e j { s.nexts j with pc := .arming, bound := true }
  | parked (hpc : (s.nexts j).pc = .idle ∨ (s.nexts j).pc = .arming) (hp : parksAt j s e ≠ [])
      (he : endsAt j s e = []) : Alters s e j { s.nexts j with pc := .parked, queued := true }
  | cancelled (hq : (s.nexts j).queued = true) (he : e = .cancel j) :
      Alters s e j { s.nexts j with cancelled := true, took := true, queued := false }
  | posted (ht : (s.nexts j).took = true) (he : e = .post j) :
      Alters s e j { s.nexts j with took := false }
  | given {k : ℕ} {m : Mode} {a : α} {list : Option ℕ} {ws : List ℕ} (he : e = .wake k true)
      (hk : s.emits k = .waking m a list (j :: ws)) :
      Alters s e j { s.nexts j with value := some a }
  | failed {k : ℕ} {m : Mode} {a : α} {list : Option ℕ} {ws : List ℕ} (he : e = .wake k false)
      (hk : s.emits k = .waking m a list (j :: ws)) : Alters s e j { s.nexts j with gone := true }
  | orphaned (hj : j ∈ s.pending) (he : e = .destroySignal) :
      Alters s e j { s.nexts j with queued := false, gone := true }
  | run (hj : j ∈ s.pool) (hpc : (s.nexts j).pc ≠ .destroyed) (he : e = .run j) :
      Alters s e j { s.nexts j with pc := .resuming }
  | completed (hpc : (s.nexts j).pc = .resuming) (he : e = .resume j) :
      Alters s e j { s.nexts j with pc := .completed (s.nexts j).awaitResume }
  | destroyed {q : Bool} (hpc : (s.nexts j).pc = .parked) (he : e = .destroy j) :
      Alters s e j { s.nexts j with pc := .destroyed, queued := q }

theorem alters_park {core : Option Bool} {armed : Bool} {i : ℕ}
    (hpc : (s.nexts i).pc = .idle ∨ (s.nexts i).pc = .arming)
    (hparks : parksAt j s e = if i = j ∧ (s.nexts i).earlyCancel = false ∧ s.dead = false ∧
      (core = none ∨ armed = true) then [()] else [])
    (he : endsAt j s e = []) : Alters s e j ((s.park i core armed).nexts j) := by
  have hput {n : Next α} (hn : i = j → Alters s e j n) : Alters s e j (update s.nexts i n j) := by
    obtain rfl | hi := eq_or_ne i j
    · rw [update_self]
      exact hn rfl
    · rw [update_of_ne (Ne.symm hi)]
      exact .same (by rw [hparks, if_neg fun hc => hi hc.1]) he
  have hno (hc : ¬ ((s.nexts i).earlyCancel = false ∧ s.dead = false ∧
      (core = none ∨ armed = true))) : parksAt j s e = [] := by
    rw [hparks, if_neg fun h => hc h.2]
  unfold park
  dsimp only
  split
  · refine hput fun hi => hi ▸ .refused hpc (hi ▸ hno fun hc => ?_) (hi ▸ he)
    simp_all
  split
  · refine hput fun hi => hi ▸ .late hpc (hi ▸ hno fun hc => ?_) (hi ▸ he)
    simp_all
  split
  · refine hput fun hi => hi ▸ .parked hpc (fun hp => ?_) (hi ▸ he)
    subst hi
    rw [hparks, if_pos ⟨rfl, Bool.not_eq_true _ ▸ ‹_›, Bool.not_eq_true _ ▸ ‹_›, ‹_›⟩] at hp
    cases hp
  split
  · exact hput fun hi => hi ▸ .refused hpc (hi ▸ hno fun hc => ‹¬ _› hc.2.2) (hi ▸ he)
  · exact hput fun hi => hi ▸ .arming hpc (hi ▸ hno fun hc => ‹¬ (_ ∨ _)› hc.2.2) (hi ▸ he)

theorem alters_of_change (hc : Change s e t) (j : ℕ) : Alters s e j (t.nexts j) := by
  have hput {i : ℕ} {n : Next α} (hp : i ≠ j → parksAt j s e = [] ∧ endsAt j s e = [])
      (hn : i = j → Alters s e j n) : Alters s e j (update s.nexts i n j) := by
    obtain rfl | hi := eq_or_ne i j
    · rw [update_self]
      exact hn rfl
    · rw [update_of_ne (Ne.symm hi)]
      exact .same (hp hi).1 (hp hi).2
  cases hc with
  | connect | enterNone _ | enter _ | invokeEnd _ _ | dispatch _ _ | call _ _ _ | returned _
  | returnedAsync | release | runTask | runKilled | orphan => exact .same rfl rfl
  | disconnect =>
    unfold disconnect
    split <;> exact .same rfl rfl
  | emit =>
    simp only [snapshot]
    split
    · exact .dequeued rfl
    · exact .same rfl rfl
  | @wake k m a list i ws ok hk =>
    cases ok with
    | true => exact hput (fun _ => ⟨rfl, rfl⟩) fun hi => hi ▸ .given rfl hk
    | false => exact hput (fun _ => ⟨rfl, rfl⟩) fun hi => hi ▸ .failed rfl hk
  | next hi => exact alters_park (.inl hi) (by simp [parksAt]) rfl
  | retry hi => exact alters_park (.inr hi) (by simp [parksAt]) rfl
  | @cancel =>
    unfold cancelThunk
    dsimp only
    split
    · exact hput (fun _ => ⟨rfl, rfl⟩) fun hi => hi ▸ .cancelled ‹_› rfl
    · exact hput (fun _ => ⟨rfl, rfl⟩) fun hi => hi ▸ .noted rfl
  | post ht => exact hput (fun _ => ⟨rfl, rfl⟩) fun hi => hi ▸ .posted ht rfl
  | run hm hi => exact hput (fun _ => ⟨rfl, rfl⟩) fun hij => hij ▸ .run hm hi rfl
  | resume hi => exact hput (fun hne => ⟨rfl, if_neg hne⟩) fun hij => hij ▸ .completed hi rfl
  | @destroy i hi =>
    unfold destroyNext
    dsimp only
    split <;> exact hput (fun hne => ⟨rfl, if_neg hne⟩) fun hij => hij ▸ .destroyed hi rfl
  | destroySignal =>
    simp only [destroySignal]
    split
    · exact .orphaned ‹_› rfl
    · exact .same rfl rfl

namespace Alters

variable {n : Next α}

variable (h : Alters s e j n)

include h

theorem cancelled_mono (hs : (s.nexts j).cancelled = true) : n.cancelled = true := by
  cases h <;> first | exact hs | rfl

theorem gone_mono (hs : (s.nexts j).gone = true) : n.gone = true := by
  cases h <;> first | exact hs | rfl

theorem value_mono (hs : (s.nexts j).value ≠ none) : n.value ≠ none := by
  cases h <;> first | exact hs | nofun

theorem destroyed_mono (hs : (s.nexts j).pc = .destroyed) : n.pc = .destroyed := by
  cases h with
  | refused hp | late hp | arming hp | parked hp =>
    rcases hp with hp | hp <;> cases hs.symm.trans hp
  | run _ hp => exact absurd hs hp
  | completed hp => cases hs.symm.trans hp
  | destroyed => rfl
  | _ => exact hs

end Alters

/-! ### Where the waiters come from -/

theorem waking_of_change (hc : Change s e t) {k : ℕ} {m : Mode} {a : α} {list : Option ℕ}
    {ws : List ℕ} (hk : t.emits k = .waking m a list ws) (hj : j ∈ ws) :
    (∃ ws', s.emits k = .waking m a list ws' ∧ j ∈ ws') ∨ e = .emit k m a ∧ j ∈ s.pending := by
  have hkeep (hk : s.emits k = .waking m a list ws) :
      (∃ ws', s.emits k = .waking m a list ws' ∧ j ∈ ws') ∨ e = .emit k m a ∧ j ∈ s.pending :=
    .inl ⟨ws, hk, hj⟩
  have hput {i : ℕ} {p : EmitPc α χ} (ht : t.emits = update s.emits i p)
      (hp : i = k → p ≠ .waking m a list ws) : s.emits k = .waking m a list ws := by
    by_cases hi : k = i
    · rw [ht, hi, update_self] at hk
      exact absurd hk (hp hi.symm)
    · rwa [ht, update_of_ne hi] at hk
  cases hc with
  | @emit i =>
    obtain rfl | hik := eq_or_ne k i
    · simp only [snapshot, update_self, EmitPc.waking.injEq] at hk
      obtain ⟨rfl, rfl, -, rfl⟩ := hk
      exact .inr ⟨rfl, hj⟩
    · simp only [snapshot, update_of_ne hik] at hk
      exact hkeep hk
  | @wake i m' a' list' i' ws' ok hi =>
    simp only [putEmit, (still_hand ..).emits] at hk
    obtain ⟨rfl, hk'⟩ | ⟨-, hk⟩ := of_update hk
    · cases hk'
      exact .inl ⟨_, hi, mem_cons_of_mem _ hj⟩
    · exact hkeep hk
  | enterNone _ | enter _ | invokeEnd _ _ | dispatch _ _ | call _ _ _ | returned _
  | returnedAsync _ | release _ => exact hkeep (hput rfl fun _ => nofun)
  | disconnect =>
    refine hkeep (?_ : s.emits k = _)
    unfold disconnect at hk
    split at hk <;> exact hk
  | next | retry => exact hkeep ((congrFun (still_park ..).emits k).symm.trans hk)
  | cancel => exact hkeep ((congrFun (still_cancelThunk ..).emits k).symm.trans hk)
  | destroy => exact hkeep ((congrFun (still_destroyNext ..).emits k).symm.trans hk)
  | connect | runTask _ | post _ | runKilled _ _ | run _ _ | resume _ | destroySignal _
  | orphan => exact hkeep hk

/-- The step gives nothing to the pool. -/
structure Quiet (s t : State η α χ) : Prop where
  pool : t.pool = s.pool
  orphans : t.orphans = s.orphans

theorem quiet_disconnect (s : State η α χ) (id : ℕ) (ok : Bool) : Quiet s (s.disconnect id ok) := by
  unfold disconnect
  split <;> exact ⟨rfl, rfl⟩

theorem quiet_park (s : State η α χ) (j : ℕ) (core : Option Bool) (armed : Bool) :
    Quiet s (s.park j core armed) := by
  unfold park
  dsimp only
  repeat' split
  all_goals exact ⟨rfl, rfl⟩

theorem quiet_cancelThunk (s : State η α χ) (j : ℕ) : Quiet s (s.cancelThunk j) := by
  unfold cancelThunk
  dsimp only
  split <;> exact ⟨rfl, rfl⟩

theorem quiet_destroyNext (s : State η α χ) (j : ℕ) : Quiet s (s.destroyNext j) := by
  unfold destroyNext
  dsimp only
  split <;> exact ⟨rfl, rfl⟩

theorem orphan_of_change (hc : Change s e t) (hj : j ∈ t.orphans) :
    j ∈ s.orphans ∨ e = .destroySignal ∧ j ∈ s.pending := by
  cases hc with
  | destroySignal => exact .inr ⟨rfl, hj⟩
  | orphan ho => exact .inl (ho ▸ mem_cons_of_mem _ hj)
  | @wake _ _ _ _ i _ ok => cases ok <;> exact .inl hj
  | disconnect => exact .inl ((quiet_disconnect ..).orphans ▸ hj)
  | next | retry => exact .inl ((quiet_park ..).orphans ▸ hj)
  | cancel => exact .inl ((quiet_cancelThunk ..).orphans ▸ hj)
  | destroy => exact .inl ((quiet_destroyNext ..).orphans ▸ hj)
  | _ => exact .inl hj

/-- Whom the pool has a waiter from. -/
theorem pool_of_change (hc : Change s e t) (hj : j ∈ t.pool) :
    j ∈ s.pool ∨ (∃ k ok m a list ws, e = .wake k ok ∧ s.emits k = .waking m a list (j :: ws)) ∨
      (e = .post j ∧ (s.nexts j).took = true) ∨ e = .orphan ∧ j ∈ s.orphans := by
  have hnew {i : ℕ} {P : Prop} (hj : j ∈ s.pool ++ [i]) (hi : i = j → P) : j ∈ s.pool ∨ P := by
    rcases mem_append.mp hj with hj | hj
    · exact .inl hj
    · exact .inr (hi (mem_singleton.mp hj).symm)
  cases hc with
  | @wake k m a list i ws ok hk =>
    have hj' : j ∈ s.pool ++ [i] := by cases ok <;> exact hj
    exact hnew hj' fun hi => hi ▸ .inl ⟨k, ok, m, a, list, ws, rfl, hk⟩
  | post ht => exact hnew hj fun hi => hi ▸ .inr (.inl ⟨rfl, ht⟩)
  | orphan ho => exact hnew hj fun hi => hi ▸ .inr (.inr ⟨rfl, by simp [ho]⟩)
  | runKilled | run => exact .inl (mem_of_mem_erase hj)
  | disconnect => exact .inl ((quiet_disconnect ..).pool ▸ hj)
  | next | retry => exact .inl ((quiet_park ..).pool ▸ hj)
  | cancel => exact .inl ((quiet_cancelThunk ..).pool ▸ hj)
  | destroy => exact .inl ((quiet_destroyNext ..).pool ▸ hj)
  | _ => exact .inl hj

end Manwe.Signal
