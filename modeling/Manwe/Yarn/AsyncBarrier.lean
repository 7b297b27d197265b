import Manwe.Yarn.ParkBase.Runs

/-!
# The cyclic barrier

`AsyncBarrier` counts down from `initial`. The arrival that brings the countdown to zero takes the
whole queue, resets the count and goes on; every other arrival parks. An arrival that leaves the
queue early, because it was cancelled or its frame was destroyed, counts the countdown up again.

Arriving and queueing have to be one section, so `arrive` does not use `park`: it arms the cancel
callback first and enters the section once. Cancellation, destruction and resumption are those
of every parking awaiter. The field `res` of the state is the `countdown`.

**The count and the queue agree**: what is missing from the countdown is exactly who waits. A trip
therefore releases the queue and the caller that trips, `initial` calls in all, and nobody is
released in any other way.
-/

namespace Manwe.AsyncBarrier

open List Option

open ParkBase

variable {ι : Type*}

/-- Leaving the queue withdraws the arrival; a wake that reaches a dead frame owes nothing. -/
def resource : Resource ℕ ι where
  tryNow _ _ _ := none
  fixup countdown ws := ⟨countdown + 1, [], ws⟩
  giveBack _ countdown ws := ⟨countdown, [], ws⟩
  fixup_split _ _ := rfl
  giveBack_split _ _ _ := rfl

abbrev State (ι : Type*) := ParkBase.State ℕ ι

def init (n : ℕ) : State ι := { res := n }

inductive Event (ι : Type*)
  /-- `await_suspend` up to its section; `core` is the ambient cancellation context, if there is
  one, and whether cancellation has been requested on it -/
  | arrive (i : ι) (core : Option Bool)
  /-- the section, after the callback has been armed -/
  | enter (i : ι)
  | await (e : ParkBase.Event ι)

def Event.call : Event ι → ι
  | .arrive i _ | .enter i => i
  | .await (.park i _) | .await (.retry i) | .await (.cancel i) | .await (.wake i)
  | .await (.resume i) | .await (.destroy i) | .await (.revoke i) => i

/-- The steps of `park`, which this awaiter does not use. -/
def parks : ParkBase.Event ι → Bool
  | .park .. | .retry _ => true
  | .cancel _ | .wake _ | .resume _ | .destroy _ | .revoke _ => false

section Step

variable [DecidableEq ι]

/-- The locked section of `await_suspend`. -/
def arriveLocked (initial : ℕ) (s : State ι) (i : ι) : Act ℕ ι := let c := s.calls i
  if c.earlyCancel then { next := s.set i { c with pc := .resuming, cancelled := true } }
  else if s.res - 1 ≠ 0 then
    { next := { s.set i { c with pc := .parked, queued := true } with
        res := s.res - 1, waiters := s.waiters ++ [i] }
      arrives := [i] }
  -- the trigger takes every parked waiter and resets for the next cycle
  else
    { next := (s.set i { c with pc := .resuming }).serve ⟨initial, s.waiters, []⟩
      arrives := [i], admits := s.waiters ++ [i] }

def awaitSuspend (initial : ℕ) (s : State ι) (i : ι) : Option Bool → Act ℕ ι
  | some true => { next := s.set i { s.calls i with pc := .resuming, cancelled := true } }
  | some false => { next := s.set i { s.calls i with pc := .arming, bound := true } }
  | none => arriveLocked initial s i

def act (initial : ℕ) (s : State ι) : Event ι → Option (Act ℕ ι)
  | .arrive i core => if (s.calls i).pc = .idle then some (awaitSuspend initial s i core) else none
  | .enter i => if (s.calls i).pc = .arming then some (arriveLocked initial s i) else none
  | .await e => if parks e then none else ParkBase.act resource s e

def step (initial : ℕ) : State ι → Event ι → Option (State ι) := stepOf (act initial)

/-- The arrival that a step withdraws. -/
def withdraws (s : State ι) : Event ι → List ι
  | .await e => ParkBase.withdraws s e
  | .arrive .. | .enter _ => []

/-- The arrivals that were cancelled or destroyed while they were queued. -/
def withdrawals : List (State ι × Event ι) → List ι := logOf withdraws

/-- The call that changes the countdown in a step. -/
def touches (initial : ℕ) (s : State ι) (e : Event ι) : List ι :=
  if (act initial s e).map (fun a => a.next.res) = some s.res then [] else [e.call]

def touched (initial : ℕ) : List (State ι × Event ι) → List ι := logOf (touches initial)

end Step

/-! ### The section -/

section Section

variable [DecidableEq ι] {initial : ℕ} {s : State ι} {i : ι}

/-- **The three outcomes of an arrival**: cancelled, queued, or the barrier trips. -/
theorem arriveLocked_cases (initial : ℕ) (s : State ι) (i : ι) : arriveLocked initial s i =
      { next := s.set i { s.calls i with pc := .resuming, cancelled := true } } ∨
    (s.res - 1 ≠ 0 ∧ arriveLocked initial s i =
      { next := { s.set i { s.calls i with pc := .parked, queued := true } with
          res := s.res - 1, waiters := s.waiters ++ [i] }
        arrives := [i] }) ∨
    (s.res - 1 = 0 ∧ arriveLocked initial s i =
      { next := (s.set i { s.calls i with pc := .resuming }).serve ⟨initial, s.waiters, []⟩
        arrives := [i], admits := s.waiters ++ [i] }) := by
  dsimp only [arriveLocked]
  split
  · exact .inl rfl
  split
  · rename_i hne
    exact .inr (.inl ⟨hne, rfl⟩)
  · rename_i hz
    exact .inr (.inr ⟨not_not.mp hz, rfl⟩)

variable (h : Inv s) (hi : (s.calls i).arrived = false)

include h hi

/-- An arrival that is cancelled before it is queued. -/
theorem tracks_set {c : Call} (hq : c.queued = (s.calls i).queued) (hg : c.granted = false)
    (hc : c.arrived = false → c.cancelled = false) : Tracks s { next := s.set i c } := by
  obtain ⟨-, hng, hnq⟩ := h.unarrived hi
  refine Refines.tracks_of_set (R := resource) ?_ fun hs => by simp [hs.arrived] at hi
  refine refines_set h hq (hg.trans hng.symm) (by simp [hq, hnq]) ?_ (by simp [hi])
  rintro (hcq | hca)
  · simp [hq, hnq] at hcq
  · exact hc hca

theorem tracks_enqueue (r : ℕ) : Tracks s
      { next := { s.set i { s.calls i with pc := .parked, queued := true } with
          res := r, waiters := s.waiters ++ [i] }
        arrives := [i] } := by
  have href := refines_enqueue (R := resource) h hi rfl (c := { s.calls i with
    pc := .parked, queued := true }) rfl rfl (h.live (.inr hi))
  have ht := href.tracks (by simp) fun j hj => kept_set hj (fun hs => by simp [hs.arrived] at hi)
  exact ⟨⟨ht.inv.nodup, ht.inv.mem, ht.inv.parked, ht.inv.live⟩, ht.granted, ht.admits, ht.served,
    ht.once, ht.arrives, ht.arrived⟩

/-- A trip serves everybody, the caller that trips included. -/
theorem tracks_trip (r : ℕ) : Tracks s
      { next := (s.set i { s.calls i with pc := .resuming }).serve ⟨r, s.waiters, []⟩
        arrives := [i], admits := s.waiters ++ [i] } := by
  obtain ⟨hw, -, hq⟩ := h.unarrived hi
  have hlive := h.live (.inr hi)
  have hl := h.leave_of_notMem hw (c := { s.calls i with pc := .resuming }) hq rfl
  have hself : ((s.set i { s.calls i with pc := .resuming }).serve ⟨r, s.waiters, []⟩).calls i =
      { s.calls i with pc := .resuming } := by
    simp [State.serve, hw]
  have hns : (s.calls i).Served → ({ s.calls i with pc := .resuming } : Call).Served :=
    fun hs => by simp [hs.arrived] at hi
  refine ⟨hl.serve (append_nil _), fun j hj => ?_, fun j hj => ?_,
    fun j hj => served_serve (kept_set hj hns),
    nodup_singleton i, fun j hj => ?_, fun j hj => ?_⟩
  · by_cases hji : j = i
    · exact .inr (by simp [hji])
    · by_cases hjw : j ∈ s.waiters
      · exact .inr (mem_append_left _ hjw)
      · exact .inl (by simpa [State.serve, calls_set, hjw, hji] using hj)
  · rcases mem_append.mp hj with hj | hj
    · exact hl.served_of_wake (append_nil _) hj
    · obtain rfl := mem_singleton.mp hj
      rw [hself]
      exact ⟨rfl, hq, hlive, by simp⟩
  · obtain rfl := mem_singleton.mp hj
    exact ⟨hi, by rw [hself]; rfl⟩
  · exact (arrived_serve j).trans (arrived_set rfl hj)

theorem tracks_arriveLocked : Tracks s (arriveLocked initial s i) := by
  rcases arriveLocked_cases initial s i with hp | ⟨-, hp⟩ | ⟨-, hp⟩
  · rw [hp]
    exact tracks_set h hi rfl rfl (by simp [Call.arrived])
  · rw [hp]
    exact tracks_enqueue h hi _
  · rw [hp]
    exact tracks_trip h hi initial

omit h hi

variable {e : Event ι} {a : Act ℕ ι}

theorem act_tracks (h : Inv s) (ha : act initial s e = some a) : Tracks s a := by
  cases e with
  | arrive i core =>
    obtain ⟨hpc, rfl⟩ := of_guard ha
    have hi : (s.calls i).arrived = false := by simp [Call.arrived, hpc]
    obtain _ | _ | _ := core
    · exact tracks_arriveLocked h hi
    · exact tracks_set h hi rfl rfl fun _ => h.live (.inr hi)
    · exact tracks_set h hi rfl rfl (by simp [Call.arrived])
  | enter =>
    obtain ⟨hpc, rfl⟩ := of_guard ha
    exact tracks_arriveLocked h (by simp [Call.arrived, hpc])
  | await =>
    simp only [act, ite_none_left_eq_some] at ha
    exact ParkBase.act_tracks h ha.2

/-- **What a step can do** to the countdown and the queue. -/
inductive Change (initial : ℕ) (s : State ι) (e : Event ι) (a : Act ℕ ι) : Prop
  | still (res : a.next.res = s.res) (waiters : a.next.waiters = s.waiters)
      (arrives : a.arrives = []) (admits : a.admits = []) (withdrawn : withdraws s e = [])
  | join {i : ι} (early : s.res - 1 ≠ 0) (res : a.next.res = s.res - 1)
      (waiters : a.next.waiters = s.waiters ++ [i]) (arrives : a.arrives = [i])
      (admits : a.admits = []) (withdrawn : withdraws s e = []) (call : e.call = i)
  | trip {i : ι} (last : s.res - 1 = 0) (res : a.next.res = initial)
      (waiters : a.next.waiters = []) (arrives : a.arrives = [i])
      (admits : a.admits = s.waiters ++ [i]) (withdrawn : withdraws s e = []) (call : e.call = i)
  | leave {i : ι} (queued : i ∈ s.waiters) (res : a.next.res = s.res + 1)
      (waiters : a.next.waiters = s.waiters.erase i) (arrives : a.arrives = [])
      (admits : a.admits = []) (withdrawn : withdraws s e = [i]) (call : e.call = i)

theorem change_arriveLocked (he : withdraws s e = []) (hc : e.call = i) :
    Change initial s e (arriveLocked initial s i) := by
  rcases arriveLocked_cases initial s i with hp | ⟨hne, hp⟩ | ⟨hz, hp⟩
  · rw [hp]
    exact .still rfl rfl rfl rfl he
  · rw [hp]
    exact .join hne rfl rfl rfl rfl he hc
  · rw [hp]
    exact .trip hz rfl rfl rfl rfl he hc

theorem act_change (h : Inv s) (ha : act initial s e = some a) : Change initial s e a := by
  cases e with
  | arrive i core =>
    obtain ⟨-, rfl⟩ := of_guard ha
    match core with
    | some true | some false => exact .still rfl rfl rfl rfl rfl
    | none => exact change_arriveLocked rfl rfl
  | enter =>
    obtain ⟨-, rfl⟩ := of_guard ha
    exact change_arriveLocked rfl rfl
  | await e =>
    simp only [act, ite_none_left_eq_some] at ha
    obtain ⟨hp, ha⟩ := ha
    cases e with obtain ⟨-, rfl⟩ := of_guard ha
    | park | retry => simp [parks] at hp
    | cancel | destroy =>
      dsimp only [cancelThunk, abandon]
      split
      · rename_i hq
        exact .leave (h.mem.mpr hq) rfl rfl rfl rfl (by simp [withdraws, hq]) rfl
      · rename_i hq
        first
        | exact .still rfl rfl rfl rfl (by simp [withdraws, hq])
        | split <;> exact .still rfl rfl rfl rfl (by simp [withdraws, hq])
    | wake | resume | revoke => exact .still rfl rfl rfl rfl rfl

/-- Nobody vanishes from the queue. -/
theorem Change.perm (h : Change initial s e a) :
    (a.admits ++ a.next.waiters ++ withdraws s e).Perm (s.waiters ++ a.arrives) := by
  cases h with
  | still _ hw ha hd hwd | join _ _ hw ha hd hwd | trip _ _ hw ha hd hwd => simp [hw, ha, hd, hwd]
  | @leave i hq _ hw ha hd hwd =>
    simp only [hw, ha, hd, hwd, nil_append, append_nil]
    exact (perm_append_singleton _ _).trans (perm_cons_erase hq).symm

/-- **The count and the queue agree.** -/
structure Balanced (initial : ℕ) (s : State ι) : Prop where
  pos : 1 ≤ s.res
  sum : s.res + s.waiters.length = initial

theorem Change.balanced (h : Change initial s e a) (hn : 1 ≤ initial) (hb : Balanced initial s) :
    Balanced initial a.next := by
  obtain ⟨hpos, hsum⟩ := hb
  cases h with
  | still hr hw => exact ⟨hr ▸ hpos, by rw [hr, hw, hsum]⟩
  | join hne hr hw =>
    refine ⟨by omega, ?_⟩
    rw [hr, hw, length_append, length_singleton]
    omega
  | trip _ hr hw => exact ⟨hr ▸ hn, by simp [hr, hw]⟩
  | @leave i hq hr hw =>
    have hlen := length_pos_of_mem hq
    refine ⟨by omega, ?_⟩
    rw [hr, hw, length_erase_of_mem hq]
    omega

end Section

/-! ### Whole runs -/

section Runs

variable [DecidableEq ι] {initial : ℕ} {s : State ι} {tr : List (State ι × Event ι)}

theorem balanced_run (hn : 1 ≤ initial) (hr : Run (step initial) (init initial) tr s) :
    Inv s ∧ Balanced initial s := by
  induction hr with
  | start => exact ⟨inv_init initial, hn, rfl⟩
  | next _ hs ih =>
    obtain ⟨a, ha, rfl⟩ := map_eq_some_iff.mp hs
    exact ⟨(act_tracks ih.1 ha).inv, (act_change ih.1 ha).balanced hn ih.2⟩

theorem queue_run (hr : Run (step initial) (init initial) tr s) :
    Inv s ∧ (admissions (act initial) tr ++ s.waiters ++ withdrawals tr).Perm
      (arrivals (act initial) tr) :=
  queue_balance hr (inv_init initial) withdraws rfl act_tracks fun h ha => (act_change h ha).perm

/-- Whoever changes the countdown has arrived. -/
theorem touched_arrivals (hr : Run (step initial) (init initial) tr s) {i : ι}
    (hi : i ∈ touched initial tr) : i ∈ arrivals (act initial) tr := by
  induction hr with
  | start => simp [touched] at hi
  | @next tr s t e hr hs ih =>
    obtain ⟨a, ha, rfl⟩ := map_eq_some_iff.mp hs
    obtain ⟨hI, hperm⟩ := queue_run hr
    have hlog : arrivals (act initial) (tr ++ [(s, e)]) =
        arrivals (act initial) tr ++ a.arrives := by
      simp [ha]
    have htouch : touched initial (tr ++ [(s, e)]) = touched initial tr ++ touches initial s e := by
      simp [touched]
    rw [htouch, mem_append] at hi
    rw [hlog, mem_append]
    refine hi.elim (fun hi => .inl (ih hi)) fun hi => ?_
    simp only [touches, ha, map_some, some.injEq] at hi
    split_ifs at hi with hne
    · simp at hi
    · obtain rfl := mem_singleton.mp hi
      cases act_change hI ha with
      | still hr => exact absurd hr hne
      | join _ _ _ harr _ _ hc | trip _ _ _ harr _ _ hc => exact .inr (by simp [harr, hc])
      | leave hq _ _ _ _ _ hc =>
        exact .inl (hperm.subset (mem_append_left _ (mem_append_right _ (hc ▸ hq))))

/-- A step that releases somebody releases everybody: the queue and the arrival that trips, as
many as the barrier was made for. -/
structure Trip (initial : ℕ) (s : State ι) (a : Act ℕ ι) : Prop where
  released : ∃ i, a.arrives = [i] ∧ a.admits = s.waiters ++ [i]
  count : a.admits.length = initial
  reset : a.next.res = initial ∧ a.next.waiters = []

/-- What the barrier promises after the run `tr` to `s`. -/
structure Promise (initial : ℕ) (tr : List (State ι × Event ι)) (s : State ι) : Prop where
  range : 1 ≤ s.res ∧ s.res ≤ initial
  /-- what is missing from the countdown is who waits -/
  sum : s.res + s.waiters.length = initial
  /-- calls are released by trips only -/
  trips : ∀ p ∈ tr, ∀ a, act initial p.1 p.2 = some a → a.admits ≠ [] → Trip initial p.1 a
  /-- an arrival trips the barrier exactly if it is the last one missing -/
  last : ∀ p ∈ tr, ∀ a, act initial p.1 p.2 = some a → a.arrives ≠ [] →
    (a.admits ≠ [] ↔ p.1.waiters.length + 1 = initial)
  /-- a withdrawn arrival counts towards no trip -/
  withdrawn : ∀ {i}, i ∈ withdrawals tr → i ∉ admissions (act initial) tr
  /-- nor does one that throws -/
  threw : ∀ {i}, (s.calls i).pc = .threw → i ∉ admissions (act initial) tr
  /-- one that throws without having been queued has never changed the countdown -/
  untouched : ∀ {i}, (s.calls i).pc = .threw → i ∉ withdrawals tr → i ∉ touched initial tr

/-- **The barrier keeps its promise** in every reachable state. -/
theorem barrier_trips (hn : 1 ≤ initial) (hr : Run (step initial) (init initial) tr s) :
    Promise initial tr s := by
  obtain ⟨-, hpos, hsum⟩ := balanced_run hn hr
  have hstep : ∀ p ∈ tr, ∀ a, act initial p.1 p.2 = some a →
      Change initial p.1 p.2 a ∧ Balanced initial p.1 := by
    intro p hp a ha
    obtain ⟨tr', t, hr', -, -⟩ := hr.before hp
    obtain ⟨hI, hb⟩ := balanced_run hn hr'
    exact ⟨act_change hI ha, hb⟩
  obtain ⟨hI, hperm⟩ := queue_run hr
  obtain ⟨-, hnodup, -⟩ := arrivals_nodup hr (inv_init initial) act_tracks
  obtain ⟨-, -, hserved⟩ := tracked hr (inv_init initial) act_tracks
    (by simp [State.books, Call.granted, init])
  have hdisj := nodup_append.mp (hperm.nodup_iff.mpr hnodup)
  have hthrew : ∀ {i}, (s.calls i).pc = .threw → i ∉ admissions (act initial) tr :=
    fun hi hm => (hserved hm).pc hi
  refine ⟨⟨hpos, by omega⟩, hsum, fun p hp a ha hne => ?_, fun p hp a ha hne => ?_,
    fun {i} hw hm => ?_, hthrew, fun {i} hi hw ht => ?_⟩
  · obtain ⟨hc, hb⟩ := hstep p hp a ha
    cases hc with
    | still _ _ _ h0 | join _ _ _ _ h0 | leave _ _ _ _ h0 => exact absurd h0 hne
    | @trip i hz hres hw harr hadm =>
      refine ⟨⟨i, harr, hadm⟩, ?_, hres, hw⟩
      have := hb.sum
      have := hb.pos
      rw [hadm, length_append, length_singleton]
      omega
  · obtain ⟨hc, hb⟩ := hstep p hp a ha
    have := hb.sum
    have := hb.pos
    cases hc with
    | still _ _ h0 | leave _ _ _ h0 => exact absurd h0 hne
    | join hearly _ _ _ h0 =>
      simp only [h0, ne_eq, not_true_eq_false, false_iff]
      omega
    | trip hz _ _ _ h0 =>
      simp only [h0, ne_eq, append_eq_nil_iff, cons_ne_nil, and_false, not_false_eq_true, true_iff]
      omega
  · exact hdisj.2.2 i (mem_append_left _ hm) i hw rfl
  · rcases mem_append.mp (hperm.mem_iff.mpr (touched_arrivals hr ht)) with hm | hm
    · rcases mem_append.mp hm with hm | hm
      · exact hthrew hi hm
      · simp [hI.parked (hI.mem.mp hm)] at hi
    · exact hw hm

/-- Three arrivals are needed. Arrival `1` is cancelled in the queue and `2` before it gets there;
`0`, `3` and `4` make the trip, after which `5` starts the next cycle. -/
def withdrawnArrival : List (Event ℕ) :=
  [.arrive 0 none, .arrive 1 (some false), .enter 1, .arrive 2 (some false), .await (.cancel 2),
    .await (.cancel 1), .enter 2, .await (.resume 2), .await (.wake 1), .await (.resume 1),
    .arrive 3 none, .arrive 4 none, .await (.wake 0), .arrive 5 none]

theorem barrier_trips_withdrawnArrival : 1 ≤ 3 ∧ ∃ tr s, Run (step 3) (init 3 : State ℕ) tr s ∧
    s.res = 2 ∧ admissions (act 3) tr = [0, 3, 4] ∧ withdrawals tr = [1] ∧
    (s.calls 2).pc = .threw ∧ Promise 3 tr s := by
  have hr := Run.of_exec (show exec (step 3) (init 3 : State ℕ) withdrawnArrival = some _ from rfl)
  exact ⟨by decide, _, _, hr, rfl, rfl, rfl, rfl, barrier_trips (by decide) hr⟩

end Runs

end Manwe.AsyncBarrier
