import Manwe.Yarn.ParkBase

/-!
# Runs of a primitive with parking awaiters

A primitive adds operations of its own to the steps of the awaiters. What is proved here holds
for any such combination: its steps are given by a function `act`, and all that is used of it is
that each step refines a move of the books (`Refines`), or at least keeps track of who has been
served (`Tracks`), which is also true of sections run from outside the queue.

Over a whole run the calls **arrive** at the queue once, are **admitted** in the order of their
arrival, and nobody is lost on the way: whoever arrived has been admitted, waits, or has
withdrawn (`queue_balance`).
-/

namespace Manwe.ParkBase

open List Option Call State

variable {ρ ι : Type*} [DecidableEq ι] {R : Resource ρ ι} {s : State ρ ι}

/-! ### Who has been served

A call that was admitted stays served: no cancellation reaches it any more, so it does not throw.
Sections run from outside, such as a release by somebody who was never queued, serve the queue
without being a move of the books; `Tracks` is what they have in common with the awaiters' own
steps. -/

/-- The call holds the resource. -/
@[simp] def Call.holds (c : Call) : Bool := c.pc = .holding

/-- A grant is on its way to the call, or back. -/
@[simp] def Call.inFlight (c : Call) : Bool := c.granted && c.pc ≠ .holding

omit [DecidableEq ι] in
theorem Call.granted_iff (c : Call) : c.granted = true ↔ c.holds = true ∨ c.inFlight = true := by
  unfold holds inFlight
  cases hpc : c.pc <;> simp [granted, hpc]

/-- The call is past the queue, and not by a cancellation. -/
structure Call.Served (c : Call) : Prop where
  arrived : c.arrived = true
  queued : c.queued = false
  cancelled : c.cancelled = false
  pc : c.pc ≠ .threw

/-- **What every section keeps**, the awaiters' own and those run from outside. -/
structure Tracks (s : State ρ ι) (a : Act ρ ι) : Prop where
  inv : Inv a.next
  granted : ∀ i, (a.next.calls i).granted = true → (s.calls i).granted = true ∨ i ∈ a.admits
  admits : ∀ i ∈ a.admits, (a.next.calls i).Served
  served : ∀ i, (s.calls i).Served → (a.next.calls i).Served
  once : a.arrives.Nodup
  arrives : ∀ i ∈ a.arrives, (s.calls i).arrived = false ∧ (a.next.calls i).arrived = true
  arrived : ∀ i, (s.calls i).arrived = true → (a.next.calls i).arrived = true

variable {i j : ι} {c : Call}

variable {v : Served ρ ι}

theorem served_serve (hj : (s.calls j).Served) : ((s.serve v).calls j).Served := by
  simp only [serve]
  split
  · exact ⟨hj.arrived, rfl, hj.cancelled, hj.pc⟩
  · exact hj

/-- Whoever is popped is served. -/
theorem Inv.served_of_wake (h : Inv s) (hv : v.wake ++ v.waiters = s.waiters) (hj : j ∈ v.wake) :
    ((s.serve v).calls j).Served := by
  have hq : (s.calls j).queued = true := h.mem.mp (hv ▸ mem_append_left _ hj)
  have hp := h.parked hq
  simp only [State.serve, hj, if_true]
  exact ⟨by simp [Call.arrived, hp], rfl, h.live (.inl hq), by simp [hp]⟩

/-- A section run from outside. -/
theorem tracks_serve (h : Inv s) (hv : v.wake ++ v.waiters = s.waiters) :
    Tracks s { next := s.serve v, admits := v.wake } where
  inv := h.serve hv
  granted i hi := by
    have hmem : i ∈ (s.serve v).books.granted := hi
    rw [h.books_serve hv] at hmem
    exact hmem
  admits _ := h.served_of_wake hv
  served _ := served_serve
  once := nodup_nil
  arrives _ hi := by simp at hi
  arrived i hi := (arrived_serve i).trans hi

namespace Refines

variable {a : Act ρ ι}

theorem tracks (h : Refines R s a) (hadm : ∀ i ∈ a.admits, (a.next.calls i).Served)
    (hserved : ∀ i, (s.calls i).Served → (a.next.calls i).Served) : Tracks s a :=
  ⟨h.inv, fun _ hi => h.move.granted_of hi, hadm, hserved,
    by rcases h.move.arrives_eq with h0 | ⟨i, h1⟩ <;> simp [*], h.arrives, h.arrived⟩

/-- The queue is served after the call `i`, which is off the queue, has become `c`. -/
theorem tracks_of_serve {i : ι} {c : Call} {v : Manwe.Served ρ ι}
    (h : Refines R s { next := (s.set i c).serve v, admits := v.wake })
    (hl : Inv { s.set i c with waiters := v.wake ++ v.waiters })
    (hc : (s.calls i).Served → c.Served) :
    Tracks s { next := (s.set i c).serve v, admits := v.wake } :=
  h.tracks (fun _ hj => hl.served_of_wake rfl hj) fun _ hj => served_serve (kept_set hj hc)

theorem tracks_of_set {i : ι} {c : Call} (h : Refines R s { next := s.set i c })
    (hc : (s.calls i).Served → c.Served) : Tracks s { next := s.set i c } :=
  h.tracks (by simp) fun _ hj => kept_set hj hc

end Refines

theorem tracks_withdraw (h : Inv s) (hi : (s.calls i).queued = true) (hq : c.queued = false)
    (hg : c.granted = false) (ha : c.arrived = true) : Tracks s (withdraw R s i c) := by
  refine (refines_withdraw h hi hq hg ha).tracks_of_serve ?_ fun hs => ?_
  · rw [R.fixup_split]
    exact h.leave_erase hq ha
  · exact absurd hs.queued (by simp [hi])

variable (h : Inv s) (hi : (s.calls i).granted = true) (hq : c.queued = false)
  (hg : c.granted = false) (ha : c.arrived = true)

include h hi hq hg ha

theorem tracks_giveBack (hc : (s.calls i).Served → c.Served) : Tracks s (giveBack R s i c) := by
  have hni : i ∉ s.waiters := fun hm => by simp [h.not_granted (h.mem.mp hm)] at hi
  refine (refines_giveBack h hi hq hg ha).tracks_of_serve ?_ hc
  rw [R.giveBack_split]
  exact h.leave_of_notMem hni hq ha

theorem Inv.granted_giveBack : (giveBack R s i c).next.books.granted =
      s.books.granted \ {i} ∪ {j | j ∈ (R.giveBack i s.res s.waiters).wake} := by
  have hni : i ∉ s.waiters := fun hm => by simp [h.not_granted (h.mem.mp hm)] at hi
  have hbooks := (h.leave_of_notMem hni hq ha).books_serve (R.giveBack_split i s.res s.waiters)
  rw [← granted_set_of_not hg]
  exact congrArg Books.granted hbooks

omit h hi hq hg ha

theorem tracks_park (h : Inv s) (hi : (s.calls i).arrived = false) (core : Option Bool)
    (armed : Bool) : Tracks s (park R s i core armed) := by
  have href := refines_park (R := R) h hi core armed
  have hns : ∀ c : Call, (s.calls i).Served → c.Served := fun c hs => by simp [hs.arrived] at hi
  rcases park_cases R s i core armed with hp | ⟨r, -, hp⟩ | ⟨-, hp⟩ | hp
  all_goals rw [hp] at href ⊢
  · exact href.tracks_of_set (hns _)
  · refine href.tracks (fun j hj => ?_) fun j hj => kept_set hj (hns _)
    obtain rfl := mem_singleton.mp hj
    simpa using ⟨rfl, (h.unarrived hi).2.2, h.live (.inr hi), by simp⟩
  · exact href.tracks (by simp) fun j hj => kept_set hj (hns _)
  · exact href.tracks_of_set (hns _)

theorem tracks_attempt (h : Inv s) (hi : (s.calls i).arrived = false) :
    Tracks s (attempt R s i) := by
  have href := refines_attempt (R := R) h hi
  have hns : ∀ c : Call, (s.calls i).Served → c.Served := fun c hs => by simp [hs.arrived] at hi
  unfold attempt at href ⊢
  split at href
  · refine href.tracks (fun j hj => ?_) fun j hj => kept_set hj (hns _)
    obtain rfl := mem_singleton.mp hj
    simpa using ⟨rfl, (h.unarrived hi).2.2, h.live (.inr hi), by simp⟩
  · exact href.tracks_of_set (hns _)

variable {a : Act ρ ι}

theorem act_tracks (h : Inv s) {e : Event ι} (ha : act R s e = some a) : Tracks s a := by
  have href := act_refines h ha
  cases e with obtain ⟨hpc, rfl⟩ := of_guard ha
  | park i core => exact tracks_park h (by simp [Call.arrived, hpc]) core false
  | retry => exact tracks_park h (by simp [Call.arrived, hpc]) (some false) true
  | cancel =>
    dsimp only [cancelThunk] at href ⊢
    split_ifs with hq
    · have hp := h.parked hq
      exact tracks_withdraw h hq rfl (by simp [granted, hp]) (by simp [Call.arrived, hp])
    · rw [if_neg hq] at href
      exact href.tracks_of_set fun hs => ⟨hs.arrived, hs.queued, hs.cancelled, hs.pc⟩
  | wake => exact href.tracks_of_set fun hs => ⟨rfl, hs.queued, hs.cancelled, by simp⟩
  | resume =>
    refine href.tracks_of_set fun hs => ?_
    simp only [hs.cancelled, Bool.false_eq_true, if_false]
    exact ⟨rfl, hs.queued, rfl, by simp⟩
  | destroy =>
    dsimp only [abandon] at href ⊢
    split
    · rename_i hq
      exact tracks_withdraw h hq rfl rfl rfl
    · rename_i hq
      rw [if_neg hq] at href
      split_ifs with hc
      · rw [if_pos hc] at href
        exact href.tracks_of_set fun hs => ⟨rfl, hs.queued, hs.cancelled, by simp⟩
      · rw [if_neg hc] at href
        exact href.tracks_of_set fun hs => ⟨rfl, hs.queued, hs.cancelled, by simp⟩
  | revoke =>
    exact tracks_giveBack h (by simp [granted, hpc]) (h.not_queued (by simp [hpc])) rfl rfl
      fun hs => ⟨rfl, hs.queued, hs.cancelled, by simp⟩

/-- The call that a step takes out of the queue unserved. -/
@[simp] def withdraws (s : State ρ ι) : Event ι → List ι
  | .cancel i | .destroy i => if (s.calls i).queued then [i] else []
  | .park .. | .retry _ | .wake _ | .resume _ | .revoke _ => []

theorem withdraw_sublist (i : ι) (c : Call) :
    (withdraw R s i c).next.waiters.Sublist s.waiters := by
  have hsplit := R.fixup_split s.res (s.waiters.erase i)
  exact (hsplit ▸ sublist_append_right _ _).trans erase_sublist

theorem withdraw_perm (hi : i ∈ s.waiters) (c : Call) :
    ((withdraw R s i c).admits ++ (withdraw R s i c).next.waiters ++ [i]).Perm s.waiters := by
  change ((R.fixup s.res (s.waiters.erase i)).wake ++
    (R.fixup s.res (s.waiters.erase i)).waiters ++ [i]).Perm s.waiters
  rw [R.fixup_split]
  exact perm_append_singleton _ _ |>.trans (perm_cons_erase hi).symm

theorem attempt_perm (R : Resource ρ ι) (s : State ρ ι) (i : ι) :
    ((attempt R s i).admits ++ (attempt R s i).next.waiters).Perm
      (s.waiters ++ (attempt R s i).arrives) := by
  unfold attempt
  split
  · simpa using (perm_append_singleton i s.waiters).symm
  · simp

/-- **Nobody vanishes from the queue**: whoever waits or arrives is admitted, waits on or has
withdrawn. -/
theorem act_queue (h : Inv s) {e : Event ι} (ha : act R s e = some a) :
    (a.admits ++ a.next.waiters ++ withdraws s e).Perm (s.waiters ++ a.arrives) := by
  have hpark : ∀ i core armed, ((park R s i core armed).admits ++
      (park R s i core armed).next.waiters ++ []).Perm
        (s.waiters ++ (park R s i core armed).arrives) := by
    intro i core armed
    rcases park_cases R s i core armed with hp | ⟨r, -, hp⟩ | ⟨-, hp⟩ | hp
    · simp [hp]
    · simpa [hp] using (perm_append_singleton i s.waiters).symm
    · simp [hp]
    · simp [hp]
  cases e with obtain ⟨-, rfl⟩ := of_guard ha
  | park i core => exact hpark i core false
  | retry i => exact hpark i (some false) true
  | cancel =>
    dsimp only [cancelThunk, withdraws]
    split_ifs with hq
    · simpa [withdraw] using withdraw_perm (h.mem.mpr hq) _
    · simp
  | wake => simp [withdraws]
  | resume => simp [awaitResume, withdraws]
  | destroy =>
    dsimp only [abandon, withdraws]
    split
    · rename_i hq
      simpa [withdraw] using withdraw_perm (h.mem.mpr hq) _
    · split <;> simp
  | revoke => simp [giveBack, serve, withdraws, R.giveBack_split]

/-! ### Control points

A step moves only calls that are under way; a call begins with its first look. -/

section Pcs

variable {ε : Type*} {starts : ε → Option ι}

/-- Nothing happens to the call any more, except that it may give up what it holds. -/
@[simp] def Pc.settled : Pc → Bool
  | .holding | .finished | .threw | .destroyed => true
  | .idle | .arming | .parked | .resuming | .revoking => false

/-- A step leaves a call's control point alone unless the call is under way or is begun by it. -/
def Keeps (starts : ε → Option ι) (s : State ρ ι) (e : ε) (t : State ρ ι) : Prop :=
  ∀ i, (t.calls i).pc = (s.calls i).pc ∨
    ((s.calls i).pc.settled = false ∧ ((s.calls i).pc = .idle → starts e = some i))

/-- The call that a step of the awaiters begins. -/
def begins : Event ι → Option ι
  | .park i _ => some i
  | .retry _ | .cancel _ | .wake _ | .resume _ | .destroy _ | .revoke _ => none

theorem pc_serve (s : State ρ ι) (v : Served ρ ι) (j : ι) :
    ((s.serve v).calls j).pc = (s.calls j).pc := by
  simp only [serve]
  split <;> rfl

variable {e : ε} {i j : ι} {c : Call}

/-- A step that sets the control point of one call. -/
theorem keeps_set {s t : State ρ ι} (ht : ∀ j, (t.calls j).pc = ((s.set i c).calls j).pc)
    (hd : (s.calls i).pc.settled = false) (hidle : (s.calls i).pc = .idle → starts e = some i) :
    Keeps starts s e t := by
  intro j
  rw [ht, calls_set]
  split_ifs with hj
  · exact .inr (hj ▸ ⟨hd, hidle⟩)
  · exact .inl rfl

theorem keeps_park (R : Resource ρ ι) {s : State ρ ι} (core : Option Bool) (armed : Bool)
    (hd : (s.calls i).pc.settled = false) (hidle : (s.calls i).pc = .idle → starts e = some i) :
    Keeps starts s e (park R s i core armed).next := by
  rcases park_cases R s i core armed with hp | ⟨r, -, hp⟩ | ⟨-, hp⟩ | hp
  all_goals
    rw [hp]
    exact keeps_set (fun _ => rfl) hd hidle

theorem keeps_attempt {R : Resource ρ ι} {s : State ρ ι} (hd : (s.calls i).pc.settled = false)
    (hidle : (s.calls i).pc = .idle → starts e = some i) :
    Keeps starts s e (attempt R s i).next := by
  unfold attempt
  split <;> exact keeps_set (fun _ => rfl) hd hidle

variable {a : Act ρ ι}

/-- **The awaiters' own steps** move only calls that are under way. -/
theorem act_keeps {R : Resource ρ ι} {s : State ρ ι} {e : Event ι} (ha : act R s e = some a) :
    Keeps begins s e a.next := by
  cases e with obtain ⟨hpc, rfl⟩ := of_guard ha
  | park i core => exact keeps_park R core false (by simp [hpc]) fun _ => rfl
  | retry => exact keeps_park R (some false) true (by simp [hpc]) (by simp [hpc])
  | cancel i =>
    replace hpc := hpc.2
    have hd : (s.calls i).pc.settled = false := by rcases hpc with h | h | h <;> simp [h]
    have hidle : (s.calls i).pc = .idle → begins (.cancel i) = some i := by
      rcases hpc with h | h | h <;> simp [h]
    dsimp only [cancelThunk]
    split
    · exact keeps_set (pc_serve _ _) hd hidle
    · exact keeps_set (fun _ => rfl) hd hidle
  | wake | resume => exact keeps_set (fun _ => rfl) (by simp [hpc]) (by simp [hpc])
  | destroy i =>
    have hd : (s.calls i).pc.settled = false := by simp [hpc]
    dsimp only [abandon]
    split
    · exact keeps_set (pc_serve _ _) hd (by simp [hpc])
    split
    · exact keeps_set (fun _ => rfl) hd (by simp [hpc])
    · exact keeps_set (fun _ => rfl) hd (by simp [hpc])
  | revoke => exact keeps_set (pc_serve _ _) (by simp [hpc]) (by simp [hpc])

/-- The call has been let through, or woken: nothing but its own steps is left. -/
structure Call.Through (c : Call) : Prop where
  pc : c.pc = .resuming ∨ c.pc = .holding
  cancelled : c.cancelled = false

theorem Call.Through.ne (h : c.Through) {pc : Pc} (hr : pc ≠ .resuming) (hh : pc ≠ .holding) :
    c.pc ≠ pc :=
  fun e => h.pc.elim (fun h => hr (e ▸ h)) fun h => hh (e ▸ h)

theorem through_serve {v : Served ρ ι} (hj : (s.calls j).Through) :
    ((s.serve v).calls j).Through := by
  simp only [serve]
  split
  · exact ⟨hj.pc, hj.cancelled⟩
  · exact hj

theorem through_park (core : Option Bool) (armed : Bool) (hj : (s.calls j).Through)
    (hi : ¬ (s.calls i).Through) : ((park R s i core armed).next.calls j).Through := by
  have hset : ∀ c : Call, ((s.set i c).calls j).Through := fun c => kept_set hj (absurd · hi)
  rcases park_cases R s i core armed with hp | ⟨r, -, hp⟩ | ⟨-, hp⟩ | hp
  all_goals
    rw [hp]
    exact hset _

theorem granted_set (hj : (s.calls j).granted = true)
    (hc : (s.calls i).granted = true → c.granted = true) : ((s.set i c).calls j).granted = true :=
  kept_set (P := (·.granted = true)) hj hc

theorem granted_serve {v : Served ρ ι} (hj : (s.calls j).granted = true) :
    ((s.serve v).calls j).granted = true := by
  simp only [serve]
  split
  · unfold granted at hj ⊢
    split at hj <;> simp_all
  · exact hj

/-- **A grant stays** until its own call gives it back. -/
theorem act_granted (h : Inv s) {e : Event ι} (ha : act R s e = some a)
    (hj : (s.calls j).granted = true) (he : e ≠ .revoke j) : (a.next.calls j).granted = true := by
  have hpark : ∀ {i} (core : Option Bool) (armed : Bool), (s.calls i).arrived = false →
      ((park R s i core armed).next.calls j).granted = true := by
    intro i core armed hi
    have hset : ∀ c : Call, ((s.set i c).calls j).granted = true := fun c =>
      granted_set hj fun hg => absurd hg (by simp [(h.unarrived hi).2.1])
    rcases park_cases R s i core armed with hp | ⟨r, -, hp⟩ | ⟨-, hp⟩ | hp
    all_goals
      rw [hp]
      exact hset _
  cases e with obtain ⟨hpc, rfl⟩ := of_guard ha
  | park i core => exact hpark core false (by simp [Call.arrived, hpc])
  | retry => exact hpark (some false) true (by simp [Call.arrived, hpc])
  | cancel =>
    dsimp only [cancelThunk]
    split_ifs with hq
    · exact granted_serve (granted_set hj fun hg => absurd hg (by simp [h.not_granted hq]))
    · exact granted_set hj id
  | wake =>
    refine granted_set hj fun hg => ?_
    simp only [granted, hpc, Bool.and_eq_true] at hg
    exact hg.2
  | resume i =>
    refine granted_set hj fun hg => ?_
    have hc : (s.calls i).cancelled = false := by simpa [granted, hpc] using hg
    simp [granted, hc]
  | destroy =>
    dsimp only [abandon]
    split
    · rename_i hq
      exact granted_serve (granted_set hj fun hg => absurd hg (by simp [h.not_granted hq]))
    split_ifs with hc
    · exact granted_set hj fun hg => by simp [granted, hpc, hc] at hg
    · exact granted_set hj fun _ => rfl
  | revoke i =>
    have hji : j ≠ i := fun e => he (by rw [e])
    exact granted_serve (by rwa [calls_set, if_neg hji])

/-- **A call that has been let through goes on**, whatever else happens. -/
theorem act_through (h : Inv s) {e : Event ι} (ha : act R s e = some a)
    (hj : (s.calls j).Through) : (a.next.calls j).Through := by
  have hno : ∀ {i pc}, (s.calls i).pc = pc → pc ≠ .resuming → pc ≠ .holding →
      ¬ (s.calls i).Through := fun hpc hr hh hi => hi.ne hr hh hpc
  cases e with obtain ⟨hpc, rfl⟩ := of_guard ha
  | park i core => exact through_park core false hj (hno hpc (by simp) (by simp))
  | retry => exact through_park (some false) true hj (hno hpc (by simp) (by simp))
  | cancel =>
    dsimp only [cancelThunk]
    split_ifs with hq
    · exact through_serve (kept_set hj (absurd · (hno (h.parked hq) (by simp) (by simp))))
    · exact kept_set hj fun hi => ⟨hi.pc, hi.cancelled⟩
  | wake => exact kept_set hj fun hi => ⟨.inl rfl, hi.cancelled⟩
  | resume => exact kept_set hj fun hi => ⟨by simp [hi.cancelled], hi.cancelled⟩
  | destroy i =>
    have hi : ¬ (s.calls i).Through := hno hpc (by simp) (by simp)
    dsimp only [abandon]
    split
    · exact through_serve (kept_set hj (absurd · hi))
    split
    · exact kept_set hj (absurd · hi)
    · exact kept_set hj (absurd · hi)
  | revoke => exact through_serve (kept_set hj (absurd · (hno hpc (by simp) (by simp))))

end Pcs

/-! ### Whole runs

A primitive adds its own operations to the steps of the awaiters; `act` is the combined system.
All that is used of it is that each of its steps refines a move. -/

section Runs

variable {ε : Type*} {act : State ρ ι → ε → Option (Act ρ ι)} {s₀ : State ρ ι}
  {tr : List (State ρ ι × ε)}

/-- The step function of a system. -/
def stepOf (act : State ρ ι → ε → Option (Act ρ ι)) (s : State ρ ι) (e : ε) : Option (State ρ ι) :=
  (act s e).map Act.next

/-- The calls of a run in the order in which they were queued or let through. -/
@[simp] def arrivals (act : State ρ ι → ε → Option (Act ρ ι)) : List (State ρ ι × ε) → List ι :=
  logOf fun s e => ((act s e).map Act.arrives).getD []

/-- The calls of a run in the order in which they were admitted. -/
@[simp] def admissions (act : State ρ ι → ε → Option (Act ρ ι)) : List (State ρ ι × ε) → List ι :=
  logOf fun s e => ((act s e).map Act.admits).getD []

variable (href : ∀ {s e a}, Inv s → act s e = some a → Refines R s a)
  (hr : Run (stepOf act) s₀ tr s) (h₀ : Inv s₀)

include href hr h₀

variable {J : Books ρ ι → Prop}

/-- An invariant of the books holds in every reachable state. -/
theorem books_invariant (hJ₀ : J s₀.books)
    (hJ : ∀ {b arr adm b'}, b.Ok → J b → Move R b arr adm b' → J b') : Inv s ∧ J s.books := by
  induction hr with
  | start => exact ⟨h₀, hJ₀⟩
  | next _ hs ih =>
    obtain ⟨a, ha, rfl⟩ := map_eq_some_iff.mp hs
    have h := href ih.1 ha
    exact ⟨h.inv, hJ ih.1.booksOk ih.2 h.move⟩

/-- **Order of admission over a run**, for a resource that is taken at once only over an empty
queue. -/
theorem admissions_fifo (hJ₀ : J s₀.books) (hempty : s₀.waiters = [])
    (hJ : ∀ {b arr adm b'}, b.Ok → J b → Move R b arr adm b' → J b')
    (hnow : ∀ {b i r}, J b → R.tryNow i b.res b.waiters = some r → b.waiters = []) :
    (admissions act tr ++ s.waiters).Sublist (arrivals act tr) := by
  induction hr with
  | start => simp [hempty]
  | @next tr s t e hr hs ih =>
    obtain ⟨hI, hj⟩ := books_invariant href hr h₀ hJ₀ hJ
    obtain ⟨a, ha, rfl⟩ := map_eq_some_iff.mp hs
    have hm := ((href hI ha).move.queueStep (hnow hj)).fifo ih
    simpa [ha, books] using hm

variable (htr : ∀ {s e a}, Inv s → act s e = some a → Tracks s a)

include htr

omit href [DecidableEq ι] in
/-- No call arrives twice. -/
theorem arrivals_nodup :
    Inv s ∧ (arrivals act tr).Nodup ∧ ∀ i ∈ arrivals act tr, (s.calls i).arrived = true := by
  induction hr with
  | start => simp [h₀]
  | @next tr s t e hr hs ih =>
    obtain ⟨hI, hnd, harr⟩ := ih
    obtain ⟨a, ha, rfl⟩ := map_eq_some_iff.mp hs
    have h := htr hI ha
    have hlog : arrivals act (tr ++ [(s, e)]) = arrivals act tr ++ a.arrives := by simp [ha]
    rw [hlog]
    refine ⟨h.inv, nodup_append.mpr ⟨hnd, h.once, ?_⟩, fun i hi => ?_⟩
    · rintro i hi j hj rfl
      have := (h.arrives i hj).1
      simp [harr i hi] at this
    · rcases mem_append.mp hi with hi | hi
      · exact h.arrived i (harr i hi)
      · exact (h.arrives i hi).2

omit href [DecidableEq ι] in
/-- **Served and granted over a run**: whoever has the resource was admitted, and whoever was
admitted stays served. -/
theorem tracked (hnone : s₀.books.granted = ∅) :
    Inv s ∧ (∀ {i}, (s.calls i).granted = true → i ∈ admissions act tr) ∧
      ∀ {i}, i ∈ admissions act tr → (s.calls i).Served := by
  induction hr with
  | start =>
    refine ⟨h₀, fun {i} hi => ?_, by simp⟩
    have hmem : i ∈ s₀.books.granted := hi
    simp [hnone] at hmem
  | @next tr s t e hr hs ih =>
    obtain ⟨hI, hgr, hsv⟩ := ih
    obtain ⟨a, ha, rfl⟩ := map_eq_some_iff.mp hs
    have h := htr hI ha
    have hlog : admissions act (tr ++ [(s, e)]) = admissions act tr ++ a.admits := by simp [ha]
    simp only [hlog, mem_append]
    exact ⟨h.inv, fun {i} hi => (h.granted i hi).imp hgr id,
      fun {i} hi => hi.elim (fun hi => h.served i (hsv hi)) (h.admits i)⟩

omit htr

omit href in
/-- **Nobody vanishes**: over a run, those admitted, those who wait and those who withdrew are
those who arrived. `wd` names who withdraws in a step. -/
theorem queue_balance (wd : State ρ ι → ε → List ι) (hempty : s₀.waiters = [])
    (htr : ∀ {s e a}, Inv s → act s e = some a → Tracks s a)
    (hq : ∀ {s e a}, Inv s → act s e = some a →
      (a.admits ++ a.next.waiters ++ wd s e).Perm (s.waiters ++ a.arrives)) :
    Inv s ∧ (admissions act tr ++ s.waiters ++ logOf wd tr).Perm (arrivals act tr) := by
  induction hr with
  | start => exact ⟨h₀, by simp [hempty]⟩
  | @next tr s t e hr hs ih =>
    obtain ⟨a, ha, rfl⟩ := map_eq_some_iff.mp hs
    refine ⟨(htr ih.1 ha).inv, ?_⟩
    have hadm : admissions act (tr ++ [(s, e)]) = admissions act tr ++ a.admits := by simp [ha]
    have harr : arrivals act (tr ++ [(s, e)]) = arrivals act tr ++ a.arrives := by simp [ha]
    rw [hadm, harr, logOf_snoc, perm_iff_count]
    intro j
    have hbefore := ih.2.count_eq j
    have hstep := (hq ih.1 ha).count_eq j
    simp only [count_append] at hbefore hstep ⊢
    omega

end Runs

end Manwe.ParkBase
