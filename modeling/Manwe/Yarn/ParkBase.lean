import Mathlib
import Manwe.Transition.Run
import Manwe.Transition.Waitlist

/-!
# Parking awaiters

`ParkBase` is the machinery behind every queue-parking awaiter of the asynchronous primitives:
`park` takes the resource under the primitive's mutex or queues a `WaitNode`, `cancelThunk`
withdraws a queued node when the awaiting scope is cancelled, and `abandon` settles an awaiter
whose frame goes away. The derived awaiter supplies the fast path (`tryNow`), the repair after a
withdrawal (`fixupLocked`) and the give-back of a grant nobody will use (`revokeGrant`); these are
the three sections of a `Resource`.

One step is one locked section, one run of a proxy, or the atomic exchange that decides between
a proxy run and a dying frame. Cancellation comes from the environment: a callback may fire from
the moment it is being armed until the awaiter is gone, any number of times. The queue holds
call identifiers, and `WaitNode::queued` is kept beside it as in the source.

`Refines` states that a step makes a move of the abstract books, in which only the queue and the
set of **granted** calls are left: those holding the resource, and those whose grant has not been
delivered or given back yet.
-/

namespace Manwe.ParkBase

open List

variable {ρ ι : Type*}

/-- Where a call stands. -/
inductive Pc
  | idle
  /-- there was nothing to take; the cancel callback is being armed before the second look -/
  | arming
  /-- suspended: the node is queued, or the resume of the proxy is in flight -/
  | parked
  /-- the coroutine runs again and `await_resume` comes next -/
  | resuming
  | holding
  /-- the frame died with a grant in flight; `revokeGrant` comes next -/
  | revoking
  | finished
  | threw
  | destroyed
  deriving DecidableEq

/-- An awaiter: its control point, its node's flag and the flags of the cancellation protocol. -/
structure Call where
  pc : Pc := .idle
  queued : Bool := false
  earlyCancel : Bool := false
  cancelled : Bool := false
  /-- the cancel callback has been armed -/
  bound : Bool := false

/-- The resource is this call's: it holds it, or a grant to it is on its way in or out. -/
def Call.granted (c : Call) : Bool := match c.pc with
  | .parked => !c.queued && !c.cancelled
  | .resuming => !c.cancelled
  | .holding | .revoking => true
  | .idle | .arming | .finished | .threw | .destroyed => false

/-- The call is past the section that queues it or lets it through. -/
def Call.arrived (c : Call) : Bool := match c.pc with
  | .idle | .arming => false
  | .parked | .resuming | .holding | .revoking | .finished | .threw | .destroyed => true

/-- A primitive: its own fields, its wait list and the awaiters around it. -/
structure State (ρ : Type*) (ι : Type*) where
  res : ρ
  waiters : List ι := []
  calls : ι → Call := fun _ => {}

/-- The next state, with the calls that arrived and the calls that were admitted on the way. -/
structure Act (ρ : Type*) (ι : Type*) where
  next : State ρ ι
  arrives : List ι := []
  admits : List ι := []

inductive Event (ι : Type*)
  /-- first look of `park`; `core` is the ambient cancellation context, if there is one, and
  whether cancellation has been requested on it -/
  | park (i : ι) (core : Option Bool)
  | retry (i : ι)
  | cancel (i : ι)
  | wake (i : ι)
  | resume (i : ι)
  | destroy (i : ι)
  | revoke (i : ι)

section Step

variable [DecidableEq ι]

@[simp] def State.set (s : State ρ ι) (i : ι) (c : Call) : State ρ ι :=
  { s with calls := Function.update s.calls i c }

/-- The nodes that a section pops leave the wait list. -/
def State.serve (s : State ρ ι) (v : Served ρ ι) : State ρ ι where
  res := v.res
  waiters := v.waiters
  calls := fun j => if j ∈ v.wake then { s.calls j with queued := false } else s.calls j

/-- One round of the loop in `park`. -/
def park (R : Resource ρ ι) (s : State ρ ι) (i : ι) (core : Option Bool) (armed : Bool) : Act ρ ι :=
  let c := s.calls i
  -- the note left by a callback that fired before the node was queued
  if c.earlyCancel then { next := s.set i { c with pc := .resuming, cancelled := true } }
  else
    match R.tryNow i s.res s.waiters with
    | some r =>
      { next := { s.set i { c with pc := .resuming } with res := r }
        arrives := [i], admits := [i] }
    | none =>
      if core = none ∨ armed then
        { next := { s.set i { c with pc := .parked, queued := true } with
            waiters := s.waiters ++ [i] }
          arrives := [i] }
      else if core = some true then
        { next := s.set i { c with pc := .resuming, cancelled := true } }
      -- the mutex is released to arm the callback, so there is a second look
      else { next := s.set i { c with pc := .arming, bound := true } }

/-- The queued call `i` leaves the wait list unserved and becomes `c`. -/
def withdraw (R : Resource ρ ι) (s : State ρ ι) (i : ι) (c : Call) : Act ρ ι :=
  let v := R.fixup s.res (s.waiters.erase i)
  { next := (s.set i c).serve v, admits := v.wake }

/-- The granted call `i` gives the resource back and becomes `c`. -/
def giveBack (R : Resource ρ ι) (s : State ρ ι) (i : ι) (c : Call) : Act ρ ι :=
  let v := R.giveBack i s.res s.waiters
  { next := (s.set i c).serve v, admits := v.wake }

def cancelThunk (R : Resource ρ ι) (s : State ρ ι) (i : ι) : Act ρ ι := let c := s.calls i
  if c.queued then withdraw R s i { c with cancelled := true, queued := false }
  else { next := s.set i { c with earlyCancel := true } }

/-- The frame of a parked call is destroyed. A cancel wake in flight owes nothing, a grant in
flight has to be given back. -/
def abandon (R : Resource ρ ι) (s : State ρ ι) (i : ι) : Act ρ ι := let c := s.calls i
  if c.queued then withdraw R s i { c with pc := .destroyed, queued := false }
  else if c.cancelled then { next := s.set i { c with pc := .destroyed } }
  else { next := s.set i { c with pc := .revoking } }

/-- `await_resume`: the call throws if its wait was cancelled, and has the resource otherwise. -/
def awaitResume (s : State ρ ι) (i : ι) : State ρ ι := let c := s.calls i
  s.set i { c with pc := if c.cancelled then .threw else .holding }

/-- A caller that takes the resource at once or goes without it: `tryLock`, `tryAcquire`. -/
def attempt (R : Resource ρ ι) (s : State ρ ι) (i : ι) : Act ρ ι :=
  match R.tryNow i s.res s.waiters with
  | some r =>
    { next := { s.set i { s.calls i with pc := .holding } with res := r }
      arrives := [i], admits := [i] }
  | none => { next := s.set i { s.calls i with pc := .finished } }

/-- The steps of the awaiters. -/
def act (R : Resource ρ ι) (s : State ρ ι) : Event ι → Option (Act ρ ι)
  | .park i core => if (s.calls i).pc = .idle then some (park R s i core false) else none
  | .retry i => if (s.calls i).pc = .arming then some (park R s i (some false) true) else none
  | .cancel i =>
    if (s.calls i).bound = true ∧
        ((s.calls i).pc = .arming ∨ (s.calls i).pc = .parked ∨ (s.calls i).pc = .resuming) then
      some (cancelThunk R s i)
    else none
  | .wake i =>
    if (s.calls i).pc = .parked ∧ (s.calls i).queued = false then
      some { next := s.set i { s.calls i with pc := .resuming } }
    else none
  | .resume i => if (s.calls i).pc = .resuming then some { next := awaitResume s i } else none
  | .destroy i => if (s.calls i).pc = .parked then some (abandon R s i) else none
  | .revoke i =>
    if (s.calls i).pc = .revoking then
      some (giveBack R s i { s.calls i with pc := .destroyed })
    else none

end Step

/-! ### The abstract books -/

/-- What is left of a state when the protocol is forgotten. -/
def State.books (s : State ρ ι) : Books ρ ι := ⟨s.res, s.waiters, {i | (s.calls i).granted = true}⟩

/-- The flags agree with the wait list and the control points. -/
structure Inv (s : State ρ ι) : Prop where
  nodup : s.waiters.Nodup
  mem : ∀ {i}, i ∈ s.waiters ↔ (s.calls i).queued = true
  parked : ∀ {i}, (s.calls i).queued = true → (s.calls i).pc = .parked
  live : ∀ {i}, (s.calls i).queued = true ∨ (s.calls i).arrived = false →
    (s.calls i).cancelled = false

theorem inv_init (r : ρ) : Inv ({ res := r } : State ρ ι) := ⟨nodup_nil, by simp, by simp, by simp⟩

variable {i : ι}

variable {s : State ρ ι}

theorem Inv.not_granted (h : Inv s) (hi : (s.calls i).queued = true) :
    (s.calls i).granted = false := by
  simp [Call.granted, h.parked hi, hi]

theorem Inv.not_queued (h : Inv s) (hi : (s.calls i).pc ≠ .parked) :
    (s.calls i).queued = false := by
  by_contra hq
  exact hi (h.parked (by simpa using hq))

theorem Inv.booksOk (h : Inv s) : s.books.Ok where
  nodup := h.nodup
  disjoint := by
    intro i hi
    have hg := h.not_granted (h.mem.mp hi)
    simp [State.books, hg]

variable [DecidableEq ι]

/-- **Refinement**: a step keeps the flags in order and makes a move of the books; a call
arrives at most once. -/
structure Refines (R : Resource ρ ι) (s : State ρ ι) (a : Act ρ ι) : Prop where
  inv : Inv a.next
  move : Move R s.books a.arrives a.admits a.next.books
  arrives : ∀ i ∈ a.arrives, (s.calls i).arrived = false ∧ (a.next.calls i).arrived = true
  arrived : ∀ i, (s.calls i).arrived = true → (a.next.calls i).arrived = true

variable {R : Resource ρ ι} {s : State ρ ι}

theorem calls_set (i j : ι) (c : Call) : (s.set i c).calls j = if j = i then c else s.calls j := by
  simp [Function.update_apply]

variable {c : Call}

/-- What call `i` keeps in its step, all the others keep. -/
theorem kept_set {P : Call → Prop} {j : ι} (hj : P (s.calls j)) (hc : P (s.calls i) → P c) :
    P ((s.set i c).calls j) := by
  rw [calls_set]
  split_ifs with hji
  · exact hc (hji ▸ hj)
  · exact hj

variable (h : Inv s)

include h

/-- One call changes, and the wait list with it. -/
theorem Inv.set {ws : List ι} (hws : ws.Nodup) (hi : i ∈ ws ↔ c.queued = true)
    (hmem : ∀ j ≠ i, (j ∈ ws ↔ j ∈ s.waiters)) (hp : c.queued = true → c.pc = .parked)
    (hl : c.queued = true ∨ c.arrived = false → c.cancelled = false) :
    Inv { s.set i c with waiters := ws } := by
  have hcalls (j : ι) : ({ s.set i c with waiters := ws } : State ρ ι).calls j =
      if j = i then c else s.calls j := calls_set i j c
  refine ⟨hws, fun {j} => ?_, fun {j} => ?_, fun {j} => ?_⟩
  all_goals rw [hcalls]
  · split_ifs with hj
    · exact hj ▸ hi
    · exact (hmem j hj).trans h.mem
  · split
    exacts [hp, h.parked]
  · split
    exacts [hl, h.live]

/-- A call's own step that neither queues nor admits anybody. -/
theorem refines_set (hq : c.queued = (s.calls i).queued)
    (hg : c.granted = (s.calls i).granted) (hp : c.queued = true → c.pc = .parked)
    (hl : c.queued = true ∨ c.arrived = false → c.cancelled = false)
    (ha : (s.calls i).arrived = true → c.arrived = true) : Refines R s { next := s.set i c } := by
  have hbooks : (s.set i c).books = s.books := by
    simp only [State.books, State.set, Books.mk.injEq, true_and]
    ext j
    obtain rfl | hj := eq_or_ne j i
    · simp [hg]
    · simp [hj]
  exact ⟨h.set h.nodup (h.mem.trans (by rw [hq])) (fun _ _ => Iff.rfl) hp hl, hbooks ▸ .idle,
    by simp, fun j hj => kept_set (P := (·.arrived = true)) hj ha⟩

/-- The node of `i` is off the wait list: what remains is in order. -/
theorem Inv.leave (hq : c.queued = false) (ha : c.arrived = true) {ws : List ι} (hws : ws.Nodup)
    (hmem : ∀ j, j ∈ ws ↔ j ∈ s.waiters ∧ j ≠ i) : Inv { s.set i c with waiters := ws } :=
  h.set hws (by simp [hmem, hq]) (fun j hj => by simp [hmem, hj]) (by simp [hq]) (by simp [hq, ha])

theorem Inv.leave_erase (hq : c.queued = false) (ha : c.arrived = true) :
    Inv { s.set i c with waiters := s.waiters.erase i } :=
  h.leave hq ha (h.nodup.erase i) fun j => by rw [h.nodup.mem_erase_iff, and_comm]

theorem Inv.leave_of_notMem (hi : i ∉ s.waiters) (hq : c.queued = false)
    (ha : c.arrived = true) : Inv { s.set i c with waiters := s.waiters } :=
  h.leave hq ha h.nodup fun _ => ⟨fun hj => ⟨hj, fun hji => hi (hji ▸ hj)⟩, And.left⟩

variable {v : Served ρ ι}

omit [DecidableEq ι] in
/-- Popping a prefix of the wait list grants the resource to it. -/
theorem Inv.serve [DecidableEq ι] (hv : v.wake ++ v.waiters = s.waiters) : Inv (s.serve v) := by
  have hnd := h.nodup
  rw [← hv, nodup_append] at hnd
  refine ⟨hnd.2.1, fun {j} => ?_, fun {j} => ?_, fun {j} => ?_⟩
  · simp only [State.serve]
    split_ifs with hj
    · simpa using fun hj' => hnd.2.2 j hj j hj' rfl
    · rw [← h.mem, ← hv, mem_append]
      exact ⟨.inr, fun hj' => hj'.resolve_left hj⟩
  · simp only [State.serve]
    split
    · simp
    · exact h.parked
  · simp only [State.serve]
    split_ifs with hj
    · have hq : (s.calls j).queued = true := h.mem.mp (hv ▸ mem_append_left _ hj)
      exact fun _ => h.live (.inl hq)
    · exact h.live

theorem Inv.books_serve (hv : v.wake ++ v.waiters = s.waiters) :
    (s.serve v).books = ⟨v.res, v.waiters, s.books.granted ∪ {j | j ∈ v.wake}⟩ := by
  simp only [State.books, Books.mk.injEq]
  refine ⟨rfl, rfl, ?_⟩
  ext j
  simp only [State.serve, Set.mem_ofPred_eq, Set.mem_union]
  split_ifs with hj
  · have hq : (s.calls j).queued = true := h.mem.mp (hv ▸ mem_append_left _ hj)
    simp [Call.granted, h.parked hq, h.live (.inl hq), hj]
  · simp [hj]

omit h

theorem arrived_serve (j : ι) : ((s.serve v).calls j).arrived = (s.calls j).arrived := by
  simp only [State.serve]
  split <;> rfl

theorem mem_granted_set (j : ι) : j ∈ (s.set i c).books.granted ↔
    if j = i then c.granted = true else j ∈ s.books.granted := by
  simp only [State.books, Set.mem_ofPred_eq, calls_set]
  split <;> rfl

theorem granted_set_of_not (hc : c.granted = false) :
    (s.set i c).books.granted = s.books.granted \ {i} := by
  ext j
  rw [mem_granted_set]
  split_ifs with hj <;> simp [hj, hc]

theorem arrived_set (hc : c.arrived = true) {j : ι} (hj : (s.calls j).arrived = true) :
    ((s.set i c).calls j).arrived = true :=
  kept_set (P := (·.arrived = true)) hj fun _ => hc

theorem refines_withdraw (h : Inv s) (hi : (s.calls i).queued = true) (hq : c.queued = false)
    (hg : c.granted = false) (ha : c.arrived = true) : Refines R s (withdraw R s i c) := by
  have hv := R.fixup_split s.res (s.waiters.erase i)
  have hl := h.leave_erase hq ha (i := i)
  have hgr : (s.set i c).books.granted = s.books.granted := by
    rw [granted_set_of_not hg]
    exact Set.sdiff_singleton_eq_self (by simp [State.books, h.not_granted hi])
  refine ⟨hl.serve hv, ?_, by simp [withdraw], fun j hj => ?_⟩
  · have hm : Move R s.books [] _ _ := .withdraw (h.mem.mpr hi) rfl
    rw [← hgr] at hm
    exact (hl.books_serve hv).symm ▸ hm
  · exact (arrived_serve j).trans (arrived_set ha hj)

theorem refines_giveBack (h : Inv s) (hi : (s.calls i).granted = true) (hq : c.queued = false)
    (hg : c.granted = false) (ha : c.arrived = true) : Refines R s (giveBack R s i c) := by
  have hv := R.giveBack_split i s.res s.waiters
  have hni : i ∉ s.waiters := fun hm => by simp [h.not_granted (h.mem.mp hm)] at hi
  have hl := h.leave_of_notMem hni hq ha
  refine ⟨hl.serve hv, ?_, by simp [giveBack], fun j hj => ?_⟩
  · have hm : Move R s.books [] _ _ := .giveBack hi rfl
    rw [← granted_set_of_not hg] at hm
    exact (hl.books_serve hv).symm ▸ hm
  · exact (arrived_serve j).trans (arrived_set ha hj)

variable (h : Inv s) (hi : (s.calls i).arrived = false)

include h hi

omit [DecidableEq ι] in
/-- A call that has not arrived is neither queued nor granted. -/
theorem Inv.unarrived :
    i ∉ s.waiters ∧ (s.calls i).granted = false ∧ (s.calls i).queued = false := by
  have hq : (s.calls i).queued = false := h.not_queued fun hp => by simp [Call.arrived, hp] at hi
  refine ⟨by simp [h.mem, hq], ?_, hq⟩
  unfold Call.arrived at hi
  unfold Call.granted
  split at hi <;> simp_all

theorem refines_take {r : ρ} (ht : R.tryNow i s.res s.waiters = some r) (hq : c.queued = false)
    (hg : c.granted = true) (ha : c.arrived = true) :
    Refines R s { next := { s.set i c with res := r }, arrives := [i], admits := [i] } := by
  obtain ⟨hw, hng, -⟩ := h.unarrived hi
  have hinv := h.leave_of_notMem hw hq ha
  refine ⟨⟨hinv.nodup, hinv.mem, hinv.parked, hinv.live⟩, ?_, ?_, fun j hj => arrived_set ha hj⟩
  · have hm : Move R s.books [i] [i] _ := .take hw (by simpa [State.books] using hng) ht
    have hbooks : insert i s.books.granted = (s.set i c).books.granted := by
      ext j
      rw [mem_granted_set, Set.mem_insert_iff]
      split_ifs with hj <;> simp [hj, hg]
    rw [hbooks] at hm
    exact hm
  · intro j hj
    obtain rfl := mem_singleton.mp hj
    exact ⟨hi, by simpa using ha⟩

theorem refines_enqueue (ht : R.tryNow i s.res s.waiters = none) (hpc : c.pc = .parked)
    (hq : c.queued = true)
    (hc : c.cancelled = false) :
    Refines R s { next := { s.set i c with waiters := s.waiters ++ [i] }, arrives := [i] } := by
  obtain ⟨hw, hng, -⟩ := h.unarrived hi
  have ha : c.arrived = true := by simp [Call.arrived, hpc]
  have hnd : (s.waiters ++ [i]).Nodup := concat_eq_append ▸ h.nodup.concat hw
  refine ⟨h.set hnd (by simp [hq]) (fun j hj => by simp [hj]) (fun _ => hpc) fun _ => hc, ?_, ?_,
    fun j hj => arrived_set ha hj⟩
  · have hm : Move R s.books [i] [] _ := .enqueue hw (by simpa [State.books] using hng) ht
    have hbooks : s.books.granted = (s.set i c).books.granted := by
      rw [granted_set_of_not (by simp [Call.granted, hpc, hq])]
      exact (Set.sdiff_singleton_eq_self (by simpa [State.books] using hng)).symm
    rw [hbooks] at hm
    exact hm
  · intro j hj
    obtain rfl := mem_singleton.mp hj
    exact ⟨hi, by simpa using ha⟩

omit h hi

/-- **The four outcomes of a look**: cancelled before it was queued, let through, queued, or sent
to arm the callback. -/
theorem park_cases (R : Resource ρ ι) (s : State ρ ι) (i : ι) (core : Option Bool) (armed : Bool) :
    park R s i core armed =
      { next := s.set i { s.calls i with pc := .resuming, cancelled := true } } ∨
    (∃ r, R.tryNow i s.res s.waiters = some r ∧ park R s i core armed =
      { next := { s.set i { s.calls i with pc := .resuming } with res := r }
        arrives := [i], admits := [i] }) ∨
    (R.tryNow i s.res s.waiters = none ∧ park R s i core armed =
      { next := { s.set i { s.calls i with pc := .parked, queued := true } with
          waiters := s.waiters ++ [i] }
        arrives := [i] }) ∨
    park R s i core armed =
      { next := s.set i { s.calls i with pc := .arming, bound := true } } := by
  dsimp only [park]
  split
  · exact .inl rfl
  split
  · rename_i r ht
    exact .inr (.inl ⟨r, ht, rfl⟩)
  · rename_i ht
    split
    · exact .inr (.inr (.inl ⟨ht, rfl⟩))
    split
    · exact .inl rfl
    · exact .inr (.inr (.inr rfl))

theorem refines_park (h : Inv s) (hi : (s.calls i).arrived = false) (core : Option Bool)
    (armed : Bool) : Refines R s (park R s i core armed) := by
  obtain ⟨hw, hng, hq⟩ := h.unarrived hi
  have hc := h.live (.inr hi)
  rcases park_cases R s i core armed with hp | ⟨r, ht, hp⟩ | ⟨ht, hp⟩ | hp
  · exact hp ▸ refines_set h rfl (by rw [hng]; rfl) (by simp [hq]) (by simp [Call.arrived, hq])
      (by simp [hi])
  · exact hp ▸ refines_take h hi ht hq (by simp [Call.granted, hc]) rfl
  · exact hp ▸ refines_enqueue h hi ht rfl rfl hc
  · exact hp ▸ refines_set h rfl (by rw [hng]; rfl) (by simp [hq]) (fun _ => hc) (by simp [hi])

theorem refines_attempt (h : Inv s) (hi : (s.calls i).arrived = false) :
    Refines R s (attempt R s i) := by
  obtain ⟨-, hng, hq⟩ := h.unarrived hi
  unfold attempt
  split
  · rename_i r ht
    exact refines_take h hi ht hq rfl rfl
  · exact refines_set h rfl hng.symm (by simp [hq]) (fun _ => h.live (.inr hi)) (by simp [hi])

/-- **Every step of the awaiters is a move of the books.** -/
theorem act_refines (h : Inv s) {e : Event ι} {a : Act ρ ι} (ha : act R s e = some a) :
    Refines R s a := by
  cases e with obtain ⟨hpc, rfl⟩ := of_guard ha
  | park i core => exact refines_park h (by simp [Call.arrived, hpc]) core false
  | retry => exact refines_park h (by simp [Call.arrived, hpc]) (some false) true
  | cancel =>
    dsimp only [cancelThunk]
    split_ifs with hq
    · have hp := h.parked hq
      exact refines_withdraw h hq rfl (by simp [Call.granted, hp]) (by simp [Call.arrived, hp])
    · -- only a note is left, which no other section reads
      exact refines_set h rfl rfl h.parked h.live id
  | wake =>
    obtain ⟨hpc, hq⟩ := hpc
    exact refines_set h rfl (by simp [Call.granted, hpc, hq]) (by simp [hq])
      (by simp [Call.arrived, hq]) (by simp [Call.arrived])
  | resume i =>
    have hq := h.not_queued (i := i) (by simp [hpc])
    dsimp only [awaitResume]
    split
    all_goals
      rename_i hc
      exact refines_set h rfl (by simp [Call.granted, hpc, hc]) (by simp [hq])
        (by simp [Call.arrived, hq, hc]) (by simp [Call.arrived])
  | destroy =>
    dsimp only [abandon]
    split
    · rename_i hq
      exact refines_withdraw h hq rfl rfl rfl
    · rename_i hq
      split
      all_goals
        rename_i hc
        exact refines_set h rfl (by simp [Call.granted, hpc, hc, hq]) (by simp [hq])
          (by simp [Call.arrived, hq, hc]) (by simp [Call.arrived])
  | revoke i =>
    have hq := h.not_queued (i := i) (by simp [hpc])
    exact refines_giveBack h (by simp [Call.granted, hpc]) hq rfl rfl

end Manwe.ParkBase
