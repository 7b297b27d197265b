import Manwe.Wire.Mailbox.Steps

/-!
# What a step means for the calls

A step touches its own call and those in the queue (`recv_of_ne`); a call that is over stays as it
is; a call ends empty-handed only at a channel that is closed and drained (`ended_of_act`); what a
call holds it keeps until its destructor has put it back.
-/

namespace Manwe.Mailbox

open Option

variable {σ ι α η : Type*}
  {S : Side σ η α} {Ok : σ → Prop} {s : State σ ι α} [DecidableEq ι]

/-! ### Which calls a step touches -/

variable {i j : ι} {v : α} {rest : List ι}

/-- A value that is handed over goes to a queued call. -/
theorem Inv.recv_give (h : Inv S Ok s) (hr : s.receivers = i :: rest)
    (hj : (s.recv j).queued = false) : (s.give i rest v).recv j = s.recv j := by
  have hji : j ≠ i := by
    rintro rfl
    rw [h.mem.mp (by simp [hr])] at hj
    cases hj
  change (s.set i _).recv j = s.recv j
  rw [recv_set, if_neg hji]

theorem Inv.recv_pushFrontCore (h : Inv S Ok s) (v : α) (hj : (s.recv j).queued = false) :
    (pushFrontCore S s v).1.recv j = s.recv j := by
  unfold pushFrontCore
  split
  · rename_i hr
    split
    · exact h.recv_give hr hj
    · rfl
  · rfl

variable {e : Event ι η α} {a : Act σ ι α}

/-- **Frame.** A step touches its own call and those in the queue. -/
theorem recv_of_ne (h : Inv S Ok s) (ha : act S s e = some a) (hj : e.call ≠ some j)
    (hq : (s.recv j).queued = false) : a.next.recv j = s.recv j := by
  cases he : e.call with
  | some i =>
    have hji : j ≠ i := fun hji => hj (he.trans (congrArg some hji.symm))
    by_cases hp : e.plain = true
    · exact (act_own h ha hp he).frame hji
    · cases e with
      | putBack k =>
        obtain rfl := some.inj he
        simp only [act] at ha
        split at ha <;> cases ha
        next v hpc =>
          have hsame : (s.set k { s.recv k with pc := .destroyed }).recv j = s.recv j :=
            (recv_set s k j _).trans (if_neg hji)
          exact ((h.set_destroyed hpc).recv_pushFrontCore v (by rw [hsame, hq])).trans hsame
      | pushFront => cases he
      | _ => exact absurd rfl hp
  | none =>
    -- these steps reach only calls that are queued
    have hm : j ∉ s.receivers := by
      rw [h.mem, hq]
      simp
    cases e with
    | pushFront v =>
      obtain rfl := some.inj ha
      exact h.recv_pushFrontCore v hq
    | close =>
      obtain rfl := some.inj ha
      dsimp only [close]
      split
      · rfl
      · simp only [hm, if_false]
    | send =>
      obtain ⟨d, hd, rfl⟩ := map_eq_some_iff.mp ha
      unfold deal
      split
      · rename_i v i rest _ hr
        have hji : j ≠ i := by
          rintro rfl
          exact hm (by simp [hr])
        exact (recv_set s i j _).trans (if_neg hji)
      · rfl
    | _ => cases he

/-- The call has ended, one way or another. -/
@[simp] def RecvPc.over : RecvPc α → Bool
  | .returned _ | .threw _ | .destroyed => true
  | .idle | .looked | .arming | .parked | .resuming | .putBack _ => false

/-- A call that is over takes no step. -/
theorem act_of_over (he : e.call = some j) (hj : (s.recv j).pc.over = true) : act S s e = none := by
  cases e with
  | pushFront | close | send => cases he
  | _ =>
    obtain rfl := some.inj he
    simp only [act]
    revert hj
    cases (s.recv _).pc <;> simp

/-- **A call that is over stays as it is.** -/
theorem recv_of_over (h : Inv S Ok s) (ha : act S s e = some a) (hj : (s.recv j).pc.over = true) :
    a.next.recv j = s.recv j := by
  refine recv_of_ne h ha (fun he => ?_) ((h.wf j).queued_eq fun hpc => ?_)
  · rw [act_of_over he hj] at ha
    cases ha
  · rw [hpc] at hj
    cases hj

/-! ### Calls that find the channel at its end -/

theorem ended_of_set {P : Prop} {c : RecvCall α} (hc : c.ended → P)
    (h : ((s.set i c).recv j).ended) :
    (s.recv j).ended ∨ P := by
  rw [recv_set] at h
  split at h
  · exact .inr (hc h)
  · exact .inl h

/-- A call that has been given a value does not end without one. -/
theorem Inv.ended_give (h : Inv S Ok s) (hr : s.receivers = i :: rest)
    (hj : ((s.give i rest v).recv j).ended) : (s.recv j).ended := by
  obtain ⟨hpc, -, -⟩ := (h.wf i).queued (h.mem.mp (by simp [hr]))
  refine (ended_of_set ?_ hj).resolve_right id
  simp [hpc]

theorem Inv.ended_pushFrontCore (h : Inv S Ok s) (hj : ((pushFrontCore S s v).1.recv j).ended) :
    (s.recv j).ended := by
  unfold pushFrontCore at hj
  split at hj
  · rename_i hr
    split at hj
    · exact h.ended_give hr hj
    · exact hj
  · exact hj

/-- **A call ends empty-handed only if the channel has been closed and drained**, in this step's
first or last state or earlier. -/
theorem ended_of_act (L : Lawful S Ok) (h : Inv S Ok s) (ha : act S s e = some a)
    (hj : (a.next.recv j).ended) : (s.recv j).ended ∨ Drained S s ∨ Drained S a.next := by
  cases he : e.call with
  | some i =>
    by_cases hp : e.plain = true
    · have hown := act_own h ha hp he
      obtain rfl | hji := eq_or_ne j i
      · exact (hown.after.ended hj).imp_right .inl
      · rw [hown.frame hji] at hj
        exact .inl hj
    · cases e with
      | putBack =>
        simp only [act] at ha
        split at ha <;> cases ha
        next v hpc =>
          have hset := (h.set_destroyed hpc).ended_pushFrontCore hj
          exact ended_of_set (by simp) hset
      | pushFront => cases he
      | _ => exact absurd rfl hp
  | none =>
    cases e with
    | pushFront =>
      obtain rfl := some.inj ha
      exact .inl (h.ended_pushFrontCore hj)
    | close =>
      obtain rfl := some.inj ha
      dsimp only [close] at hj ⊢
      split_ifs at hj with hopen
      · exact .inl hj
      · by_cases hm : j ∈ s.receivers
        · -- whoever is parked when the channel closes has nothing left to wait for
          obtain ⟨-, -, hcl, htake⟩ := L.close h.ok (by simpa using hopen)
          have hempty := (h.waiting (List.ne_nil_of_mem hm)).1
          rw [if_neg hopen]
          exact .inr (.inr ⟨hcl, htake hempty⟩)
        · dsimp only at hj
          rw [if_neg hm] at hj
          exact .inl hj
    | send =>
      obtain ⟨d, hd, rfl⟩ := map_eq_some_iff.mp ha
      unfold deal at hj
      split at hj
      · rename_i v i rest _ hr
        obtain ⟨hpc, -, -⟩ := (h.wf i).queued (h.mem.mp (by simp [hr]))
        exact ended_of_set (by simp [hpc]) hj
      · exact .inl hj
    | _ => cases he

theorem Inv.held_pushFrontCore (h : Inv S Ok s) (hj : (s.recv j).held = some v) (x : α) :
    ((pushFrontCore S s x).1.recv j).held = some v := by
  unfold pushFrontCore
  split
  · rename_i i rest hr
    split
    · have hji : j ≠ i := fun hji => by simp [hji, h.held_first hr] at hj
      change ((s.set i _).recv j).held = some v
      rw [recv_set, if_neg hji, hj]
    · exact hj
  · exact hj

/-- What a call holds, it keeps until its destructor has put it back. -/
theorem held_or_destroyed (L : Lawful S Ok) (h : Inv S Ok s) (ha : act S s e = some a)
    (hj : (s.recv j).held = some v) :
    (a.next.recv j).held = some v ∨ (a.next.recv j).pc = .destroyed := by
  by_cases hp : e.plain = true
  · exact .inl ((act_fed L h hp ha).feed.kept hj)
  · cases e with
    | pushFront x =>
      obtain rfl := some.inj ha
      exact .inl (h.held_pushFrontCore hj x)
    | putBack i =>
      simp only [act] at ha
      split at ha <;> cases ha
      next x hpc =>
        have hset := h.set_destroyed hpc
        obtain rfl | hji := eq_or_ne j i
        · have hd : ((s.set j { s.recv j with pc := .destroyed }).recv j).pc = .destroyed := by
            simp [recv_set]
          have hq := (hset.wf j).queued_eq (by rw [hd]; simp)
          exact .inr ((hset.recv_pushFrontCore x hq).symm ▸ hd)
        · refine .inl (hset.held_pushFrontCore ?_ x)
          rw [recv_set, if_neg hji, hj]
    | _ => exact absurd rfl hp

/-- A hand-over does not move the receiver's control point. -/
theorem pc_give (s : State σ ι α) (i j : ι) (rest : List ι) (x : α) :
    ((s.give i rest x).recv j).pc = (s.recv j).pc := by
  change ((s.set i _).recv j).pc = (s.recv j).pc
  rw [recv_set]
  split_ifs with hji
  · rw [hji]
  · rfl

theorem pc_pushFrontCore (s : State σ ι α) (j : ι) (x : α) :
    ((pushFrontCore S s x).1.recv j).pc = (s.recv j).pc := by
  unfold pushFrontCore
  split
  · split
    · exact pc_give s _ j _ x
    · rfl
  · rfl

/-- Only a destructor has a value in its hands. -/
theorem putBack_of_putBack (h : Inv S Ok s) (ha : act S s e = some a) (hd : ∀ i, e ≠ .destroy i)
    (hj : (a.next.recv j).pc = .putBack v) : (s.recv j).pc = .putBack v := by
  cases he : e.call with
  | some i =>
    by_cases hp : e.plain = true
    · have hown := act_own h ha hp he
      obtain rfl | hji := eq_or_ne j i
      · exact absurd (hown.after.putBack hj) (hd j)
      · rw [hown.frame hji] at hj
        exact hj
    · cases e with
      | putBack =>
        simp only [act] at ha
        split at ha <;> cases ha
        rw [pc_pushFrontCore, recv_set] at hj
        split at hj
        · cases hj
        · exact hj
      | pushFront => cases he
      | _ => exact absurd rfl hp
  | none =>
    cases e with
    | pushFront =>
      obtain rfl := some.inj ha
      rw [pc_pushFrontCore] at hj
      exact hj
    | close =>
      obtain rfl := some.inj ha
      dsimp only [close] at hj
      split at hj
      · exact hj
      · dsimp only at hj
        split at hj <;> exact hj
    | send =>
      obtain ⟨d, hd, rfl⟩ := map_eq_some_iff.mp ha
      unfold deal at hj
      split at hj
      · exact (pc_give { s with stock := d.stock } _ j _ _).symm.trans hj
      · exact hj
    | _ => cases he

end Manwe.Mailbox
