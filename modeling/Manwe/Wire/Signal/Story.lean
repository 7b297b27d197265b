import Manwe.Wire.Signal.History

/-!
# The story of a waiter

The flags of a waiter say what has happened to it. A value was stored by the first emission since it
parked, and a waiter that is marked cancelled or gone has a reason to be (`Excused`).
-/

namespace Manwe.Signal

open List

variable {η α χ : Type*}

/-- The `next()` is over. -/
def NextPc.ended : NextPc α → Bool
  | .completed _ | .destroyed => true
  | _ => false

/-- **What the flags of a waiter say about its history.** -/
structure Story (tr : List (State η α χ × Event η α χ)) (s : State η α χ) : Prop where
  fresh : ∀ j, (s.nexts j).pc = .idle ∨ (s.nexts j).pc = .arming →
    since j tr = none ∧ (s.nexts j).value = none ∧ (s.nexts j).cancelled = false ∧
      (s.nexts j).gone = false
  queued : ∀ j, (s.nexts j).queued = true → since j tr = some []
  live : ∀ j, (s.nexts j).queued = true → (s.nexts j).cancelled = false ∧ (s.nexts j).gone = false
  waking : ∀ {k m a list ws j}, s.emits k = .waking m a list ws → j ∈ ws → Got j tr a
  value : ∀ j a, (s.nexts j).value = some a → Got j tr a
  told : ∀ j, (s.nexts j).cancelled = true ∨ (s.nexts j).gone = true → Excused j tr
  thunk : ∀ j, (s.nexts j).took = true → (s.nexts j).cancelled = true
  orphan : ∀ j ∈ s.orphans, (s.nexts j).gone = true
  served : ∀ j, j ∈ s.pool ∨ (s.nexts j).pc = .resuming ∨ (∃ r, (s.nexts j).pc = .completed r) →
    (s.nexts j).cancelled = true ∨ (s.nexts j).gone = true ∨ (s.nexts j).value ≠ none
  waited : ∀ j, since j tr = some [] → (s.nexts j).queued = true ∨
    (s.nexts j).cancelled = true ∨ (s.nexts j).gone = true ∨ (s.nexts j).pc = .destroyed
  withdrawn : ∀ j, Withdrawn j tr → (s.nexts j).cancelled = true ∨ (s.nexts j).gone = true ∨
    (s.nexts j).pc = .destroyed
  completed : ∀ j r, (s.nexts j).pc = .completed r → r = (s.nexts j).awaitResume
  ends : ∀ j, (logOf (endsAt j) tr).length = (s.nexts j).pc.ended.toNat
  results : ∀ j r, some r ∈ logOf (endsAt j) tr → (s.nexts j).pc = .completed r

namespace Story

variable {tr : List (State η α χ × Event η α χ)} {s t : State η α χ} {e : Event η α χ}

theorem init : Story [] ({} : State η α χ) where
  fresh _ _ := ⟨rfl, rfl, rfl, rfl⟩
  queued _ := nofun
  live _ := nofun
  waking := nofun
  value _ _ := nofun
  told _ h := by rcases h with h | h <;> cases h
  thunk _ := nofun
  orphan _ := nofun
  served _ h := by rcases h with h | h | ⟨r, h⟩ <;> cases h
  waited _ := nofun
  withdrawn _ := fun ⟨_, _, _, h, _⟩ => by simp at h
  completed _ _ := nofun
  ends _ := rfl
  results _ _ := nofun

variable {k j : ℕ} {m : Mode} {a : α} {list : Option ℕ} {ws : List ℕ}

theorem at_of_waking (hk : s.emits k = .waking m a list (j :: ws)) : s.At (.emission k) j := by
  simp [hk, EmitPc.waiters]

/-- Somebody an emission has is suspended, or its frame is gone. -/
theorem pc_of_waking (hs : Seats s) (hk : s.emits k = .waking m a list (j :: ws)) :
    (s.nexts j).pc = .parked ∨ (s.nexts j).pc = .destroyed :=
  hs.away (.emission k) j (at_of_waking hk)

theorem pc_of_queued (hs : Seats s) (hq : (s.nexts j).queued = true) : (s.nexts j).pc = .parked :=
  hs.pending j ((hs.queued j).mp hq)

theorem fresh_step (h : Story tr s) (hs : Seats s) (hc : Change s e t)
    (hj : (t.nexts j).pc = .idle ∨ (t.nexts j).pc = .arming) :
    since j (tr ++ [(s, e)]) = none ∧ (t.nexts j).value = none ∧ (t.nexts j).cancelled = false ∧
      (t.nexts j).gone = false := by
  have hold (hp : parksAt j s e = []) (hpc : (s.nexts j).pc = .idle ∨ (s.nexts j).pc = .arming) :
      since j (tr ++ [(s, e)]) = none ∧ (s.nexts j).value = none ∧
        (s.nexts j).cancelled = false ∧ (s.nexts j).gone = false := by
    obtain ⟨h₁, h₂⟩ := h.fresh j hpc
    exact ⟨since_snoc_none h₁ hp, h₂⟩
  have hnot (hpc : (s.nexts j).pc = .parked ∨ (s.nexts j).pc = .destroyed) :
      ¬ ((s.nexts j).pc = .idle ∨ (s.nexts j).pc = .arming) := by
    rcases hpc with hpc | hpc <;> rw [hpc] <;> rintro (h | h) <;> cases h
  have ha := alters_of_change hc j
  generalize t.nexts j = n at ha hj
  cases ha with
  | same hp => exact hold hp hj
  | dequeued he | noted he | posted _ he => exact hold (by rw [he]; rfl) hj
  | arming hpc hp => exact hold hp hpc
  | cancelled hq => exact absurd hj (hnot (.inl (pc_of_queued hs hq)))
  | orphaned hq => exact absurd hj (hnot (.inl (hs.pending j hq)))
  | given _ hk | failed _ hk => exact absurd hj (hnot (pc_of_waking hs hk))
  | refused | late | parked | run | completed | destroyed => rcases hj with hj | hj <;> cases hj

/-- Nobody is in the pending list after an emission. -/
theorem emitsAt_of_queued (hc : Change s e t) (hs : Seats t) (hq : (t.nexts j).queued = true) :
    emitsAt s e = [] := by
  cases hc with
  | emit => cases (hs.queued j).mp hq
  | _ => rfl

variable (h : Story tr s)

include h

theorem queued_step (hc : Change s e t) (hst : Seats t) (hq : (t.nexts j).queued = true) :
    since j (tr ++ [(s, e)]) = some [] := by
  have he := emitsAt_of_queued hc hst hq
  have hold (hq : (s.nexts j).queued = true) : since j (tr ++ [(s, e)]) = some [] :=
    since_snoc_nil (h.queued j hq) he
  have hpark := pc_of_queued hst hq
  have ha := alters_of_change hc j
  generalize t.nexts j = n at ha hq hpark
  cases ha with
  | parked hpc hp =>
    rw [since_snoc, (h.fresh j hpc).1, hear]
    simp [hp]
  | dequeued | cancelled | orphaned => cases hq
  | destroyed => cases hpark
  | _ => exact hold hq

theorem live_step (hs : Seats s) (hc : Change s e t) (hst : Seats t)
    (hq : (t.nexts j).queued = true) :
    (t.nexts j).cancelled = false ∧ (t.nexts j).gone = false := by
  have hpark := pc_of_queued hst hq
  have ha := alters_of_change hc j
  generalize t.nexts j = n at ha hq hpark ⊢
  cases ha with
  | parked hpc => exact (h.fresh j hpc).2.2
  | given _ hk | failed _ hk =>
    -- a waiter that an emission has is not queued
    cases hs.one _ .pending j (at_of_waking hk) ((hs.queued j).mp hq)
  | dequeued | cancelled | orphaned => cases hq
  | refused | late | arming | run | completed | destroyed => cases hpark
  | same | noted | posted => exact h.live j hq

theorem waking_step (hs : Seats s) (hc : Change s e t) (hk : t.emits k = .waking m a list ws)
    (hj : j ∈ ws) : Got j (tr ++ [(s, e)]) a := by
  rcases waking_of_change hc hk hj with ⟨ws', hk, hj⟩ | ⟨rfl, hj⟩
  · exact (h.waking hk hj).snoc
  · refine ⟨[], ?_⟩
    rw [since_snoc, h.queued j ((hs.queued j).mpr hj)]
    rfl

theorem value_step (hc : Change s e t) (hv : (t.nexts j).value = some a) :
    Got j (tr ++ [(s, e)]) a := by
  have ha := alters_of_change hc j
  generalize t.nexts j = n at ha hv
  cases ha with
  | given _ hk =>
    cases hv
    exact (h.waking hk (mem_cons_self ..)).snoc
  | _ => exact (h.value j a hv).snoc

theorem told_step (hs : Seats s) (hc : Change s e t)
    (hj : (t.nexts j).cancelled = true ∨ (t.nexts j).gone = true) : Excused j (tr ++ [(s, e)]) := by
  have hold (hp : parksAt j s e = [])
      (hj : (s.nexts j).cancelled = true ∨ (s.nexts j).gone = true) : Excused j (tr ++ [(s, e)]) :=
    (h.told j hj).snoc hp
  -- the waiter is withdrawn now
  have hnow (hq : (s.nexts j).queued = true) (he : e = .cancel j ∨ e = .destroySignal) :
      Excused j (tr ++ [(s, e)]) :=
    .inr (.inl ⟨tr, (s, e), [], rfl, h.queued j hq, he⟩)
  -- it never parked
  have hnever (hpc : (s.nexts j).pc = .idle ∨ (s.nexts j).pc = .arming) (hp : parksAt j s e = []) :
      Excused j (tr ++ [(s, e)]) :=
    .inl (since_snoc_none (h.fresh j hpc).1 hp)
  have ha := alters_of_change hc j
  generalize t.nexts j = n at ha hj
  cases ha with
  | same hp => exact hold hp hj
  | refused hpc hp | late hpc hp | arming hpc hp => exact hnever hpc hp
  | parked hpc =>
    obtain ⟨-, -, hc', hg⟩ := h.fresh j hpc
    rcases hj with hj | hj
    · cases hc'.symm.trans hj
    · cases hg.symm.trans hj
  | cancelled hq he => exact hnow hq (.inl he)
  | orphaned hq he => exact hnow ((hs.queued j).mpr hq) (.inr he)
  | failed he hk => exact .inr (.inr ⟨(s, e), by simp, _, _, _, _, _, he, hk⟩)
  | dequeued he | noted he | posted _ he | given he _ | run _ _ he | completed _ he
  | destroyed _ he => exact hold (by rw [he]; rfl) hj

theorem thunk_step (hc : Change s e t) (hj : (t.nexts j).took = true) :
    (t.nexts j).cancelled = true := by
  have ha := alters_of_change hc j
  generalize t.nexts j = n at ha hj ⊢
  have hmono := ha.cancelled_mono
  cases ha with
  | cancelled => rfl
  | posted => cases hj
  | _ => exact hmono (h.thunk j hj)

theorem orphan_step (hc : Change s e t) (hj : j ∈ t.orphans) : (t.nexts j).gone = true := by
  rcases orphan_of_change hc hj with hj | ⟨rfl, hp⟩
  · exact (alters_of_change hc j).gone_mono (h.orphan j hj)
  · cases hc with
    | destroySignal => exact congrArg Next.gone (if_pos hp)

theorem served_step (hc : Change s e t)
    (hj : j ∈ t.pool ∨ (t.nexts j).pc = .resuming ∨ ∃ r, (t.nexts j).pc = .completed r) :
    (t.nexts j).cancelled = true ∨ (t.nexts j).gone = true ∨ (t.nexts j).value ≠ none := by
  have ha := alters_of_change hc j
  have hmono (hs : (s.nexts j).cancelled = true ∨ (s.nexts j).gone = true ∨
      (s.nexts j).value ≠ none) : (t.nexts j).cancelled = true ∨ (t.nexts j).gone = true ∨
      (t.nexts j).value ≠ none :=
    hs.imp ha.cancelled_mono (.imp ha.gone_mono ha.value_mono)
  rcases hj with hj | hj
  · rcases pool_of_change hc hj with hj | ⟨k, ok, m, a, list, ws, rfl, hk⟩ | ⟨-, hj⟩ | ⟨-, hj⟩
    · exact hmono (h.served j (.inl hj))
    · cases hc with
      | wake hk' =>
        cases hk.symm.trans hk'
        cases ok <;> simp [State.hand, State.putNext]
    · exact hmono (.inl (h.thunk j hj))
    · exact hmono (.inr (.inl (h.orphan j hj)))
  · have hold (hj : (s.nexts j).pc = .resuming ∨ ∃ r, (s.nexts j).pc = .completed r) :=
      hmono (h.served j (.inr hj))
    generalize t.nexts j = n at ha hj hold ⊢
    cases ha with
    | refused => exact .inl rfl
    | late => exact .inr (.inl rfl)
    | run hp => exact h.served j (.inl hp)
    | completed hpc => exact hold (.inl hpc)
    | arming | parked | destroyed => rcases hj with hj | ⟨r, hj⟩ <;> cases hj
    | _ => exact hold hj

theorem waited_step (hc : Change s e t) (hj : since j (tr ++ [(s, e)]) = some []) :
    (t.nexts j).queued = true ∨
      (t.nexts j).cancelled = true ∨ (t.nexts j).gone = true ∨ (t.nexts j).pc = .destroyed := by
  have ha := alters_of_change hc j
  rw [since_snoc] at hj
  cases hl : since j tr with
  | none =>
    rw [hl, hear] at hj
    have hp : parksAt j s e ≠ [] := by
      intro hp
      simp [hp] at hj
    generalize t.nexts j = n at ha ⊢
    cases ha with
    | parked => exact .inl rfl
    | same hp' | refused _ hp' | late _ hp' | arming _ hp' => exact absurd hp' hp
    | dequeued he | noted he | cancelled _ he | posted _ he | given he _ | failed he _
    | orphaned _ he | run _ _ he | completed _ he | destroyed _ he =>
      rw [he] at hp
      exact absurd rfl hp
  | some =>
    rw [hl, hear, Option.some.injEq, append_eq_nil_iff] at hj
    obtain ⟨rfl, he⟩ := hj
    have hmono := h.waited j hl
    rcases hmono with hq | hc' | hg | hd
    · generalize t.nexts j = n at ha ⊢
      cases ha with
      | dequeued he' =>
        rw [he'] at he
        cases he
      | cancelled => exact .inr (.inl rfl)
      | orphaned => exact .inr (.inr (.inl rfl))
      | destroyed => exact .inr (.inr (.inr rfl))
      | parked => exact .inl rfl
      | _ => exact .inl hq
    · exact .inr (.inl (ha.cancelled_mono hc'))
    · exact .inr (.inr (.inl (ha.gone_mono hg)))
    · exact .inr (.inr (.inr (ha.destroyed_mono hd)))

variable (hs : Seats s) (hc : Change s e t)

include hs hc

theorem withdrawn_step (hj : Withdrawn j (tr ++ [(s, e)])) : (t.nexts j).cancelled = true ∨
      (t.nexts j).gone = true ∨ (t.nexts j).pc = .destroyed := by
  have ha := alters_of_change hc j
  have hmono (hs : (s.nexts j).cancelled = true ∨ (s.nexts j).gone = true ∨
      (s.nexts j).pc = .destroyed) : (t.nexts j).cancelled = true ∨ (t.nexts j).gone = true ∨
      (t.nexts j).pc = .destroyed :=
    hs.imp ha.cancelled_mono (.imp ha.gone_mono ha.destroyed_mono)
  rcases hj.of_snoc with hj | ⟨hj, he⟩
  · exact hmono (h.withdrawn j hj)
  · rcases h.waited j hj with hq | hj
    · rcases he with rfl | rfl
      · cases hc with
        | cancel => simp [State.cancelThunk, hq, State.putNext]
      · cases hc with
        | destroySignal => exact .inr (.inl (congrArg Next.gone (if_pos ((hs.queued j).mp hq))))
    · exact hmono hj

variable {r : Option α}

theorem completed_step (hj : (t.nexts j).pc = .completed r) : r = (t.nexts j).awaitResume := by
  have ha := alters_of_change hc j
  generalize t.nexts j = n at ha hj ⊢
  cases ha with
  | same | dequeued | noted | posted => exact h.completed j r hj
  | completed =>
    cases hj
    rfl
  | cancelled hq => cases (pc_of_queued hs hq).symm.trans hj
  | orphaned hq => cases (hs.pending j hq).symm.trans hj
  | given _ hk | failed _ hk => rcases pc_of_waking hs hk with hp | hp <;> cases hp.symm.trans hj
  | refused | late | arming | parked | run | destroyed => cases hj

omit h

theorem ends_step (j : ℕ) :
    (t.nexts j).pc.ended.toNat = (s.nexts j).pc.ended.toNat + (endsAt j s e).length := by
  have ha := alters_of_change hc j
  have hno (hpc : (s.nexts j).pc = .idle ∨ (s.nexts j).pc = .arming) :
      (s.nexts j).pc.ended = false := by
    rcases hpc with hpc | hpc <;> rw [hpc] <;> rfl
  generalize t.nexts j = n at ha ⊢
  cases ha with
  | same _ he => rw [he]; rfl
  | refused hpc _ he | late hpc _ he | arming hpc _ he | parked hpc _ he =>
    rw [he, hno hpc]
    rfl
  | dequeued he | noted he | cancelled _ he | posted _ he | given he _ | failed he _
  | orphaned _ he => rw [he]; rfl
  | run hm hpc he =>
    have hp := (hs.away .pool j hm).resolve_right hpc
    rw [he, hp]
    rfl
  | completed hpc he => simp [he, hpc, endsAt, NextPc.ended]
  | destroyed hpc he => simp [he, hpc, endsAt, NextPc.ended]

omit hs hc

theorem results_step (h : Story tr s) (hs : Seats s) (hc : Change s e t)
    (hj : some r ∈ logOf (endsAt j) (tr ++ [(s, e)])) : (t.nexts j).pc = .completed r := by
  have ha := alters_of_change hc j
  rw [logOf_snoc, mem_append] at hj
  rcases hj with hj | hj
  · have hpc := h.results j r hj
    generalize t.nexts j = n at ha ⊢
    cases ha with
    | refused hp | late hp | arming hp | parked hp =>
      rcases hp with hp | hp <;> cases hp.symm.trans hpc
    | run hm hd => cases ((hs.away .pool j hm).resolve_right hd).symm.trans hpc
    | completed hp | destroyed hp => cases hp.symm.trans hpc
    | _ => exact hpc
  · generalize t.nexts j = n at ha ⊢
    cases ha with
    | same _ he | refused _ _ he | late _ _ he | arming _ _ he | parked _ _ he =>
      rw [he] at hj
      cases hj
    | dequeued he | noted he | cancelled _ he | posted _ he | given he _ | failed he _
    | orphaned _ he | run _ _ he =>
      rw [he] at hj
      cases hj
    | completed hpc he =>
      simp only [he, endsAt, if_true, mem_singleton, Option.some.injEq] at hj
      rw [hj]
    | destroyed hpc he => simp [he, endsAt] at hj

theorem step (h : Story tr s) (hs : Seats s) (hc : Change s e t) : Story (tr ++ [(s, e)]) t where
  fresh _ := h.fresh_step hs hc
  queued _ := h.queued_step hc (hs.step hc)
  live _ := h.live_step hs hc (hs.step hc)
  waking := h.waking_step hs hc
  value _ _ := h.value_step hc
  told _ := h.told_step hs hc
  thunk _ := h.thunk_step hc
  orphan _ := h.orphan_step hc
  served _ := h.served_step hc
  waited _ := h.waited_step hc
  withdrawn _ := h.withdrawn_step hs hc
  completed _ _ := h.completed_step hs hc
  ends j := by rw [logOf_snoc, length_append, h.ends j, ends_step hs hc j]
  results _ _ := h.results_step hs hc

end Story

end Manwe.Signal
