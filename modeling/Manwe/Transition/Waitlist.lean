import Mathlib

/-!
# Resources with a first-come-first-served queue

Locks, semaphores and similar primitives share one discipline. A caller either takes the
resource at once or joins a queue; whoever gives the resource back, or leaves the queue without
having been served, lets the resource admit a **prefix of the queue**.

`Resource ρ ι` is such a discipline: the three locked sections, as functions of the resource's
own state and of the queue, with the promise that the last two only split the queue
(`fixup_split`, `giveBack_split`). `Books` is the abstract state — the resource, the queue and
the set of callers to whom the resource has been granted — and `Move` its labelled transition
relation, each move naming the callers that arrive and those that are admitted. A concrete
protocol is shown to make only such moves; invariants of the resource and the order of
admission (`QueueStep.fifo`) are then proved here, where nothing of the protocol is left.
-/

namespace Manwe

open List

variable {ρ ι : Type*}

/-- **What a step does to a FIFO queue**: somebody passes an empty queue, joins it at the end, or
the queue is served from the front and possibly left. -/
inductive QueueStep (q : List ι) : List ι → List ι → List ι → Prop
  | pass {i : ι} : q = [] → QueueStep q [i] [i] []
  | join (i : ι) : QueueStep q [i] [] (q ++ [i])
  | serve {adm q' : List ι} : (adm ++ q').Sublist q → QueueStep q [] adm q'

variable {A L q q' arr adm : List ι}

/-- **Order of admission.** Those admitted so far, followed by those who wait, keep the order of
arrival. -/
theorem QueueStep.fifo (hs : QueueStep q arr adm q') (h : (A ++ q).Sublist L) :
    ((A ++ adm) ++ q').Sublist (L ++ arr) := by
  cases hs with
  | @pass i hq =>
    rw [hq, append_nil] at h
    rw [append_nil]
    exact h.append (Sublist.refl [i])
  | join i =>
    rw [append_nil, ← append_assoc]
    exact h.append (Sublist.refl [i])
  | serve hq =>
    rw [append_assoc, append_nil]
    exact ((Sublist.refl A).append hq).trans h

/-- At most one arrives in a step, and is admitted or queued. -/
theorem QueueStep.arrival (hs : QueueStep q arr adm q') :
    arr = [] ∨ ∃ i, arr = [i] ∧ i ∈ adm ++ q' := by
  cases hs with
  | @pass i | join i => exact .inr ⟨i, rfl, by simp⟩
  | serve => exact .inl rfl

/-- A part of a list without repetition is what a filter for its elements leaves. -/
theorem eq_filter_of_sublist {P : ι → Bool} (h : A.Sublist L) (hL : L.Nodup)
    (hP : ∀ a ∈ L, P a = true ↔ a ∈ A) : L.filter P = A := by
  induction h with
  | slnil => rfl
  | @cons A L x h ih =>
    obtain ⟨hx, hL⟩ := nodup_cons.mp hL
    have hPx : ¬ P x = true := fun hp => hx (h.subset ((hP x (by simp)).mp hp))
    rw [filter_cons_of_neg hPx]
    exact ih hL fun a ha => hP a (mem_cons_of_mem _ ha)
  | @cons_cons A L x h ih =>
    obtain ⟨hx, hL⟩ := nodup_cons.mp hL
    rw [filter_cons_of_pos ((hP x (by simp)).mpr (by simp))]
    congr 1
    refine ih hL fun a ha => (hP a (mem_cons_of_mem _ ha)).trans ?_
    rw [mem_cons]
    exact ⟨fun hm => hm.resolve_left fun hax => hx (hax ▸ ha), .inr⟩

/-- In a queue that is served in order nobody but those who withdrew is passed over. -/
theorem filter_of_fifo [DecidableEq ι] {A W D L : List ι} (hsub : (A ++ W).Sublist L)
    (hperm : (A ++ W ++ D).Perm L) (hL : L.Nodup) :
    L.filter (fun i => decide (i ∉ D)) = A ++ W := by
  have hnd := nodup_append.mp (hperm.nodup_iff.mpr hL)
  refine eq_filter_of_sublist hsub hL fun i hi => ?_
  rw [decide_eq_true_eq]
  refine ⟨fun hd => ?_, fun hm hd => hnd.2.2 i hm i hd rfl⟩
  exact (mem_append.mp (hperm.mem_iff.mpr hi)).resolve_right hd

/-- What a locked section leaves behind: the resource, the waiters it admits (oldest first) and
those that stay queued. -/
structure Served (ρ : Type*) (ι : Type*) where
  res : ρ
  wake : List ι
  waiters : List ι

/-- **A first-come-first-served resource.** -/
structure Resource (ρ : Type*) (ι : Type*) where
  /-- take the resource at once, if it can be had -/
  tryNow : ι → ρ → List ι → Option ρ
  /-- a waiter has left the queue without having been served -/
  fixup : ρ → List ι → Served ρ ι
  /-- what was granted to a caller is given back -/
  giveBack : ι → ρ → List ι → Served ρ ι
  fixup_split : ∀ r ws, (fixup r ws).wake ++ (fixup r ws).waiters = ws
  giveBack_split : ∀ i r ws, (giveBack i r ws).wake ++ (giveBack i r ws).waiters = ws

/-- The abstract state: who waits, in order, and who has been granted the resource. -/
structure Books (ρ : Type*) (ι : Type*) where
  res : ρ
  waiters : List ι
  granted : Set ι

/-- Nobody waits twice, and nobody who waits has been granted the resource. -/
structure Books.Ok (b : Books ρ ι) : Prop where
  nodup : b.waiters.Nodup
  disjoint : ∀ {i}, i ∈ b.waiters → i ∉ b.granted

variable [DecidableEq ι]

/-- **Moves**: `Move R b arr adm b'` leads from `b` to `b'`, with `arr` arriving at the queue and
`adm` being admitted. -/
inductive Move (R : Resource ρ ι) (b : Books ρ ι) : List ι → List ι → Books ρ ι → Prop
  | idle : Move R b [] [] b
  | take {i : ι} {r : ρ} : i ∉ b.waiters → i ∉ b.granted → R.tryNow i b.res b.waiters = some r →
      Move R b [i] [i] { b with res := r, granted := insert i b.granted }
  | enqueue {i : ι} : i ∉ b.waiters → i ∉ b.granted → R.tryNow i b.res b.waiters = none →
      Move R b [i] [] { b with waiters := b.waiters ++ [i] }
  | withdraw {i : ι} {v : Served ρ ι} : i ∈ b.waiters → R.fixup b.res (b.waiters.erase i) = v →
      Move R b [] v.wake ⟨v.res, v.waiters, b.granted ∪ {j | j ∈ v.wake}⟩
  | giveBack {i : ι} {v : Served ρ ι} : i ∈ b.granted → R.giveBack i b.res b.waiters = v →
      Move R b [] v.wake ⟨v.res, v.waiters, (b.granted \ {i}) ∪ {j | j ∈ v.wake}⟩

namespace Move

variable {R : Resource ρ ι} {b b' : Books ρ ι} {arr adm : List ι}

variable (hm : Move R b arr adm b')

include hm

/-- At most one caller arrives in a move. -/
theorem arrives_eq : arr = [] ∨ ∃ i, arr = [i] := by
  cases hm <;> simp

/-- Whoever is granted the resource by a move is admitted by it. -/
theorem granted_of {j : ι} (hj : j ∈ b'.granted) : j ∈ b.granted ∨ j ∈ adm := by
  cases hm with
  | idle | enqueue => exact .inl hj
  | take =>
    rcases hj with rfl | hj
    · exact .inr (by simp)
    · exact .inl hj
  | withdraw => exact hj
  | giveBack => exact hj.imp And.left id

/-- A move serves the queue in order, if the resource is taken at once only over an empty one. -/
theorem queueStep (hnow : ∀ {i r}, R.tryNow i b.res b.waiters = some r → b.waiters = []) :
    QueueStep b.waiters arr adm b'.waiters := by
  cases hm with
  | idle => exact .serve (Sublist.refl _)
  | take _ _ ht =>
    have hempty := hnow ht
    rw [hempty]
    exact .pass rfl
  | enqueue => exact .join _
  | withdraw _ hv =>
    subst hv
    refine .serve ?_
    rw [R.fixup_split]
    exact erase_sublist
  | giveBack _ hv =>
    subst hv
    refine .serve ?_
    rw [R.giveBack_split]

end Move

omit [DecidableEq ι] in
/-- In an order without repetition nobody who is admitted came after somebody who still waits. -/
theorem not_overtaken {A W L : List ι} (h : (A ++ W).Sublist L) (hL : L.Nodup) {a w : ι}
    (ha : a ∈ A) (hw : w ∈ W) : ¬ [w, a].Sublist L := by
  have haw : [a, w].Sublist L :=
    ((singleton_sublist.mpr ha).append (singleton_sublist.mpr hw)).trans h
  clear h
  induction L with
  | nil => simp at haw
  | cons x L ih =>
    obtain ⟨hx, hL⟩ := nodup_cons.mp hL
    intro hwa
    cases haw with
    | cons _ haw =>
      cases hwa with
      | cons _ hwa => exact ih hL haw hwa
      | cons_cons => exact hx (haw.subset (by simp))
    | cons_cons _ hw' =>
      cases hwa with
      | cons _ hwa => exact hx (hwa.subset (by simp))
      | cons_cons => exact hx (hw'.subset (by simp))

end Manwe
