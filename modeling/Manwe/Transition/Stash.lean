import Mathlib

/-!
# Values between a queue and those who take them

A `Stash` is the abstract state of anything that passes values on: a queue of values that have
been **accepted** and not taken, and for each taker the value it holds, if any. A step either
feeds the stash — new values join the queue at the end, the one at the front may go to a taker —
or sends a value the other way: a new value is put in front, or a taker hands its value back, to
the front of the queue or straight to another taker.

Two things are kept. `Feed.fifo`: as long as nothing goes backwards, what has been taken followed
by what is queued is what has been accepted, in order. `Move.accounts`: whatever happens, distinct
accepted values are each in exactly one place.
-/

namespace Manwe

open Function List

variable {ι α : Type*}

/-- A queue of accepted values, and what each taker holds. -/
structure Stash (ι : Type*) (α : Type*) where
  buffer : List α
  held : ι → Option α

namespace Stash

section Moves

variable [DecidableEq ι]

/-- **Feeding**: `xs` is accepted and joins the queue; the front of the queue may be taken. -/
inductive Feed (b : Stash ι α) : List α → List (ι × α) → Stash ι α → Prop
  | append (xs : List α) : Feed b xs [] ⟨b.buffer ++ xs, b.held⟩
  | take {i : ι} {v : α} {rest xs : List α} : b.held i = none → b.buffer ++ xs = v :: rest →
      Feed b xs [(i, v)] ⟨rest, update b.held i (some v)⟩

/-- **All moves**: `Move b xs fs ts b'` accepts `xs` at the end and `fs` at the front, and `ts`
are taken. -/
inductive Move (b : Stash ι α) : List α → List α → List (ι × α) → Stash ι α → Prop
  | feed {xs : List α} {ts : List (ι × α)} {b' : Stash ι α} : Feed b xs ts b' → Move b xs [] ts b'
  | front (v : α) : Move b [] [v] [] ⟨v :: b.buffer, b.held⟩
  | frontTo {i : ι} {v : α} : b.held i = none → b.buffer = [] →
      Move b [] [v] [(i, v)] ⟨[], update b.held i (some v)⟩
  | putBack {j : ι} {v : α} : b.held j = some v →
      Move b [] [] [] ⟨v :: b.buffer, update b.held j none⟩
  | pass {j i : ι} {v : α} : b.held j = some v → b.held i = none → Move b [] [] [(i, v)]
        ⟨b.buffer, update (update b.held j none) i (some v)⟩

/-- Nothing moves. -/
theorem Feed.idle (b : Stash ι α) : Feed b [] [] b := by
  have h := Feed.append (b := b) []
  rw [append_nil] at h
  exact h

variable {b' : Stash ι α} {xs : List α} {ts : List (ι × α)}

variable {b : Stash ι α} {j : ι}

variable (h : Feed b xs ts b')

include h

/-- **First in, first out.** -/
theorem Feed.fifo {H A : List α} (hA : H ++ b.buffer = A) :
    (H ++ ts.map Prod.snd) ++ b'.buffer = A ++ xs := by
  subst hA
  cases h with
  | append => simp
  | @take i v rest xs _ hv =>
    rw [append_assoc H b.buffer xs, hv]
    simp

/-- If nobody's hands change, the queue grows. -/
theorem Feed.still (hsame : ∀ k, b'.held k = b.held k) : b'.buffer = b.buffer ++ xs := by
  cases h with
  | append => rfl
  | @take i v rest xs hi =>
    have hv' := hsame i
    simp only [update_self] at hv'
    rw [hi] at hv'
    cases hv'

/-- **One taker.** If only `j` may take, what it holds and the queue are one queue. -/
theorem Feed.one_taker (hsame : ∀ k, k ≠ j → b'.held k = b.held k) :
    (b.held j).toList ++ b.buffer ++ xs = (b'.held j).toList ++ b'.buffer := by
  cases h with
  | append => simp
  | @take i v rest xs hi hv =>
    have hij : i = j := by
      by_contra hij
      have hv' := hsame i hij
      simp only [update_self] at hv'
      rw [hi] at hv'
      cases hv'
    subst hij
    rw [append_assoc, hv, hi]
    simp

/-- Nobody loses what it holds to a feed. -/
theorem Feed.kept {v : α} (hj : b.held j = some v) : b'.held j = some v := by
  cases h with
  | append => exact hj
  | @take i _ _ _ hi _ =>
    have hji : j ≠ i := fun hji => by simp [hji, hi] at hj
    exact (update_of_ne hji _ _).trans hj

omit h

/-- Whoever takes a value holds it. -/
theorem Move.taken {fs : List α} (h : Move b xs fs ts b') {p : ι × α} (hp : p ∈ ts) :
    b'.held p.1 = some p.2 := by
  cases h with
  | feed hf =>
    cases hf with
    | append => simp at hp
    | take => simp [mem_singleton.mp hp]
  | front | putBack => simp at hp
  | frontTo | pass => simp [mem_singleton.mp hp]

end Moves

/-- The values of `A` are each in one place, and nothing else is anywhere. -/
structure Accounts (A : List α) (b : Stash ι α) : Prop where
  nodup : b.buffer.Nodup
  notQueued : ∀ {i v}, b.held i = some v → v ∉ b.buffer
  one : ∀ {i j v}, b.held i = some v → b.held j = some v → i = j
  mem : ∀ {v}, v ∈ A ↔ v ∈ b.buffer ∨ ∃ i, b.held i = some v

namespace Accounts

variable {A : List α} {b : Stash ι α}

theorem empty : Accounts [] (⟨[], fun _ => none⟩ : Stash ι α) :=
  ⟨nodup_nil, by simp, by simp, by simp⟩

/-- New values join the queue, in any position. -/
theorem join (h : Accounts A b) {xs l : List α} (hnew : (A ++ xs).Nodup)
    (hl : l.Perm (b.buffer ++ xs)) : Accounts (A ++ xs) ⟨l, b.held⟩ := by
  have hxs := nodup_append.mp hnew
  have hout : ∀ v ∈ xs, ¬ (v ∈ b.buffer ∨ ∃ i, b.held i = some v) := fun v hv hin =>
    hxs.2.2 v (h.mem.mpr hin) v hv rfl
  refine ⟨hl.nodup_iff.mpr (nodup_append.mpr ⟨h.nodup, hxs.2.1, ?_⟩), fun {i v} hi => ?_,
    h.one, fun {v} => ?_⟩
  · rintro v hv w hw rfl
    exact hout v hw (.inl hv)
  · rw [hl.mem_iff, mem_append]
    rintro (hv | hv)
    · exact h.notQueued hi hv
    · exact hout v hv (.inr ⟨i, hi⟩)
  · rw [mem_append, h.mem, hl.mem_iff, mem_append]
    tauto

variable [DecidableEq ι]

/-- A queued value is taken. -/
theorem give {v : α} {rest : List α} {held : ι → Option α} {i : ι}
    (h : Accounts A ⟨v :: rest, held⟩) (hi : held i = none) :
    Accounts A ⟨rest, update held i (some v)⟩ := by
  have hv := nodup_cons.mp h.nodup
  have hheld : ∀ {j w}, update held i (some v) j = some w →
      (j = i ∧ w = v) ∨ (w ≠ v ∧ held j = some w) := by
    intro j w hj
    obtain rfl | hji := eq_or_ne j i
    · simp only [update_self, Option.some.injEq] at hj
      exact .inl ⟨rfl, hj.symm⟩
    · rw [update_of_ne hji] at hj
      exact .inr ⟨fun hwv => h.notQueued hj (by simp [hwv]), hj⟩
  refine ⟨hv.2, fun {j w} hj => ?_, fun {j k w} hj hk => ?_, fun {w} => ?_⟩
  · rcases hheld hj with ⟨-, rfl⟩ | ⟨-, hj⟩
    · exact hv.1
    · exact fun hw => h.notQueued hj (mem_cons_of_mem _ hw)
  · rcases hheld hj with ⟨rfl, rfl⟩ | ⟨hwv, hj⟩
    · rcases hheld hk with ⟨rfl, -⟩ | ⟨hwv, -⟩
      · rfl
      · exact absurd rfl hwv
    · rcases hheld hk with ⟨-, rfl⟩ | ⟨-, hk⟩
      · exact absurd rfl hwv
      · exact h.one hj hk
  · rw [h.mem, mem_cons]
    constructor
    · rintro ((rfl | hw) | ⟨j, hj⟩)
      · exact .inr ⟨i, by simp⟩
      · exact .inl hw
      · have hji : j ≠ i := fun hji => by simp [hji, hi] at hj
        exact .inr ⟨j, (update_of_ne hji _ _).trans hj⟩
    · rintro (hw | ⟨j, hj⟩)
      · exact .inl (.inr hw)
      · exact (hheld hj).elim (fun h => .inl (.inl h.2)) fun h => .inr ⟨j, h.2⟩

/-- A taken value is handed back. -/
theorem ungive (h : Accounts A b) {j : ι} {v : α} (hj : b.held j = some v) :
    Accounts A ⟨v :: b.buffer, update b.held j none⟩ := by
  have hother : ∀ {k w}, update b.held j none k = some w → k ≠ j ∧ b.held k = some w := by
    intro k w hk
    by_cases hkj : k = j
    · simp [hkj] at hk
    · exact ⟨hkj, by simpa [hkj] using hk⟩
  refine ⟨nodup_cons.mpr ⟨h.notQueued hj, h.nodup⟩, fun {k w} hk => ?_,
    fun {k l w} hk hl => h.one (hother hk).2 (hother hl).2, fun {w} => ?_⟩
  · obtain ⟨hkj, hk⟩ := hother hk
    simp only [mem_cons, not_or]
    exact ⟨fun hwv => hkj (h.one (hwv ▸ hk) hj), h.notQueued hk⟩
  · rw [h.mem, mem_cons]
    constructor
    · rintro (hw | ⟨k, hk⟩)
      · exact .inl (.inr hw)
      · obtain rfl | hkj := eq_or_ne k j
        · exact .inl (.inl (Option.some.inj (hk.symm.trans hj)))
        · exact .inr ⟨k, by simpa [hkj] using hk⟩
    · rintro ((rfl | hw) | ⟨k, hk⟩)
      · exact .inr ⟨j, hj⟩
      · exact .inl hw
      · exact .inr ⟨k, (hother hk).2⟩

end Accounts

/-- **Conservation.** Every move keeps the accounts. -/
theorem Move.accounts [DecidableEq ι] {b b' : Stash ι α} {xs fs A : List α} {ts : List (ι × α)}
    (hm : Move b xs fs ts b') (hnew : (A ++ (xs ++ fs)).Nodup) (h : Accounts A b) :
    Accounts (A ++ (xs ++ fs)) b' := by
  cases hm with
  | feed hf =>
    rw [append_nil] at hnew ⊢
    have hjoin := h.join hnew (Perm.refl _)
    cases hf with
    | append => exact hjoin
    | take hi hv =>
      rw [hv] at hjoin
      exact hjoin.give hi
  | front v => exact h.join hnew (perm_append_singleton v b.buffer).symm
  | @frontTo i v hi hb =>
    have hjoin := h.join hnew (Perm.refl _)
    rw [hb] at hjoin
    exact hjoin.give hi
  | putBack hj => simpa using h.ungive hj
  | @pass j i v hj hi =>
    rw [append_nil, append_nil]
    refine (h.ungive hj).give ?_
    rw [update_of_ne (fun hij => by simp [hij, hj] at hi), hi]

end Stash

end Manwe
