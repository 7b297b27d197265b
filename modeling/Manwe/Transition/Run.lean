import Mathlib

/-!
# Runs of a labelled step function

A component is given by a **partial step function** `step : σ → ε → Option σ`: an event either
is not enabled (`none`) or leads to exactly one next state. All nondeterminism — which party
moves, what the environment answers — sits in the event, so a step function can be evaluated
and a schedule is a list of events.

`Run step s₀ tr s` is the inductive notion of a run: it keeps the **history** `tr`, the list of
pairs (state before the step, event), oldest first. Properties of single steps are quantified
over the history (`∀ p ∈ tr, …`), and anything a run leaves behind — the values handed out, the
descriptors closed — is read off the history by `logOf`, so the state types carry no bookkeeping
of their own.

Facts that mention the history are proved by induction on the run. `Run.invariant` is the usual
rule for a predicate of the state, under a condition every step of the run is known to meet, and
`Run.forall_steps` its form for facts about single steps. `exec` runs a schedule, and `Run.of_exec`
turns an evaluated schedule into a run, which is how concrete runs are exhibited; `exists_of_exec`
does so for long schedules, of which only decidable facts are wanted.
-/

namespace Manwe

open List Function Option

/-- Schedules number a few parties. -/
instance neZero_three : NeZero 3 := ⟨by decide⟩

instance neZero_four : NeZero 4 := ⟨by decide⟩

variable {σ ε β : Type*}

section Update

variable {ι α : Type*} [DecidableEq ι] {f : ι → α} {i j : ι} {x y : α}

/-- One party has moved. Is it this one? -/
theorem of_update (h : update f j x i = y) : i = j ∧ x = y ∨ i ≠ j ∧ f i = y := by
  rw [update_apply] at h
  split at h
  · exact .inl ⟨‹_›, h⟩
  · exact .inr ⟨‹_›, h⟩

/-- What holds of the party that has moved, and of the others. -/
theorem update_rec {p : α → Prop} (hj : i = j → p x) (hi : i ≠ j → p (f i)) :
    p (update f j x i) := by
  rw [update_apply]
  split
  · exact hj ‹_›
  · exact hi ‹_›

/-- An observation that does not notice a party's step from `y` to `x`. -/
theorem update_alike {g : α → β} (hj : f j = y) (h : g x = g y) (k : ι) :
    g (update f j x k) = g (f k) := by
  rw [apply_update fun _ => g, h, ← hj, update_eq_self]

end Update

/-- **Runs with history**: `Run step s₀ tr s` says that the events of `tr`, each paired with
the state it was taken in, lead from `s₀` to `s`. -/
inductive Run (step : σ → ε → Option σ) (s₀ : σ) : List (σ × ε) → σ → Prop
  | start : Run step s₀ [] s₀
  | next {tr : List (σ × ε)} {s t : σ} {e : ε} :
      Run step s₀ tr s → step s e = some t → Run step s₀ (tr ++ [(s, e)]) t

/-- A step behind a guard: the guard held. -/
theorem of_guard {α : Type*} {p : Prop} [Decidable p] {a b : α}
    (h : (if p then some a else none) = some b) : p ∧ a = b := by
  simpa [ite_none_right_eq_some] using h

/-- What a run leaves behind when each step contributes `obs s e`, in order. -/
def logOf (obs : σ → ε → List β) (tr : List (σ × ε)) : List β := tr.flatMap fun p => obs p.1 p.2

variable (obs : σ → ε → List β)

include obs

@[simp] theorem logOf_nil : logOf obs [] = [] := rfl

@[simp] theorem logOf_snoc (tr : List (σ × ε)) (s : σ) (e : ε) :
    logOf obs (tr ++ [(s, e)]) = logOf obs tr ++ obs s e := by
  simp [logOf]

variable {tr : List (σ × ε)}

/-- Of a part of a run, part of the log is left. -/
theorem logOf_mono {tr' : List (σ × ε)} (h : tr'.IsPrefix tr) :
    (logOf obs tr').IsPrefix (logOf obs tr) := by
  obtain ⟨l, rfl⟩ := h
  exact ⟨logOf obs l, by simp [logOf]⟩

theorem logOf_map {γ : Type*} (f : β → γ) (tr : List (σ × ε)) :
    logOf (fun s e => (obs s e).map f) tr = (logOf obs tr).map f := by
  simp only [logOf, map_flatMap]

omit obs

/-- Two observations in one log are, up to order, two logs. -/
theorem logOf_append (f g : σ → ε → List β) (tr : List (σ × ε)) :
    (logOf (fun s e => f s e ++ g s e) tr).Perm (logOf f tr ++ logOf g tr) := by
  induction tr with
  | nil => exact Perm.refl _
  | cons p tr ih =>
    simp only [logOf, flatMap_cons] at ih ⊢
    refine (ih.append_left _).trans ?_
    simp only [append_assoc]
    exact (perm_append_comm_assoc _ _ _).append_left _

/-- The run `tr`, which has led to `s`, passes through `t`. -/
def Visits (tr : List (σ × ε)) (s t : σ) : Prop := t = s ∨ ∃ e, (t, e) ∈ tr

variable {s : σ}

theorem Visits.snoc {s' t : σ} {e : ε} (h : Visits tr s t) : Visits (tr ++ [(s, e)]) s' t := by
  rcases h with rfl | ⟨e', h⟩
  · exact .inr ⟨e, by simp⟩
  · exact .inr ⟨e', mem_append_left _ h⟩

namespace Run

variable {step : σ → ε → Option σ} {s₀ s : σ} {tr : List (σ × ε)}

variable {p : σ × ε} {I : σ → Prop} {tr₁ tr₂ : List (σ × ε)}

variable (ok : σ → ε → Prop) (h : Run step s₀ tr s) (hok : ∀ p ∈ tr, ok p.1 p.2)

include ok h hok

/-- **Induction along a run** whose steps all meet `ok`. -/
@[elab_as_elim]
theorem induct {P : List (σ × ε) → σ → Prop} (start : P [] s₀)
    (next : ∀ {tr s e t}, Run step s₀ tr s → (∀ p ∈ tr, ok p.1 p.2) → P tr s → ok s e →
      step s e = some t → P (tr ++ [(s, e)]) t) : P tr s := by
  induction h with
  | start => exact start
  | @next tr s t e hr hs ih =>
    have hok' := fun p hp => hok p (mem_append_left _ hp)
    exact next hr hok' (ih hok') (hok (s, e) (by simp)) hs

/-- **Invariants.** A predicate of the state that holds at the start and is kept by every step
meeting `ok` holds wherever a run of such steps leads. -/
theorem invariant (start : I s₀) (next : ∀ {s e t}, I s → ok s e → step s e = some t → I t) : I s :=
  h.induct ok hok start fun _ _ => next

omit ok h hok

/-- The state before any step of a run is reached by the part of the run up to there. -/
theorem before (h : Run step s₀ tr s) (hp : p ∈ tr) :
    ∃ tr' t, Run step s₀ tr' p.1 ∧ step p.1 p.2 = some t ∧ tr'.IsPrefix tr := by
  induction h with
  | start => simp at hp
  | next hr hs ih =>
    rcases mem_append.mp hp with hp | hp
    · obtain ⟨tr', t, h1, h2, h3⟩ := ih hp
      exact ⟨tr', t, h1, h2, h3.trans (prefix_append _ _)⟩
    · rw [mem_singleton] at hp
      subst hp
      exact ⟨_, _, hr, hs, prefix_append _ _⟩

/-- A run cut before one of its steps. -/
theorem cut (h : Run step s₀ (tr₁ ++ p :: tr₂) s) : Run step s₀ tr₁ p.1 := by
  generalize htr : tr₁ ++ p :: tr₂ = tr at h
  induction h generalizing tr₂ with
  | start => simp at htr
  | @next tr s t e hr _ ih =>
    rcases eq_nil_or_concat tr₂ with rfl | ⟨tr₂, q, rfl⟩
    · obtain ⟨rfl, hp⟩ := append_inj' htr rfl
      obtain rfl := singleton_inj.mp hp
      exact hr
    · rw [concat_eq_append, ← cons_append, ← append_assoc] at htr
      exact ih (append_inj' htr rfl).1

/-- Every step of a run was enabled. -/
theorem enabled (h : Run step s₀ (tr₁ ++ p :: tr₂) s) : ∃ t, step p.1 p.2 = some t := by
  obtain ⟨-, t, -, ht, -⟩ := h.before (p := p) (by simp)
  exact ⟨t, ht⟩

/-- A step property that follows from an invariant holds at every step of the run. -/
theorem forall_steps {Q : σ → ε → Prop} (ok : σ → ε → Prop) (h : Run step s₀ tr s)
    (hok : ∀ p ∈ tr, ok p.1 p.2) (start : I s₀)
    (next : ∀ {s e t}, I s → ok s e → step s e = some t → I t)
    (hQ : ∀ {s e t}, I s → ok s e → step s e = some t → Q s e) : ∀ p ∈ tr, Q p.1 p.2 := by
  intro p hp
  obtain ⟨tr', t, hr, hs, hpre⟩ := h.before hp
  exact hQ (hr.invariant ok (fun q hq => hok q (hpre.subset hq)) start next) (hok p hp) hs

end Run

/-- Run a schedule, keeping the history; `none` as soon as an event is not enabled. -/
def exec (step : σ → ε → Option σ) : σ → List ε → Option (List (σ × ε) × σ)
  | s, [] => some ([], s)
  | s, e :: es =>
    match step s e with
    | none => none
    | some t => (exec step t es).map fun r => ((s, e) :: r.1, r.2)

variable {step : σ → ε → Option σ}

/-- Prepending a first step to a run. -/
theorem Run.cons {t u : σ} {e : ε} (hs : step s e = some t)
    (h : Run step t tr u) : Run step s ((s, e) :: tr) u := by
  induction h with
  | start => exact .next .start hs
  | next _ hs' ih => exact Run.next ih hs'

/-- An evaluated schedule is a run. -/
theorem Run.of_exec {es : List ε} {r : List (σ × ε) × σ} (h : exec step s es = some r) :
    Run step s r.1 r.2 := by
  induction es generalizing s r with
  | nil =>
    simp only [exec, some.injEq] at h
    subst h
    exact .start
  | cons e es ih =>
    simp only [exec] at h
    cases hs : step s e with
    | none => simp [hs] at h
    | some =>
      simp only [hs, map_eq_some_iff] at h
      obtain ⟨q, hq, rfl⟩ := h
      exact .cons hs (ih hq)

/-- A schedule that can be followed to its end is a run. -/
theorem Run.follow {s₀ : σ} (es : List ε) (h : (exec step s₀ es).isSome = true) :
    Run step s₀ ((exec step s₀ es).get h).1 ((exec step s₀ es).get h).2 :=
  .of_exec (some_get h).symm

/-- A schedule whose outcome can be evaluated, without the states on the way being written out. -/
theorem Run.exists_of_exec {s₀ : σ} {P : List (σ × ε) → σ → Prop} [∀ tr s, Decidable (P tr s)]
    (es : List ε) (h : (exec step s₀ es).any (fun r => decide (P r.1 r.2)) = true) :
    ∃ tr s, Run step s₀ tr s ∧ P tr s := by
  cases hr : exec step s₀ es with
  | none => simp [hr] at h
  | some r =>
    rw [hr, any_some, decide_eq_true_eq] at h
    exact ⟨r.1, r.2, .of_exec hr, h⟩

end Manwe
