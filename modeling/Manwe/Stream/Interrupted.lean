import Manwe.Stream.Reading

/-!
# Programs that may be interrupted

A program over a tape may be stopped from outside, at a moment it does not choose. `X s e` says
that the fault `e` may come out of the blue in the state `s`; it may only get less likely as the
tape moves (`Tape.Recedes`).

* `Tape.Takes X m l a`: where `l` is next on the tape, the program takes exactly `l` and returns
  `a`, **unless it is interrupted**.
* `Tape.Refuses X m l e`: it fails with `e` unless it is interrupted.

Without interruptions `Takes` is `Reads`.
-/

namespace Manwe.Tape

open List

variable {σ β ε α γ : Type} {T : Tape σ β} {X : σ → ε → Prop}
variable {m : EStateM ε σ α} {f : α → EStateM ε σ γ} {l l' : List β} {a : α} {b : γ} {e : ε}

/-- An interruption that is possible later was possible before. -/
def Recedes (T : Tape σ β) (X : σ → ε → Prop) : Prop := ∀ s s' l e, T.Moves s l s' → X s' e → X s e

/-- The program was interrupted on its way. -/
def Interrupted (T : Tape σ β) (X : σ → ε → Prop) (s : σ) (r : EStateM.Result ε σ α) : Prop :=
  ∃ e s' l, X s e ∧ r = .error e s' ∧ T.Moves s l s'

/-- The program takes exactly `l` and returns `a`, unless it is interrupted. -/
def Takes (T : Tape σ β) (X : σ → ε → Prop) (m : EStateM ε σ α) (l : List β) (a : α) : Prop :=
  ∀ s t, T.pending s = l ++ t →
    (∃ s', m.run s = .ok a s' ∧ T.Moves s l s') ∨ T.Interrupted X s (m.run s)

/-- The program fails with `e`, unless it is interrupted. -/
def Refuses (T : Tape σ β) (X : σ → ε → Prop) (m : EStateM ε σ α) (l : List β) (e : ε) : Prop :=
  ∀ s t, T.pending s = l ++ t →
    (∃ s' l', m.run s = .error e s' ∧ T.Moves s l' s') ∨ T.Interrupted X s (m.run s)

theorem Takes.pure : T.Takes X (Pure.pure a : EStateM ε σ α) [] a :=
  fun s _ _ => .inl ⟨s, rfl, T.moves_nil s⟩

theorem Refuses.throw : T.Refuses X (MonadExcept.throw e : EStateM ε σ α) [] e :=
  fun s _ _ => .inl ⟨s, [], rfl, T.moves_nil s⟩

/-- What comes after the point of failure does not matter. -/
theorem Refuses.append (h : T.Refuses X m l e) : T.Refuses X m (l ++ l') e := by
  intro s t hp
  rw [append_assoc] at hp
  exact h s (l' ++ t) hp

variable {s s' : σ} {t : List β}

theorem pending_of_moves (hp : T.pending s = l ++ t) (hm : T.Moves s l s') : T.pending s' = t := by
  rw [T.pending_eq hm] at hp
  exact append_cancel_left hp

/-- An interruption of the first part interrupts the sequence. -/
theorem Interrupted.bind (h : T.Interrupted X s (m.run s)) :
    T.Interrupted X s ((m >>= f).run s) := by
  obtain ⟨e, s', l, hx, hr, hm⟩ := h
  exact ⟨e, s', l, hx, run_bind_error.2 (.inl hr), hm⟩

variable (hX : T.Recedes X)

include hX

/-- An interruption of the second part interrupts the sequence. -/
theorem Interrupted.of_bind (hr : m.run s = .ok a s') (hm : T.Moves s l s')
    (h : T.Interrupted X s' ((f a).run s')) : T.Interrupted X s ((m >>= f).run s) := by
  obtain ⟨e, s'', l', hx, hr', hm'⟩ := h
  exact ⟨e, s'', l ++ l', hX s s' l e hm hx, by rw [run_bind_of_ok hr, hr'], T.moves_append hm hm'⟩

theorem Takes.bind (hm : T.Takes X m l a) (hf : T.Takes X (f a) l' b) :
    T.Takes X (m >>= f) (l ++ l') b := by
  intro s t hp
  rw [append_assoc] at hp
  rcases hm s (l' ++ t) hp with ⟨s', hr, hmv⟩ | hi
  · rcases hf s' t (pending_of_moves hp hmv) with ⟨s'', hr', hmv'⟩ | hi
    · exact .inl ⟨s'', by rw [run_bind_of_ok hr, hr'], T.moves_append hmv hmv'⟩
    · exact .inr (hi.of_bind hX hr hmv)
  · exact .inr hi.bind

/-- A run that has taken `l` and goes on as a program that takes `l'`. -/
theorem Takes.after (h : T.Takes X m l' a) (hp : T.pending s = l ++ l' ++ t) (hm : T.Moves s l s') :
    (∃ s'', m.run s' = .ok a s'' ∧ T.Moves s (l ++ l') s'') ∨ T.Interrupted X s (m.run s') := by
  rw [append_assoc] at hp
  rcases h s' t (pending_of_moves hp hm) with ⟨s'', hr', hm'⟩ | ⟨e, s'', l'', hx, hr', hm'⟩
  · exact .inl ⟨s'', hr', T.moves_append hm hm'⟩
  · exact .inr ⟨e, s'', l ++ l'', hX s s' l e hm hx, hr', T.moves_append hm hm'⟩

/-- A second part that takes nothing. -/
theorem Takes.bind_last (hm : T.Takes X m l a) (hf : T.Takes X (f a) [] b) :
    T.Takes X (m >>= f) l b := by
  have h := hm.bind hX hf
  rwa [append_nil] at h

theorem Takes.bind_refuses (hm : T.Takes X m l a) (hf : T.Refuses X (f a) l' e) :
    T.Refuses X (m >>= f) (l ++ l') e := by
  intro s t hp
  rw [append_assoc] at hp
  rcases hm s (l' ++ t) hp with ⟨s', hr, hmv⟩ | hi
  · rcases hf s' t (pending_of_moves hp hmv) with ⟨s'', l'', hr', hmv'⟩ | hi
    · exact .inl ⟨s'', l ++ l'', by rw [run_bind_of_ok hr, hr'], T.moves_append hmv hmv'⟩
    · exact .inr (hi.of_bind hX hr hmv)
  · exact .inr hi.bind

omit hX

theorem Refuses.bind (hm : T.Refuses X m l e) : T.Refuses X (m >>= f) l e := by
  intro s t hp
  rcases hm s t hp with ⟨s', l', hr, hmv⟩ | hi
  · exact .inl ⟨s', l', run_bind_error.2 (.inl hr), hmv⟩
  · exact .inr hi.bind

/-- Where nothing interrupts it, a program takes one thing only. -/
theorem Takes.unique {x y : List β} {a' : α} (hX : ∀ e, ¬ X s e) (h : T.Takes X m l a)
    (h' : T.Takes X m l' a') (hp : T.pending s = l ++ x) (hp' : T.pending s = l' ++ y) :
    a = a' ∧ x = y := by
  rcases h s x hp with ⟨s₁, hr, hm⟩ | ⟨e, _, _, hx, -⟩
  · rcases h' s y hp' with ⟨s₂, hr', hm'⟩ | ⟨e, _, _, hx, -⟩
    · cases hr.symm.trans hr'
      exact ⟨rfl, (pending_of_moves hp hm).symm.trans (pending_of_moves hp' hm')⟩
    · exact absurd hx (hX e)
  · exact absurd hx (hX e)

end Manwe.Tape
