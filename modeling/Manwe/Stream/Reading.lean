import Mathlib

/-!
# Programs that read a tape

A parser that takes its input piece by piece is a program over a state with a **tape**: the symbols
still to come, and a relation `Moves s l s'` that says the symbols `l` were taken on the way from
`s` to `s'`. How the tape is delivered (in which portions, through which buffer) is a matter of the
state and does not show in `pending`.

Two properties of a program carry the proofs about parsers.

* `Tape.Reads P m l a`: from every state whose tape starts with `l` the program takes exactly `l`
  and returns `a`, **whatever follows**. It composes along `>>=`, so a serialiser is inverted part
  by part.
* `Tape.Local P G Q m`: every result `a` with `G a` was read off the symbols the program took, and
  off nothing else: the program `Reads` them. This is the converse direction, from a run to the
  part of the input that decided it; `Q` ties the result to those symbols.

`P` is an assumption on the state that moves keep (`Tape.Stable`).
-/

namespace Manwe

open MonadExcept

/-- A state with a tape. -/
structure Tape (σ β : Type) where
  /-- What is still to be read. -/
  pending : σ → List β
  /-- The symbols `l` were taken on the way from `s` to `s'`. -/
  Moves : σ → List β → σ → Prop
  moves_nil : ∀ s, Moves s [] s
  moves_append : ∀ {s s' s'' l l'}, Moves s l s' → Moves s' l' s'' → Moves s (l ++ l') s''
  pending_eq : ∀ {s s' l}, Moves s l s' → pending s = l ++ pending s'

namespace Tape

variable {σ β ε α γ : Type} {T : Tape σ β} {P : σ → Prop}
variable {m : EStateM ε σ α} {f : α → EStateM ε σ γ} {l l' : List β} {a : α} {b : γ}

/-! ### Runs of a sequence -/

/-- A sequence returns if its first part does and then its second. -/
theorem run_bind_ok {s s'' : σ} :
    (m >>= f).run s = .ok b s'' ↔ ∃ a s', m.run s = .ok a s' ∧ (f a).run s' = .ok b s'' := by
  rw [EStateM.run_bind]
  cases hm : m.run s with
  | ok a s' =>
    refine ⟨fun h => ⟨a, s', rfl, h⟩, ?_⟩
    rintro ⟨a', t, ha, h⟩
    cases ha
    exact h
  | error => simp

/-- A sequence fails in its first part or in its second. -/
theorem run_bind_error {s s'' : σ} {e : ε} : (m >>= f).run s = .error e s'' ↔
    m.run s = .error e s'' ∨ ∃ a s', m.run s = .ok a s' ∧ (f a).run s' = .error e s'' := by
  rw [EStateM.run_bind]
  cases hm : m.run s with
  | ok a s' =>
    refine ⟨fun h => .inr ⟨a, s', rfl, h⟩, ?_⟩
    rintro (h | ⟨a', t, ha, h⟩)
    · cases h
    · cases ha
      exact h
  | error => simp

theorem run_bind_of_ok {s s' : σ} (h : m.run s = .ok a s') : (m >>= f).run s = (f a).run s' := by
  rw [EStateM.run_bind, h]

/-- A handler takes over where the program has stopped. -/
theorem run_catch {h : ε → EStateM ε σ α} (s : σ) : (tryCatch m h).run s = match m.run s with
    | .ok a s' => .ok a s'
    | .error e s' => (h e).run s' := by
  change EStateM.tryCatch m h s = _
  unfold EStateM.tryCatch EStateM.run
  cases m s <;> rfl

theorem run_ofExcept (x : Except ε α) (s : σ) : (ofExcept x : EStateM ε σ α).run s = match x with
      | .ok a => .ok a s
      | .error e => .error e s := by
  cases x <;> rfl

/-! ### Reading exactly `l` -/

/-- What moves keep. -/
def Stable (T : Tape σ β) (P : σ → Prop) : Prop := ∀ {s s' l}, T.Moves s l s' → P s → P s'

/-- The program takes exactly `l` and returns `a`, **whatever follows on the tape**. -/
def Reads (T : Tape σ β) (P : σ → Prop) (m : EStateM ε σ α) (l : List β) (a : α) : Prop :=
  ∀ s t, P s → T.pending s = l ++ t → ∃ s', m.run s = .ok a s' ∧ T.Moves s l s'

theorem Reads.pure : T.Reads P (Pure.pure a : EStateM ε σ α) [] a :=
  fun s _ _ _ => ⟨s, rfl, T.moves_nil s⟩

variable {x : Except ε α}

theorem Reads.ofExcept (h : x = .ok a) : T.Reads P (ofExcept x : EStateM ε σ α) [] a := by
  subst h
  exact .pure

theorem Reads.bind (hP : T.Stable P) (hm : T.Reads P m l a) (hf : T.Reads P (f a) l' b) :
    T.Reads P (m >>= f) (l ++ l') b := by
  intro s t hs hp
  rw [List.append_assoc] at hp
  obtain ⟨s', hr, hmv⟩ := hm s (l' ++ t) hs hp
  have hp' : T.pending s' = l' ++ t := by
    rw [T.pending_eq hmv] at hp
    exact List.append_cancel_left hp
  obtain ⟨s'', hr', hmv'⟩ := hf s' t (hP hmv hs) hp'
  exact ⟨s'', by rw [run_bind_of_ok hr, hr'], T.moves_append hmv hmv'⟩

/-- A first part that takes nothing. -/
theorem Reads.bind_nil (hP : T.Stable P) (hm : T.Reads P m [] a) (hf : T.Reads P (f a) l b) :
    T.Reads P (m >>= f) l b :=
  hm.bind hP hf

/-- A second part that takes nothing. -/
theorem Reads.bind_last (hP : T.Stable P) (hm : T.Reads P m l a) (hf : T.Reads P (f a) [] b) :
    T.Reads P (m >>= f) l b := by
  have h := hm.bind hP hf
  rwa [List.append_nil] at h

/-- A program that looks at its state first. -/
theorem Reads.get {f : σ → EStateM ε σ γ}
    (h : ∀ s, P s → l <+: T.pending s → T.Reads P (f s) l b) : T.Reads P (get >>= f) l b := by
  intro s t hs hp
  exact h s hs ⟨t, hp.symm⟩ s t hs hp

/-! ### Results that depend on what was taken only -/

/-- Every result `a` with `G a` is decided by the symbols that were taken, and `Q` holds of the
two. -/
def Local (T : Tape σ β) (P : σ → Prop) (G : α → Prop) (Q : List β → α → Prop)
    (m : EStateM ε σ α) : Prop :=
  ∀ s a s', P s → m.run s = .ok a s' → G a → ∃ l, T.Moves s l s' ∧ T.Reads P m l a ∧ Q l a

/-- No result satisfies `G`. -/
def Never (G : α → Prop) (m : EStateM ε σ α) : Prop := ∀ s a s', m.run s = .ok a s' → ¬ G a

variable {G : γ → Prop} {Q : List β → γ → Prop} {G₁ : α → Prop} {Q₁ : List β → α → Prop}

theorem Local.pure (h : G₁ a → Q₁ [] a) : T.Local P G₁ Q₁ (Pure.pure a : EStateM ε σ α) := by
  intro s a' s' _ hr hg
  cases hr
  exact ⟨[], T.moves_nil s, .pure, h hg⟩

variable {e : ε} {c : Prop} {m' : EStateM ε σ α}

theorem Local.throw : T.Local P G₁ Q₁ (throw e : EStateM ε σ α) := by
  intro s a s' _ hr
  cases hr

theorem Never.throw : Never G₁ (throw e : EStateM ε σ α) := by
  intro s a s' hr
  cases hr

theorem Never.pure (h : ¬ G₁ a) : Never G₁ (Pure.pure a : EStateM ε σ α) := by
  intro s a' s' hr
  cases hr
  exact h

theorem Never.bind (hf : ∀ a, Never G (f a)) : Never G (m >>= f) := by
  intro s b s'' hr
  obtain ⟨a, s', -, hr'⟩ := run_bind_ok.1 hr
  exact hf a s' b s'' hr'

/-- A first part that never returns. -/
theorem Never.of_error (hm : ∀ s, ∃ e s', m.run s = .error e s') : Never G (m >>= f) := by
  intro s b s'' hr
  obtain ⟨a, s', hr', -⟩ := run_bind_ok.1 hr
  obtain ⟨e, t, he⟩ := hm s
  rw [he] at hr'
  cases hr'

theorem Never.ite [Decidable c] (ht : c → Never G₁ m) (he : ¬ c → Never G₁ m') :
    Never G₁ (if c then m else m') := by
  split
  · next h => exact ht h
  · next h => exact he h

/-- A program that never gives such a result is local for want of one. -/
theorem Never.local (h : Never G₁ m) : T.Local P G₁ Q₁ m :=
  fun s a s' _ hr hg => absurd hg (h s a s' hr)

/-- **Sequences.** What the first part returns outside `G₁` may depend on more than was taken, as
long as the second part then gives no result that counts. -/
theorem Local.bind (hP : T.Stable P) (hm : T.Local P G₁ Q₁ m)
    (hf : ∀ a l, G₁ a → Q₁ l a → T.Local P G (fun l' b => Q (l ++ l') b) (f a))
    (hbad : ∀ a, ¬ G₁ a → Never G (f a)) : T.Local P G Q (m >>= f) := by
  intro s b s'' hs hr hg
  obtain ⟨a, s', hr₁, hr₂⟩ := run_bind_ok.1 hr
  by_cases hga : G₁ a
  · obtain ⟨l, hmv, hrd, hq⟩ := hm s a s' hs hr₁ hga
    obtain ⟨l', hmv', hrd', hq'⟩ := hf a l hga hq s' b s'' (hP hmv hs) hr₂ hg
    exact ⟨l ++ l', T.moves_append hmv hmv', hrd.bind hP hrd', hq'⟩
  · exact absurd hg (hbad a hga s' b s'' hr₂)

/-- Sequences whose first part is local throughout. -/
theorem Local.bind_all (hP : T.Stable P) (hm : T.Local P (fun _ => True) Q₁ m)
    (hf : ∀ a l, Q₁ l a → T.Local P G (fun l' b => Q (l ++ l') b) (f a)) :
    T.Local P G Q (m >>= f) :=
  hm.bind hP (fun a l _ => hf a l) (fun _ h => absurd trivial h)

/-- A check that takes nothing. -/
theorem Local.check (hP : T.Stable P) (hf : ∀ a, x = .ok a → T.Local P G Q (f a)) :
    T.Local P G Q (ofExcept x >>= f) := by
  intro s b s'' hs hr hg
  cases x with
  | error => cases hr
  | ok a =>
    obtain ⟨l, hmv, hrd, hq⟩ := hf a rfl s b s'' hs hr hg
    exact ⟨l, hmv, (Reads.ofExcept rfl).bind_nil hP hrd, hq⟩

theorem Local.ite [Decidable c] (ht : c → T.Local P G₁ Q₁ m) (he : ¬ c → T.Local P G₁ Q₁ m') :
    T.Local P G₁ Q₁ (if c then m else m') := by
  split
  · next h => exact ht h
  · next h => exact he h

theorem Local.mono {Q₂ : List β → α → Prop} (h : T.Local P G₁ Q₁ m)
    (hq : ∀ l a, Q₁ l a → Q₂ l a) : T.Local P G₁ Q₂ m := by
  intro s a s' hs hr hg
  obtain ⟨l, hmv, hrd, hq'⟩ := h s a s' hs hr hg
  exact ⟨l, hmv, hrd, hq l a hq'⟩

end Tape

end Manwe
