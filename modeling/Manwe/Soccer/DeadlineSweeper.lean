import Manwe.Transition.Run

/-!
# The deadline sweeper

`Soccer::detail::DeadlineSweeper` keeps one table of armed deadlines and one sweeper coroutine
for the whole process, alive only while the table is not empty. `add` appends an entry under the
mutex and, when `running` was false, spawns the loop after the unlock; if the spawn throws, a
second locked section clears `running` and takes the entry back out. `sweepOnce` is one pass of
the loop under the mutex.

The locked sections are the steps. What a pass cannot see in the sweeper's own state — the
clock, whether the slot behind an entry's watch is gone, whether `shutdownIf` found the
descriptor still owned — is the environment's answer, carried by the event. `IoDeadline::arm`
makes a fresh guard for every `add`, so the guard names the call.

`Swept` is the property the table is meant to have between calls: an entry whose `add` returned
is watched by a live loop. It is **not** an invariant: the failure cleanup clears `running`
although another `add` may have relied on it meanwhile (`swept_not_invariant`). It does hold in
every run in which a cleanup only ever finds the failing call's own entry in the table
(`swept_of_lone_cleanup`).
-/

namespace Manwe.DeadlineSweeper

open Function Option

variable {γ : Type*}

/-- One armed deadline in the table. `viaWatch` entries act only through the watch of the
stream's slot; the others on the raw descriptor. -/
structure Entry (γ : Type*) where
  g : γ
  fd : Int
  when : Int
  viaWatch : Bool
  deriving DecidableEq

/-- The part of a guard shared between the owner and the sweeper. -/
structure DeadlineGuard where
  /-- `over`: the owner is done, and the descriptor must not be touched -/
  isOver : Bool := false
  fired : Bool := false
  deriving DecidableEq

/-- Where an `add` call stands between its locked sections. -/
inductive AddPc
  | idle
  /-- the insertion is done; `spawn` says whether this call has to start the loop -/
  | inserted (spawn : Bool)
  | spawned
  /-- `coSpawn` threw: the cleanup section comes next -/
  | failing
  | returned
  | threw
  deriving DecidableEq

/-- `add` has inserted its entry and has neither returned nor thrown. -/
def AddPc.between : AddPc → Bool
  | .inserted _ | .spawned | .failing => true
  | .idle | .returned | .threw => false

/-- The sweeper, its guards and the `add` calls. `loops` counts the sweeper coroutines that
were spawned and have not ended. -/
structure State (γ : Type*) where
  entries : List (Entry γ) := []
  running : Bool := false
  guards : γ → DeadlineGuard := fun _ => {}
  adds : γ → AddPc := fun _ => .idle
  loops : ℕ := 0

/-- The environment's answers to one pass: the clock, whether the slot behind an entry's watch
is gone, and whether `shutdownIf` still found the descriptor in it. -/
structure Answers (γ : Type*) where
  now : Int
  gone : Entry γ → Bool
  owned : Entry γ → Bool

inductive Event (γ : Type*)
  | add (g : γ) (fd : Int) (when : Int) (viaWatch : Bool)
  | spawn (g : γ) (ok : Bool)
  | cleanup (g : γ)
  | finish (g : γ)
  | sweep (a : Answers γ)
  | disarm (g : γ)

/-- The state before any deadline was armed. -/
def init : State γ := {}

section Step

variable [DecidableEq γ]

/-- Mark the deadline of `g` as fired. -/
def fire (gs : γ → DeadlineGuard) (g : γ) : γ → DeadlineGuard :=
  update gs g { gs g with fired := true }

/-- The loop of `sweepOnce` over the table: the entries kept, and the guards after it. -/
def sweepEntries (a : Answers γ) :
    List (Entry γ) → (γ → DeadlineGuard) → List (Entry γ) × (γ → DeadlineGuard)
  | [], gs => ([], gs)
  | e :: es, gs =>
    if (gs e.g).isOver then sweepEntries a es gs
    else if e.viaWatch && a.gone e then sweepEntries a es gs
    else if e.when ≤ a.now then
      -- an entry armed through a stream fires only if its slot still owned the descriptor
      if e.viaWatch then sweepEntries a es (if a.owned e then fire gs e.g else gs)
      else sweepEntries a es (fire gs e.g)
    else (e :: (sweepEntries a es gs).1, (sweepEntries a es gs).2)

/-- `sweepOnce`: the next state, and whether the loop goes on. -/
def sweepOnce (a : Answers γ) (s : State γ) : State γ × Bool :=
  let r := sweepEntries a s.entries s.guards
  if r.1.isEmpty then ({ s with entries := r.1, guards := r.2, running := false }, false)
  else ({ s with entries := r.1, guards := r.2 }, true)

/-- The locked insertion of `add`. -/
def insert (s : State γ) (g : γ) (fd when : Int) (viaWatch : Bool) : State γ := { s with
    entries := s.entries ++ [{ g, fd, when, viaWatch }]
    running := true
    adds := update s.adds g (.inserted !s.running) }

/-- The locked cleanup of `add` after a failed spawn. -/
def cleanup (s : State γ) (g : γ) : State γ := { s with
    running := false
    entries := s.entries.filter fun e => !decide (e.g = g)
    adds := update s.adds g .threw }

/-- The steps of the sweeper and of the calls on it. -/
def step (s : State γ) : Event γ → Option (State γ)
  | .add g fd w viaWatch => if s.adds g = .idle then some (insert s g fd w viaWatch) else none
  | .spawn g ok =>
    if s.adds g = .inserted true then
      if ok then
        some { s with adds := update s.adds g .spawned, loops := s.loops + 1 }
      else some { s with adds := update s.adds g .failing }
    else none
  | .cleanup g => if s.adds g = .failing then some (cleanup s g) else none
  | .finish g =>
    if s.adds g = .inserted false ∨ s.adds g = .spawned then
      some { s with adds := update s.adds g .returned }
    else none
  | .sweep a =>
    if s.loops = 0 then none
    else
      -- a pass that leaves nothing armed ends its loop
      let r := sweepOnce a s
      some (if r.2 then r.1 else { r.1 with loops := s.loops - 1 })
  | .disarm g => some { s with guards := update s.guards g { s.guards g with isOver := true } }

end Step

/-- An entry whose `add` returned is in the table only while a loop is there to sweep it,
whenever no `add` is between its insertion and its return or throw. -/
def Swept (s : State γ) : Prop :=
  (∃ e ∈ s.entries, s.adds e.g = .returned) → (∀ g, (s.adds g).between = false) →
    s.running = true ∧ 0 < s.loops

/-- A step that, if it is a failure cleanup, finds only the failing call's entry in the table. -/
def LoneCleanup (s : State γ) : Event γ → Prop
  | .cleanup g => ∀ x ∈ s.entries, x.g = g
  | _ => True

instance [DecidableEq γ] (s : State γ) : (e : Event γ) → Decidable (LoneCleanup s e)
  | .cleanup g => inferInstanceAs (Decidable (∀ x ∈ s.entries, x.g = g))
  | .add .. | .spawn .. | .finish _ | .sweep _ | .disarm _ => inferInstanceAs (Decidable True)

/-! ### What the flag promises -/

/-- `running` is false only over an empty table, and while it is true a loop is alive or the
call that has to spawn one has not finished. -/
structure Inv (s : State γ) : Prop where
  idle : s.running = false → s.entries = []
  live : s.running = true → 0 < s.loops ∨ ∃ g, s.adds g = .inserted true ∨ s.adds g = .failing

theorem Inv.swept {s : State γ} (h : Inv s) : Swept s := by
  rintro ⟨e, he, -⟩ hnone
  have hrun : s.running = true := by
    by_contra hf
    rw [h.idle (by simpa using hf)] at he
    simp at he
  refine ⟨hrun, ?_⟩
  rcases h.live hrun with hl | ⟨g, hg | hg⟩
  · exact hl
  · exact absurd (hnone g) (by simp [hg, AddPc.between])
  · exact absurd (hnone g) (by simp [hg, AddPc.between])

theorem inv_init : Inv (init : State γ) := ⟨fun _ => rfl, fun h => by simp [init] at h⟩

variable [DecidableEq γ]

variable {s : State γ} {g : γ}

/-- A party that still has to spawn, other than the one that moves, keeps doing so. -/
private theorem pending_update {adds : γ → AddPc} {pc : AddPc}
    (hg : adds g ≠ .inserted true ∧ adds g ≠ .failing)
    (h : ∃ k, adds k = .inserted true ∨ adds k = .failing) :
    ∃ k, update adds g pc k = .inserted true ∨ update adds g pc k = .failing := by
  obtain ⟨k, hk⟩ := h
  have hne : k ≠ g := by
    rintro rfl
    exact hk.elim hg.1 hg.2
  exact ⟨k, by rwa [update_of_ne hne]⟩

theorem inv_insert (h : Inv s) (hg : s.adds g = .idle) (fd w : Int) (viaWatch : Bool) :
    Inv (insert s g fd w viaWatch) := by
  refine ⟨fun hf => by simp [insert] at hf, fun _ => ?_⟩
  rcases hrun : s.running with _ | _
  · exact .inr ⟨g, .inl (by simp [insert, hrun])⟩
  · rcases h.live hrun with hl | hp
    · exact .inl hl
    · exact .inr (pending_update (by simp [hg]) hp)

theorem inv_cleanup (hlone : ∀ x ∈ s.entries, x.g = g) : Inv (cleanup s g) := by
  refine ⟨fun _ => ?_, fun hf => by simp [cleanup] at hf⟩
  simp only [cleanup, List.filter_eq_nil_iff]
  intro x hx
  simp [hlone x hx]

theorem inv_sweep (h : Inv s) (a : Answers γ) : Inv (if (sweepOnce a s).2 then (sweepOnce a s).1
      else { (sweepOnce a s).1 with loops := s.loops - 1 }) := by
  rcases hr : (sweepEntries a s.entries s.guards).1 with _ | ⟨x, xs⟩
  · refine ⟨fun _ => ?_, fun hf => ?_⟩
    · simp [sweepOnce, hr]
    · simp [sweepOnce, hr] at hf
  · have hne : s.entries ≠ [] := by
      intro hnil
      rw [hnil] at hr
      simp [sweepEntries] at hr
    refine ⟨fun hf => ?_, fun ht => ?_⟩
    · exact absurd (h.idle (by simpa [sweepOnce, hr] using hf)) hne
    · simpa [sweepOnce, hr] using h.live (by simpa [sweepOnce, hr] using ht)

theorem inv_step {s t : State γ} {e : Event γ} (h : Inv s) (hok : LoneCleanup s e)
    (hs : step s e = some t) : Inv t := by
  cases e with
  | add g fd w viaWatch =>
    obtain ⟨hg, rfl⟩ := of_guard hs
    exact inv_insert h hg fd w viaWatch
  | spawn g ok =>
    simp only [step, ite_none_right_eq_some] at hs
    obtain ⟨hg, hs⟩ := hs
    cases ok with
    | true =>
      simp only [if_true, some.injEq] at hs
      subst hs
      exact ⟨h.idle, fun _ => .inl (Nat.succ_pos _)⟩
    | false =>
      simp only [Bool.false_eq_true, if_false, some.injEq] at hs
      subst hs
      exact ⟨h.idle, fun _ => .inr ⟨g, .inr (by simp)⟩⟩
  | cleanup =>
    obtain ⟨-, rfl⟩ := of_guard hs
    exact inv_cleanup hok
  | finish =>
    obtain ⟨hg, rfl⟩ := of_guard hs
    refine ⟨h.idle, fun hrun => (h.live hrun).imp id fun hp => pending_update ?_ hp⟩
    rcases hg with hg | hg <;> simp [hg]
  | sweep a =>
    simp only [step, ite_none_left_eq_some, some.injEq] at hs
    obtain ⟨-, rfl⟩ := hs
    exact inv_sweep h a
  | disarm =>
    simp only [step, some.injEq] at hs
    subst hs
    exact ⟨h.idle, h.live⟩

/-! ### Entries stay watched unless a cleanup meets a stranger's entry -/

/-- **No armed deadline is left unswept** in any run whose failure cleanups find only the
failing call's own entry in the table. -/
theorem swept_of_lone_cleanup {tr : List (State γ × Event γ)} {s : State γ}
    (h : Run step init tr s) (hlone : ∀ p ∈ tr, LoneCleanup p.1 p.2) : Swept s :=
  (h.invariant LoneCleanup hlone inv_init fun hi hok hs => inv_step hi hok hs).swept

/-- A first spawn that fails with nobody else in the table, and a second one that works. -/
def retriedSpawn : List (Event ℕ) :=
  [.add 0 5 100 false, .spawn 0 false, .cleanup 0, .add 1 6 200 false, .spawn 1 true, .finish 1]

theorem swept_after_retriedSpawn : ∃ tr s, Run step (init : State ℕ) tr s ∧
    (∀ p ∈ tr, LoneCleanup p.1 p.2) ∧ (∃ e ∈ s.entries, s.adds e.g = .returned) ∧ Swept s :=
  have hr := Run.of_exec (show exec step (init : State ℕ) retriedSpawn = some _ from rfl)
  ⟨_, _, hr, by decide, by decide, swept_of_lone_cleanup hr (by decide)⟩

/-- The second call relies on the first one's spawn and returns; then that spawn fails. -/
def reliedOnSpawn : List (Event ℕ) :=
  [.add 0 5 100 false, .add 1 6 200 false, .finish 1, .spawn 0 false, .cleanup 0]

/-- **The table can hold an armed entry nobody sweeps**: the cleanup of a failed spawn clears
`running` under the feet of a call that relied on it. -/
theorem swept_not_invariant : ¬ ∀ tr s, Run step (init : State ℕ) tr s → Swept s := by
  intro h
  have hr := Run.of_exec (show exec step (init : State ℕ) reliedOnSpawn = some _ from rfl)
  have hquiet := h _ _ hr (by decide) fun
    | 0 => rfl
    | 1 => rfl
    | _ + 2 => rfl
  exact absurd hquiet.1 (by decide)

end Manwe.DeadlineSweeper
