import Manwe.Yarn.WhenAny

/-!
# Who wins a race

At most one party ever finds `finished` unset. The log of those who did has at most one entry, and
that entry says how far the shared fields have been written: `Stage` follows the winner from its
exchange to the written outcome. Nobody else is ever at a point where it writes, so most steps pass
the race by; `Race.frame` is stated once for all of them.
-/

namespace Manwe.WhenAny

open List

variable {α χ : Type*}

/-! ### Who wins -/

/-- Who has won `finished`, and with what. -/
inductive Winner (α : Type*) (χ : Type*)
  | runner (i : ℕ) (o : Except χ α)
  /-- spawning failed -/
  | spawner (x : χ)

/-- What the caller is to get; `thrown` is what moving the value threw. -/
def Winner.outcome : Winner α χ → (thrown : List χ) → Except χ (ℕ × Option α)
  | .runner i (.ok a), [] => .ok (i, some a)
  | .runner _ (.ok _), y :: _ => .error y
  | .runner _ (.error x), _ => .error x
  | .spawner x, _ => .error x

/-- The step wins `finished`. -/
def winsAt (s : State α χ) : Event α χ → List (Winner α χ)
  | .exchange i =>
    match s.runners i with
    | .exchanging o => if s.finished then [] else [.runner i o]
    | _ => []
  | .failExchange =>
    match s.loop with
    | .failing _ x => if s.finished then [] else [.spawner x]
    | _ => []
  | _ => []

/-- The winner's value throws when it is moved. -/
def throwsAt (_ : State α χ) : Event α χ → List χ
  | .write _ (some y) => [y]
  | _ => []

/-- The runner has not exchanged `finished` yet. -/
def RunnerPc.fresh : RunnerPc α χ → Bool
  | .unspawned | .working | .exchanging _ => true
  | _ => false

/-- Only the winner is here. -/
@[simp] def RunnerPc.winning : RunnerPc α χ → Bool
  | .stamping _ | .writing _ | .settling true => true
  | _ => false

/-- A winner here has written its outcome. -/
@[simp] def RunnerPc.late : RunnerPc α χ → Bool
  | .settling true | .publishing | .waking | .ended => true
  | _ => false

/-- `failWhenAny` has taken part in the race, and written its exception if it won. -/
@[simp] def LoopPc.late : LoopPc χ → Bool
  | .failCounting _ | .failPublishing | .ended => true
  | _ => false

/-- How far the winner has come. -/
inductive Stage (s : State α χ) : Winner α χ → List χ → Prop
  | stamping {i : ℕ} {o : Except χ α} (hi : s.runners i = .stamping o) (hr : s.result = none)
      (hx : s.exception = none) : Stage s (.runner i o) []
  | writing {i : ℕ} {o : Except χ α} (hi : s.runners i = .writing o) (hw : s.winningIndex = i)
      (hr : s.result = none) (hx : s.exception = none) : Stage s (.runner i o) []
  | written {i : ℕ} {o : Except χ α} {thrown : List χ} (hi : (s.runners i).late = true)
      (ho : s.outcome = (Winner.runner i o).outcome thrown) : Stage s (.runner i o) thrown
  | failWriting {k : ℕ} {x : χ} (hl : s.loop = .failWriting k x) : Stage s (.spawner x) []
  | failed {x : χ} {thrown : List χ} (hl : s.loop.late = true) (ho : s.outcome = .error x) :
      Stage s (.spawner x) thrown

/-- **The race for `finished`**: at most one wins, and only the winner writes. -/
structure Race (s : State α χ) (wins : List (Winner α χ)) (thrown : List χ) : Prop where
  undecided : s.finished = false → wins = [] ∧ thrown = [] ∧ s.result = none ∧ s.exception = none
  decided : s.finished = true → ∃ x, wins = [x] ∧ Stage s x thrown
  winner : ∀ i, (s.runners i).winning = true → ∃ o, wins = [.runner i o]
  spawner : ∀ k x, s.loop = .failWriting k x → wins = [.spawner x]
  past : ∀ i, (s.runners i).fresh = false → s.finished = true

/-- Steps of a runner that the race does not depend on. -/
structure Passes (finished : Bool) (r r' : RunnerPc α χ) : Prop where
  before : r.winning = true → r.late = true
  after : r'.winning = false
  late : r.late = true → r'.late = true
  past : r'.fresh = false → r.fresh = false ∨ finished = true

theorem passes_settle {f won : Bool} {r : RunnerPc α χ} (hr : r = .publishing ∨ r = .ended) :
    Passes f (.settling won : RunnerPc α χ) r := by
  rcases hr with rfl | rfl
  all_goals exact ⟨by cases won <;> simp, rfl, fun _ => rfl, fun _ => .inl rfl⟩

namespace Race

variable {s t : State α χ} {wins : List (Winner α χ)} {thrown : List χ}

/-- Steps besides the race leave it as it is. -/
theorem frame (h : Race s wins thrown)
    (hr : ∀ i, t.runners i = s.runners i ∨ Passes s.finished (s.runners i) (t.runners i))
    (hl : t.loop = s.loop ∨ (∀ k x, s.loop ≠ .failWriting k x) ∧
      (∀ k x, t.loop ≠ .failWriting k x) ∧ (s.loop.late = true → t.loop.late = true))
    (hf : t.finished = s.finished) (hw : t.winningIndex = s.winningIndex)
    (hres : t.result = s.result) (hx : t.exception = s.exception) : Race t wins thrown := by
  have ho : t.outcome = s.outcome := by simp only [State.outcome, hx, hw, hres]
  refine ⟨?_, ?_, ?_, ?_, ?_⟩
  · rw [hf, hres, hx]
    exact h.undecided
  · rw [hf]
    intro hfin
    obtain ⟨x, hx', hst⟩ := h.decided hfin
    refine ⟨x, hx', ?_⟩
    cases hst with
    | @stamping i o hi h1 h2 =>
      rcases hr i with h' | h'
      · exact .stamping (h'.trans hi) (hres.trans h1) (hx.trans h2)
      · simpa [hi] using h'.before
    | @writing i o hi h0 h1 h2 =>
      rcases hr i with h' | h'
      · exact .writing (h'.trans hi) (hw.trans h0) (hres.trans h1) (hx.trans h2)
      · simpa [hi] using h'.before
    | @written i o _ hi h0 =>
      refine .written ?_ (ho.trans h0)
      rcases hr i with h' | h'
      · rw [h', hi]
      · exact h'.late hi
    | failWriting hl' =>
      rcases hl with h' | h'
      · exact .failWriting (h'.trans hl')
      · exact absurd hl' (h'.1 _ _)
    | failed hl' h0 =>
      refine .failed ?_ (ho.trans h0)
      rcases hl with h' | h'
      · rw [h', hl']
      · exact h'.2.2 hl'
  · intro i hi
    rcases hr i with h' | h'
    · exact h.winner i (h' ▸ hi)
    · rw [h'.after] at hi
      cases hi
  · intro k x hk
    rcases hl with h' | h'
    · exact h.spawner k x (h' ▸ hk)
    · exact absurd hk (h'.2.1 k x)
  · intro i hi
    rw [hf]
    rcases hr i with h' | h'
    · exact h.past i (h' ▸ hi)
    · rcases h'.past hi with h'' | h''
      · exact h.past i h''
      · exact h''

variable {i k : ℕ}

theorem put_passes {f : Bool} {r : RunnerPc α χ} (hm : Passes f (s.runners i) r) (j : ℕ) :
    (s.put i r).runners j = s.runners j ∨ Passes f (s.runners j) ((s.put i r).runners j) := by
  obtain rfl | hj := eq_or_ne j i
  · exact .inr (by simpa using hm)
  · exact .inl (by simp [hj])

variable (h : Race s wins thrown)

include h

/-- A winner has exchanged `finished`. -/
theorem finished_of_wins {x : Winner α χ} (hx : wins = [x]) :
    s.finished = true ∧ Stage s x thrown := by
  subst hx
  cases hf : s.finished with
  | false => simpa using (h.undecided hf).1
  | true =>
    obtain ⟨y, hy, hst⟩ := h.decided hf
    obtain rfl := singleton_inj.mp hy
    exact ⟨rfl, hst⟩

/-- A runner that is about to write, or has just written, is the winner. -/
theorem stage (hi : (s.runners i).winning = true) :
    ∃ o, wins = [.runner i o] ∧ Stage s (.runner i o) thrown := by
  obtain ⟨o, hw⟩ := h.winner i hi
  exact ⟨o, hw, (h.finished_of_wins hw).2⟩

variable {o : Except χ α}

theorem stamping (hi : s.runners i = .stamping o) :
    wins = [.runner i o] ∧ thrown = [] ∧ s.result = none ∧ s.exception = none := by
  obtain ⟨o', hw, hst⟩ := h.stage (by rw [hi]; rfl)
  cases hst <;> simp_all

theorem writing (hi : s.runners i = .writing o) :
    wins = [.runner i o] ∧ thrown = [] ∧ s.winningIndex = i ∧ s.result = none ∧
      s.exception = none := by
  obtain ⟨o', hw, hst⟩ := h.stage (by rw [hi]; rfl)
  cases hst <;> simp_all

theorem won (hf : s.finished = false) :
    Race { s.put i (.stamping o) with finished := true } (wins ++ [.runner i o]) thrown := by
  obtain ⟨rfl, rfl, hr, hx⟩ := h.undecided hf
  refine ⟨by simp, fun _ => ⟨_, rfl, .stamping ?_ hr hx⟩, fun j hj => ?_, fun k x hk => ?_,
    fun _ _ => rfl⟩
  · simp
  · by_cases hji : j = i
    · exact ⟨o, by simp [hji]⟩
    · obtain ⟨o', ho'⟩ := h.winner j (by simpa [hji] using hj)
      simp at ho'
  · simpa using h.spawner k x hk

variable {x : χ}

theorem failWon (hf : s.finished = false) :
    Race { s with finished := true, loop := .failWriting k x } (wins ++ [.spawner x]) thrown := by
  obtain ⟨rfl, rfl, -, -⟩ := h.undecided hf
  refine ⟨by simp, fun _ => ⟨_, rfl, .failWriting rfl⟩, fun j hj => ?_, fun k x hk => ?_,
    fun _ _ => rfl⟩
  · obtain ⟨o', ho'⟩ := h.winner j hj
    simp at ho'
  · cases hk
    rfl

theorem finished_of_failWriting (hk : s.loop = .failWriting k x) : s.finished = true :=
  (h.finished_of_wins (h.spawner k x hk)).1

theorem failWrite {b : Bool} {l : LoopPc χ} (hk : s.loop = .failWriting k x) (hl : l.late = true) :
    Race { s with stopped := b, exception := some x, loop := l } wins thrown := by
  have hf := h.finished_of_failWriting hk
  obtain rfl := h.spawner k x hk
  refine ⟨by simp [hf], fun _ => ⟨_, rfl, .failed hl rfl⟩, fun j hj => h.winner j hj, ?_, h.past⟩
  rintro k' x' rfl
  simp at hl

/-- The winner goes on writing. -/
theorem put_winner {thrown' : List χ} (hw : wins = [.runner i o])
    (hr : ∀ j, j ≠ i → t.runners j = s.runners j) (hl : t.loop = s.loop)
    (hf : t.finished = s.finished) (hst : Stage t (.runner i o) thrown') : Race t wins thrown' := by
  have hf' := (h.finished_of_wins hw).1
  subst hw
  refine ⟨by simp [hf, hf'], fun _ => ⟨_, rfl, hst⟩, fun j hj => ?_, fun k x hk => ?_,
    fun j hj => hf.trans hf'⟩
  · by_cases hji : j = i
    · exact ⟨o, by rw [hji]⟩
    · exact h.winner j (hr j hji ▸ hj)
  · exact h.spawner k x (hl ▸ hk)

end Race

/-- **A step keeps the race.** -/
theorem race_step {n : ℕ} {join : Bool} {s t : State α χ} {e : Event α χ}
    {wins : List (Winner α χ)} {thrown : List χ} (h : Race s wins thrown)
    (hu : ∀ k, s.loop = .spawning k → s.runners k = .unspawned) (hc : Change n join s e t) :
    Race t (wins ++ winsAt s e) (thrown ++ throwsAt s e) := by
  have hput {i : ℕ} {r : RunnerPc α χ} (hm : Passes s.finished (s.runners i) r) :=
    Race.put_passes hm
  cases hc with simp only [winsAt, throwsAt, append_nil]
  | spawn hl | spawnLast hl =>
    refine h.frame (hput ?_) (.inr ⟨by simp [hl], by simp [State.endLoop], by simp [hl]⟩) rfl rfl rfl
      rfl
    exact hu _ hl ▸ ⟨nofun, rfl, nofun, nofun⟩
  | spawnFail hl =>
    exact h.frame (fun _ => .inl rfl) (.inr ⟨by simp [hl], nofun, by simp [hl]⟩) rfl rfl rfl rfl
  | failWon hl hf =>
    simp only [hl, hf]
    exact h.failWon hf
  | failLost hl hf | failLostJoined hl hf =>
    simp only [hl, hf, if_true, append_nil]
    exact h.frame (fun _ => .inl rfl) (.inr ⟨by simp [hl], nofun, fun _ => rfl⟩)
      (by simp [State.endLoop, hf]) rfl rfl rfl
  | failWrite hl | failWriteJoined hl => exact h.failWrite hl rfl
  | failCountLast hl | failCount hl | failPublish hl =>
    exact h.frame (fun _ => .inl rfl) (.inr ⟨by simp [hl], nofun, fun _ => rfl⟩) rfl rfl rfl rfl
  | awaitReady | awaitSuspend | awaitResume | destroy =>
    exact h.frame (fun _ => .inl rfl) (.inl rfl) rfl rfl rfl rfl
  | finish hi => exact h.frame (hput (hi ▸ ⟨nofun, rfl, nofun, nofun⟩)) (.inl rfl) rfl rfl rfl rfl
  | won hi hf =>
    simp only [hi, hf]
    exact h.won hf
  | lost hi hf =>
    simp only [hi, hf, if_true, append_nil]
    exact h.frame (hput (hi ▸ ⟨nofun, rfl, nofun, fun _ => .inr hf⟩)) (.inl rfl) rfl rfl rfl rfl
  | stamp hi =>
    obtain ⟨hw, rfl, hr, hx⟩ := h.stamping hi
    exact h.put_winner hw (fun j hj => by simp [hj]) rfl rfl (.writing (by simp) rfl hr hx)
  | write hi =>
    obtain ⟨hw, rfl, hn, hr, hx⟩ := h.writing hi
    exact h.put_winner hw (fun j hj => by simp [hj]) rfl rfl
      (.written (by simp) (by simp [State.outcome, Winner.outcome, hx, hn]))
  | writeThrown hi | writeError hi =>
    obtain ⟨hw, rfl, hn, hr, hx⟩ := h.writing hi
    exact h.put_winner hw (fun j hj => by simp [hj]) rfl rfl (.written (by simp) rfl)
  | settleLast hi | settleWon hi | settleJoined hi | settleLost hi =>
    exact h.frame (hput (hi ▸ passes_settle (by simp))) (.inl rfl) rfl rfl rfl rfl
  | publish hi =>
    refine h.frame (hput (hi ▸ ⟨nofun, ?_, fun _ => ?_, fun _ => .inl rfl⟩)) (.inl rfl) rfl rfl rfl
      rfl
    all_goals
      split
      all_goals rfl
  | wake hi =>
    exact h.frame (hput (hi ▸ ⟨nofun, rfl, fun _ => rfl, fun _ => .inl rfl⟩)) (.inl rfl) rfl rfl rfl
      rfl

end Manwe.WhenAny
