import Manwe.Transition.Tally
import Manwe.Yarn.WhenAny.Race

/-!
# Publishing a race

The outcome of a race is published once, by the party that has the **right** to: by default the
winner after it has written, in joined mode whoever takes `remaining` to zero. `Right due` says that
from the moment publication is `due` exactly one party is about to publish or the outcome is
published, and nobody before. It is kept for each mode with its own notion of when publication is
due, and for both it gives what the caller's handle needs: nobody publishes twice.
-/

namespace Manwe.WhenAny

open Option Bool LoopPc

open WhenAnyAwaiter (Latch)

variable {α χ : Type*}

/-! ### The spawning loop -/

/-- The number of runners spawned, while the others still count. -/
def LoopPc.reached : LoopPc χ → Option ℕ
  | .spawning k | .failing k _ | .failWriting k _ | .failCounting k => some k
  | _ => none

/-- Runners that count in `remaining` although they are not spawned. -/
def LoopPc.unspawned (n : ℕ) (l : LoopPc χ) : ℕ := (l.reached.map (n - ·)).getD 0

/-- The loop spawns the runners in order, at least one unless spawning fails. -/
structure Spawned (n : ℕ) (s : State α χ) : Prop where
  lt : ∀ k, s.loop.reached = some k → k < n
  unspawned : ∀ k, s.loop = .spawning k → ∀ j, s.runners j = .unspawned ↔ k ≤ j
  begun : s.loop.late = true → s.finished = true ∨ s.runners 0 ≠ .unspawned

variable {n : ℕ}

theorem spawned_init (hn : 0 < n) : Spawned n (init n : State α χ) := by
  refine ⟨?_, ?_, nofun⟩
  · rintro k ⟨⟩
    exact hn
  · rintro k ⟨⟩ j
    exact ⟨fun _ => Nat.zero_le j, fun _ => rfl⟩

variable {i : ℕ} {r : RunnerPc α χ} {s : State α χ}

theorem put_unspawned (hi : s.runners i ≠ .unspawned) (hr : r ≠ .unspawned)
    (j : ℕ) : (s.put i r).runners j = .unspawned ↔ s.runners j = .unspawned := by
  obtain rfl | hj := eq_or_ne j i
  · simp [hi, hr]
  · simp [hj]

namespace Spawned

variable {n : ℕ} {s t : State α χ}

/-- Steps outside the loop. -/
theorem frame (h : Spawned n s) (hl : t.loop = s.loop)
    (hr : ∀ j, t.runners j = .unspawned ↔ s.runners j = .unspawned)
    (hf : s.finished = true → t.finished = true) : Spawned n t := by
  refine ⟨?_, ?_, ?_⟩
  · rw [hl]
    exact h.lt
  · intro k hk j
    rw [hr]
    exact h.unspawned k (hl ▸ hk) j
  · intro hlate
    rw [hl] at hlate
    rcases h.begun hlate with h' | h'
    · exact .inl (hf h')
    · exact .inr fun h0 => h' ((hr 0).mp h0)

theorem put (h : Spawned n s) {i : ℕ} {r r₀ : RunnerPc α χ} (hi : s.runners i = r₀)
    (h₀ : r₀ ≠ .unspawned) (hr : r ≠ .unspawned) (hl : t.loop = s.loop)
    (ht : t.runners = (s.put i r).runners) (hf : s.finished = true → t.finished = true) :
    Spawned n t :=
  h.frame hl (fun j => ht ▸ put_unspawned (hi ▸ h₀) hr j) hf

end Spawned

variable {e : Event α χ} {wins : List (Winner α χ)} {thrown : List χ}

theorem spawned_step {join : Bool} {t : State α χ} (h : Spawned n s)
    (hrace : Race s wins thrown) (hc : Change n join s e t) : Spawned n t := by
  cases hc with
  | @spawn k hl hk =>
    refine ⟨?_, ?_, by simp⟩
    · rintro _ ⟨⟩
      exact hk
    · rintro _ ⟨⟩ j
      have hj := h.unspawned k hl j
      obtain rfl | hjk := eq_or_ne j k
      · simp
      · simp only [State.put, Function.update_of_ne hjk, hj]
        omega
  | @spawnLast k hl =>
    refine ⟨by rintro _ ⟨⟩, by rintro _ ⟨⟩, fun _ => .inr ?_⟩
    have h0 := h.unspawned k hl 0
    obtain rfl | hk0 := eq_or_ne 0 k
    · simp [State.endLoop]
    · simp only [State.endLoop, State.put, Function.update_of_ne hk0, ne_eq, h0]
      omega
  | @spawnFail k x hl | @failWon k x hl =>
    refine ⟨?_, by simp, by simp⟩
    rintro _ ⟨⟩
    exact h.lt k (by rw [hl]; rfl)
  | failLost hl hf => exact ⟨by rintro _ ⟨⟩, by rintro _ ⟨⟩, fun _ => .inl hf⟩
  | @failLostJoined k x hl hf =>
    refine ⟨?_, by simp, fun _ => .inl hf⟩
    rintro _ ⟨⟩
    exact h.lt k (by rw [hl]; rfl)
  | failWrite hl =>
    exact ⟨by rintro _ ⟨⟩, by rintro _ ⟨⟩, fun _ => .inl (hrace.finished_of_failWriting hl)⟩
  | @failWriteJoined k x hl =>
    refine ⟨?_, by simp, fun _ => .inl (hrace.finished_of_failWriting hl)⟩
    rintro _ ⟨⟩
    exact h.lt k (by rw [hl]; rfl)
  | failCountLast hl | failCount hl | failPublish hl =>
    exact ⟨by rintro _ ⟨⟩, by rintro _ ⟨⟩, fun _ => h.begun (by simp [hl])⟩
  | awaitReady | awaitSuspend | awaitResume | destroy => exact h.frame rfl (fun _ => Iff.rfl) id
  | won hi => exact h.put hi (by simp) (by simp) rfl rfl fun _ => rfl
  | finish hi | lost hi | stamp hi | write hi | writeThrown hi | writeError hi | settleLast hi
  | settleJoined hi | settleWon hi | settleLost hi | wake hi =>
    exact h.put hi (by simp) (by simp) rfl rfl id
  | publish hi =>
    refine h.put hi (by simp) ?_ rfl rfl id
    split
    all_goals simp

/-! ### The right to publish -/

def RunnerPc.publishes : RunnerPc α χ → Bool
  | .publishing => true
  | _ => false

def LoopPc.publishes : LoopPc χ → Bool
  | .failPublishing => true
  | _ => false

/-- **The right to publish**: from the moment publication is `due` there is exactly one of a runner
about to publish, a failed loop about to publish and the published outcome; before, there is
none. -/
def Right (due : Prop) (s : State α χ) : Prop :=
  ∃ p, Tally (fun i => (s.runners i).publishes = true) p ∧
    (due → p + s.loop.publishes.toNat + s.latch.published.toNat = 1) ∧
    (¬ due → p + s.loop.publishes.toNat + s.latch.published.toNat = 0)

namespace Right

variable {due due' : Prop} {s t : State α χ}

theorem due_of_published (h : Right due s) (hp : s.latch.published = true) : due := by
  obtain ⟨p, -, -, h0⟩ := h
  by_contra hd
  have hsum := h0 hd
  simp [hp] at hsum

variable {i : ℕ} (h : Right due s)

include h

/-- Nobody publishes twice. -/
theorem not_published (hi : s.runners i = .publishing) : s.latch.published = false := by
  obtain ⟨p, hp, h1, h0⟩ := h
  have hpos : 0 < p := hp.pos (by rw [hi]; rfl)
  cases hb : s.latch.published with
  | false => rfl
  | true =>
    rw [hb] at h1 h0
    by_cases hd : due
    · have hsum := h1 hd
      simp only [toNat_true] at hsum
      omega
    · have hsum := h0 hd
      omega

/-- After the outcome is published no runner is about to publish. -/
theorem not_publishing (hp : s.latch.published = true) (i : ℕ) : s.runners i ≠ .publishing := by
  intro hi
  rw [h.not_published hi] at hp
  cases hp

/-- Once publication is due and everybody has moved on, the outcome is published. -/
theorem published (hd : due) (hr : ∀ i, (s.runners i).publishes = false)
    (hl : s.loop.publishes = false) : s.latch.published = true := by
  obtain ⟨p, hp, h1, -⟩ := h
  have hp0 : p = 0 := hp.unique (.zero fun i => by simp [hr i])
  have hsum := h1 hd
  rw [hp0, hl] at hsum
  cases hb : s.latch.published with
  | false => simp [hb] at hsum
  | true => rfl

/-- Steps besides the publication. -/
theorem frame (hd : due' ↔ due) (hr : ∀ i, (t.runners i).publishes = (s.runners i).publishes)
    (hl : t.loop.publishes = s.loop.publishes) (hp : t.latch.published = s.latch.published) :
    Right due' t := by
  obtain ⟨p, htally, h1, h0⟩ := h
  refine ⟨p, htally.congr fun i => by rw [hr], ?_, ?_⟩
  · rw [hd, hl, hp]
    exact h1
  · rw [hd, hl, hp]
    exact h0

/-- Publication becomes due, and a runner is to publish. -/
theorem grant (hd : ¬ due) (hd' : due') (hi : (s.runners i).publishes = false)
    (hr : t.runners = (s.put i .publishing).runners) (hl : t.loop = s.loop)
    (hp : t.latch = s.latch) :
    Right due' t := by
  obtain ⟨p, htally, -, h0⟩ := h
  refine ⟨p + 1, ?_, fun _ => ?_, absurd hd'⟩
  · rw [hr]
    exact htally.update_enter (RunnerPc.publishes · = true) (by simp [hi]) rfl
  · have hsum := h0 hd
    rw [hl, hp]
    omega

/-- Publication becomes due, and the loop is to publish. -/
theorem grantLoop (hd : ¬ due) (hd' : due') (hr : t.runners = s.runners)
    (hl : t.loop = .failPublishing) (hp : t.latch = s.latch) : Right due' t := by
  obtain ⟨p, htally, -, h0⟩ := h
  refine ⟨p, hr ▸ htally, fun _ => ?_, absurd hd'⟩
  have hsum := h0 hd
  rw [hl, hp]
  simp only [publishes, toNat_true]
  omega

/-- A runner publishes. -/
theorem publish (hd : due' ↔ due) {r : RunnerPc α χ} (hi : s.runners i = .publishing)
    (hr : r.publishes = false) (ht : t.runners = (s.put i r).runners) (hl : t.loop = s.loop)
    (hp : t.latch.published = true) : Right due' t := by
  have hb := h.not_published hi
  obtain ⟨p, htally, h1, h0⟩ := h
  have hpos : 0 < p := htally.pos (by rw [hi]; rfl)
  refine ⟨p - 1, ?_, ?_, ?_⟩
  · rw [ht]
    exact htally.update_leave (RunnerPc.publishes · = true) (by rw [hi]; rfl) (by simp [hr])
  · intro hdue
    have hsum := h1 (hd.mp hdue)
    rw [hl, hp]
    simp only [toNat_true] at hsum ⊢
    omega
  · intro hdue
    have hsum := h0 fun h' => hdue (hd.mpr h')
    omega

/-- The loop publishes. -/
theorem publishLoop (hd : due' ↔ due) (hs : s.loop = .failPublishing) (hr : t.runners = s.runners)
    (hl : t.loop = .ended) (hp : t.latch.published = true) : Right due' t := by
  obtain ⟨p, htally, h1, h0⟩ := h
  rw [hs] at h1 h0
  refine ⟨p, hr ▸ htally, ?_, ?_⟩
  · intro hdue
    have hsum := h1 (hd.mp hdue)
    rw [hl, hp]
    simp only [publishes, toNat_true, toNat_false] at hsum ⊢
    omega
  · intro hdue
    have hsum := h0 fun h' => hdue (hd.mpr h')
    simp [publishes] at hsum

end Right

/-! ### Joined mode: the last one publishes -/

/-- The runner still counts in `remaining`. -/
def RunnerPc.busy : RunnerPc α χ → Bool
  | .working | .exchanging _ | .stamping _ | .writing _ | .settling _ => true
  | _ => false

/-- `remaining` counts the runners that have not settled, those not spawned included. -/
structure Joined (n : ℕ) (s : State α χ) : Prop where
  count : ∃ b, Tally (fun i => (s.runners i).busy = true) b ∧ s.remaining = b + s.loop.unspawned n
  right : Right (s.remaining = 0) s

theorem joined_init (hn : 0 < n) : Joined n (init n : State α χ) := by
  refine ⟨⟨0, .zero nofun, (Nat.zero_add n).symm⟩, ⟨0, .zero nofun, ?_, fun _ => rfl⟩⟩
  intro h
  change n = 0 at h
  omega

namespace Joined

variable {n : ℕ} {s t : State α χ}

/-- Steps that do not count. -/
theorem frame (h : Joined n s) (hrem : t.remaining = s.remaining)
    (hb : ∀ i, (t.runners i).busy = (s.runners i).busy)
    (hu : t.loop.unspawned n = s.loop.unspawned n)
    (hr : ∀ i, (t.runners i).publishes = (s.runners i).publishes)
    (hl : t.loop.publishes = s.loop.publishes) (hp : t.latch.published = s.latch.published) :
    Joined n t := by
  refine ⟨?_, h.right.frame (by rw [hrem]) hr hl hp⟩
  obtain ⟨b, htally, hcount⟩ := h.count
  exact ⟨b, htally.congr fun i => by rw [hb], by rw [hrem, hu, hcount]⟩

variable {i : ℕ} (h : Joined n s)

include h

/-- Steps of a busy runner, up to its settling. -/
theorem put {r r₀ : RunnerPc α χ} (hi : s.runners i = r₀) (h₀ : r₀.busy = true) (hr : r.busy = true)
    (hrem : t.remaining = s.remaining) (ht : t.runners = (s.put i r).runners) (hl : t.loop = s.loop)
    (hp : t.latch = s.latch) : Joined n t := by
  have hpub {r : RunnerPc α χ} (hb : r.busy = true) : r.publishes = false := by
    cases r <;> simp_all [RunnerPc.busy, RunnerPc.publishes]
  refine h.frame hrem (fun j => ?_) (by rw [hl]) (fun j => ?_) (by rw [hl]) (by rw [hp])
  · rw [ht]
    exact update_alike hi (hr.trans h₀.symm) j
  · rw [ht]
    exact update_alike hi ((hpub hr).trans (hpub h₀).symm) j

/-- While a runner is not settled, or one that is not spawned still counts, nothing is due. -/
theorem remaining_pos_of_busy (hi : (s.runners i).busy = true) : 0 < s.remaining := by
  obtain ⟨b, htally, hcount⟩ := h.count
  have hpos := htally.pos hi
  omega

theorem remaining_pos_of_reached (hs : Spawned n s) {k : ℕ} (hk : s.loop.reached = some k) :
    n - k ≤ s.remaining ∧ 0 < n - k := by
  obtain ⟨b, -, hcount⟩ := h.count
  have hlt := hs.lt k hk
  simp only [LoopPc.unspawned, hk, map_some, getD_some] at hcount
  omega

/-- A runner is spawned. -/
theorem spawn (hs : Spawned n s) {k : ℕ} {l : LoopPc χ} {p : Latch} (hl : s.loop = .spawning k)
    (hu : l.unspawned n + 1 = n - k) (hpub : l.publishes = false)
    (hp : p.published = s.latch.published) :
    Joined n { s.put k .working with loop := l, latch := p } := by
  have hk : s.runners k = .unspawned := (hs.unspawned k hl k).mpr le_rfl
  refine ⟨?_, h.right.frame Iff.rfl (update_alike hk rfl) (by rw [hl, hpub]; rfl) hp⟩
  obtain ⟨b, htally, hcount⟩ := h.count
  refine ⟨b + 1, htally.update_enter (RunnerPc.busy · = true) (by simp [hk, RunnerPc.busy]) rfl, ?_⟩
  simp only [hl, LoopPc.unspawned, reached, map_some, getD_some] at hcount
  change s.remaining = b + 1 + l.unspawned n
  omega

/-- A runner settles: its share of `remaining` is gone. -/
theorem settle {won : Bool} {r : RunnerPc α χ} (hi : s.runners i = .settling won)
    (hr : r.busy = false) :
    ∃ b, Tally (fun j => ((s.put i r).runners j).busy = true) b ∧
      s.remaining - 1 = b + s.loop.unspawned n := by
  obtain ⟨b, htally, hcount⟩ := h.count
  have hbusy : (s.runners i).busy = true := by rw [hi]; rfl
  have hpos := htally.pos hbusy
  refine ⟨b - 1, htally.update_leave (RunnerPc.busy · = true) hbusy (by simp [hr]), ?_⟩
  omega

end Joined

variable {s t : State α χ} {n : ℕ}

theorem joined_step (h : Joined n s) (hs : Spawned n s) (hc : Change n true s e t) :
    Joined n t := by
  cases hc with
  | @spawn k hl =>
    refine h.spawn hs hl ?_ rfl rfl
    simp only [LoopPc.unspawned, reached, map_some, getD_some]
    omega
  | @spawnLast k hl =>
    have hlt := hs.lt k (by rw [hl]; rfl)
    refine h.spawn hs hl ?_ rfl rfl
    simp only [LoopPc.unspawned, reached, map_none, getD_none]
    omega
  | spawnFail hl | failWon hl | failLostJoined hl | failWriteJoined hl =>
    exact h.frame rfl (fun _ => rfl) (by rw [hl]; rfl) (fun _ => rfl) (by rw [hl]; rfl) rfl
  | failLost _ _ hj | failWrite _ hj | settleWon _ hj | settleLost _ hj => cases hj
  | @failCountLast k hl hr =>
    have hpos := h.remaining_pos_of_reached hs (by rw [hl]; rfl)
    refine ⟨?_, h.right.grantLoop (by omega) (Nat.sub_eq_zero_of_le hr.le) rfl rfl rfl⟩
    obtain ⟨b, htally, hcount⟩ := h.count
    simp only [hl, LoopPc.unspawned, reached, map_some, getD_some] at hcount
    refine ⟨b, htally, ?_⟩
    change s.remaining - (n - k) = b + 0
    omega
  | @failCount k hl =>
    have hpos := h.remaining_pos_of_reached hs (by rw [hl]; rfl)
    refine ⟨?_, h.right.frame ?_ (fun _ => rfl) (by rw [hl]; rfl) rfl⟩
    · obtain ⟨b, htally, hcount⟩ := h.count
      simp only [hl, LoopPc.unspawned, reached, map_some, getD_some] at hcount
      refine ⟨b, htally, ?_⟩
      change s.remaining - (n - k) = b + 0
      omega
    · change s.remaining - (n - k) = 0 ↔ s.remaining = 0
      omega
  | failPublish hl =>
    refine ⟨?_, h.right.publishLoop Iff.rfl hl rfl rfl rfl⟩
    obtain ⟨b, htally, hcount⟩ := h.count
    rw [hl] at hcount
    exact ⟨b, htally, hcount⟩
  | awaitReady | awaitSuspend | awaitResume | destroy =>
    exact h.frame rfl (fun _ => rfl) rfl (fun _ => rfl) rfl (by simp)
  | finish hi | won hi | lost hi | stamp hi | write hi | writeThrown hi | writeError hi =>
    exact h.put hi rfl (by rfl) rfl rfl rfl rfl
  | @settleLast i won hi hj hr =>
    exact ⟨h.settle hi rfl, h.right.grant (by omega) (Nat.sub_eq_zero_of_le hr.le)
      (by rw [hi]; rfl) rfl rfl rfl⟩
  | @settleJoined i won hi =>
    refine ⟨h.settle hi rfl, h.right.frame ?_ (update_alike hi rfl) rfl rfl⟩
    change s.remaining - 1 = 0 ↔ s.remaining = 0
    omega
  | @publish i hi =>
    refine ⟨?_, h.right.publish Iff.rfl hi ?_ rfl rfl rfl⟩
    · obtain ⟨b, htally, hcount⟩ := h.count
      refine ⟨b, htally.update (RunnerPc.busy · = true) ?_, hcount⟩
      rw [hi]
      split
      all_goals exact Iff.rfl
    · split
      all_goals rfl
  | @wake i hi =>
    refine ⟨?_, h.right.frame Iff.rfl (update_alike hi rfl) rfl (by simp)⟩
    obtain ⟨b, htally, hcount⟩ := h.count
    refine ⟨b, htally.update (RunnerPc.busy · = true) ?_, hcount⟩
    rw [hi]
    exact Iff.rfl

/-! ### Default mode: the winner publishes -/

/-- A winner here has settled. -/
@[simp] def RunnerPc.settled : RunnerPc α χ → Bool
  | .publishing | .waking | .ended => true
  | _ => false

@[simp] def LoopPc.settled : LoopPc χ → Bool
  | .failPublishing | .ended => true
  | _ => false

/-- The winner has written its outcome and settled. -/
@[simp] def Settled (s : State α χ) : List (Winner α χ) → Prop
  | [.runner i _] => (s.runners i).settled = true
  | [.spawner _] => s.loop.settled = true
  | _ => False

theorem settled_congr
    (hr : ∀ i o, wins = [.runner i o] → (t.runners i).settled = (s.runners i).settled)
    (hl : ∀ x, wins = [.spawner x] → t.loop.settled = s.loop.settled) :
    Settled t wins ↔ Settled s wins := by
  match wins with
  | [] => exact Iff.rfl
  | [.runner i o] => rw [Settled, Settled, hr i o rfl]
  | [.spawner x] => rw [Settled, Settled, hl x rfl]
  | .runner _ _ :: _ :: _ | .spawner _ :: _ :: _ => exact Iff.rfl

/-- The winner publishes, and nobody counts. -/
structure Default (s : State α χ) (wins : List (Winner α χ)) : Prop where
  right : Right (Settled s wins) s
  counting : ∀ k, s.loop ≠ .failCounting k

theorem default_init : Default (init n : State α χ) [] :=
  ⟨⟨0, .zero nofun, False.elim, fun _ => rfl⟩, nofun⟩

/-- A spawner that has won is in `failWhenAny` or past it. -/
theorem Race.loop_of_spawner (h : Race s wins thrown) {x : χ} (hx : wins = [.spawner x]) :
    s.loop = .ended ∨ s.loop = .failPublishing ∨ (∃ k, s.loop = .failCounting k) ∨
      ∃ k, s.loop = .failWriting k x := by
  cases (h.finished_of_wins hx).2 with
  | failWriting hl => exact .inr (.inr (.inr ⟨_, hl⟩))
  | failed hl =>
    match hk : s.loop, hl with
    | .ended, _ => exact .inl rfl
    | .failPublishing, _ => exact .inr (.inl rfl)
    | .failCounting k, _ => exact .inr (.inr (.inl ⟨k, rfl⟩))

/-- A runner that has lost is not the winner. -/
theorem Race.not_winner_of_lost (h : Race s wins thrown) {o : Except χ α}
    (hi : s.runners i = .settling false) : wins ≠ [.runner i o] := by
  intro hw
  cases (h.finished_of_wins hw).2 <;> simp_all [RunnerPc.late]

theorem default_step (h : Default s wins) (hs : Spawned n s) (hrace : Race s wins thrown)
    (hc : Change n false s e t) : Default t (wins ++ winsAt s e) := by
  cases hc with simp only [winsAt, List.append_nil]
  | @spawn k hl | @spawnLast k hl =>
    have hu : s.runners k = .unspawned := (hs.unspawned k hl k).mpr le_rfl
    refine ⟨h.right.frame ?_ (update_alike hu rfl) (by rw [hl]; rfl) rfl, by rintro _ ⟨⟩⟩
    refine settled_congr (fun i _ _ => update_alike hu (by rfl) i) fun x hx => ?_
    exact absurd (hrace.loop_of_spawner hx) (by simp [hl])
  | spawnFail hl =>
    refine ⟨h.right.frame ?_ (fun _ => rfl) (by rw [hl]; rfl) rfl, by simp⟩
    exact settled_congr (fun _ _ _ => rfl) fun _ _ => by simp [hl]
  | failWon hl hf =>
    obtain ⟨rfl, -⟩ := hrace.undecided hf
    simp only [hl, hf]
    exact ⟨h.right.frame (by simp) (fun _ => rfl) (by rw [hl]; rfl) rfl, by simp⟩
  | failLost hl hf =>
    simp only [hl, hf, if_true, List.append_nil]
    refine ⟨h.right.frame ?_ (fun _ => rfl) (by rw [hl]; rfl) rfl, by rintro _ ⟨⟩⟩
    refine settled_congr (fun _ _ _ => rfl) fun x hx => ?_
    simpa [hl] using hrace.loop_of_spawner hx
  | failLostJoined _ _ hj | failWriteJoined _ hj | settleLast _ hj | settleJoined _ hj => cases hj
  | failWrite hl =>
    have hw := hrace.spawner _ _ hl
    refine ⟨h.right.grantLoop ?_ ?_ rfl rfl rfl, by simp⟩
    · simp [hw, hl]
    · simp [hw]
  | failCountLast hl | failCount hl => exact absurd hl (h.counting _)
  | failPublish hl =>
    refine ⟨h.right.publishLoop ?_ hl rfl rfl rfl, by rintro _ ⟨⟩⟩
    exact settled_congr (fun _ _ _ => rfl) fun _ _ => by rw [hl]; rfl
  | awaitReady | awaitSuspend | awaitResume | destroy =>
    exact ⟨h.right.frame Iff.rfl (fun _ => rfl) rfl (by simp), h.counting⟩
  | won hi hf =>
    obtain ⟨rfl, -⟩ := hrace.undecided hf
    simp only [hi, hf]
    refine ⟨h.right.frame ?_ (update_alike hi rfl) rfl rfl, h.counting⟩
    simp
  | lost hi hf =>
    simp only [hi, hf, if_true, List.append_nil]
    exact ⟨h.right.frame (settled_congr (fun i _ _ => update_alike hi (by rfl) i) fun _ _ => rfl)
      (update_alike hi rfl) rfl rfl, h.counting⟩
  | finish hi | stamp hi | write hi | writeThrown hi | writeError hi | wake hi =>
    exact ⟨h.right.frame (settled_congr (fun i _ _ => update_alike hi (by rfl) i) fun _ _ => rfl)
      (update_alike hi rfl) rfl (by simp), h.counting⟩
  | @settleWon i hi =>
    obtain ⟨o, hw⟩ := hrace.winner i (by simp [hi])
    refine ⟨h.right.grant ?_ ?_ (by rw [hi]; rfl) rfl rfl rfl, h.counting⟩
    · simp [hw, hi]
    · simp [hw]
  | @settleLost i hi =>
    refine ⟨h.right.frame (settled_congr (fun j o hj => ?_) fun _ _ => rfl) (update_alike hi rfl)
      rfl rfl, h.counting⟩
    have hji : j ≠ i := by
      rintro rfl
      exact hrace.not_winner_of_lost hi hj
    simp [hji]
  | publish hi =>
    refine ⟨h.right.publish (settled_congr (fun i _ _ => update_alike hi ?_ i) fun _ _ => rfl) hi ?_
      rfl rfl rfl, h.counting⟩
    all_goals
      split
      all_goals rfl

end Manwe.WhenAny
