import Manwe.Transition.Tally
import Manwe.Yarn.WhenAll

/-!
# The latch of `whenAll`

Two facts, each kept by every step:

* `Counts`: `remaining` is the number of runners that have not taken their slot off, those never
  spawned included, plus the awaiter's own slot while it has not taken that off;
* `Handle`: the proxy is in `waiterAddr`, in the hand of the one runner that completed the latch, or
  used up.
-/

namespace Manwe.WhenAll

open RunnerPc State Option

variable {α χ : Type*}

/-! ### The latch -/

/-- The runner has not taken its slot off the latch. -/
def RunnerPc.busy : RunnerPc χ → Bool
  | .working | .recording _ | .completing => true
  | _ => false

/-- The first runner that is not spawned, while its slot counts. -/
def LoopPc.reached : LoopPc χ → Option ℕ
  | .spawning k | .failing k _ | .settling k => some k
  | .ended => none

/-- Slots that count although their runners are not spawned. -/
def LoopPc.unspawned (n : ℕ) (l : LoopPc χ) : ℕ := (l.reached.map (n - ·)).getD 0

/-- The awaiter's own slot: still on the latch before `await_suspend` takes it off, and of no
interest once the `left` slots of the runners are gone. -/
def Slot (c : CallerPc) (left slot : ℕ) : Prop := match c with
  | .busy | .awaiting | .suspending | .counting => slot = 1
  | .parked | .destroyed => slot = 0
  | .reclaiming | .resuming | .returned => left = 0

/-- **`remaining` counts the open slots.** -/
structure Counts (n : ℕ) (s : State α χ) : Prop where
  latch : ∃ b slot, Tally (fun i => (s.runners i).busy = true) b ∧
    s.remaining = b + s.loop.unspawned n + slot ∧ Slot s.caller (b + s.loop.unspawned n) slot
  lt : ∀ k, s.loop.reached = some k → k < n
  busy : s.loop ≠ .ended → s.caller = .busy

variable {n : ℕ} {s : State α χ}

/-- A loop goes on, or is left. -/
theorem counts_loopFrom {k b : ℕ} {l : LoopPc χ} (hl : l.reached = some k)
    (hc : s.caller = .busy) (htally : Tally (fun i => (s.runners i).busy = true) b)
    (hr : s.remaining = b + (n - k) + 1) : Counts n (s.loopFrom n k l) := by
  unfold State.loopFrom
  split
  · refine ⟨⟨b, 1, htally, ?_, ?_⟩, ?_, fun _ => hc⟩
    · simpa [LoopPc.unspawned, hl] using hr
    · simp [Slot, hc]
    · intro j hj
      simp only [hl, some.injEq] at hj
      omega
  · refine ⟨⟨b, 1, htally, ?_, rfl⟩, nofun, absurd rfl⟩
    simp only [endLoop, LoopPc.unspawned, LoopPc.reached, map_none, getD_none]
    omega

theorem counts_init (n : ℕ) : Counts n (init n : State α χ) :=
  counts_loopFrom rfl rfl (.zero nofun) (by simp)

namespace Counts

variable {n : ℕ} {s t : State α χ}

variable (h : Counts n s)

include h

/-- Steps that leave the latch alone. -/
theorem frame (hrem : t.remaining = s.remaining) (hb : ∀ i, (t.runners i).busy = (s.runners i).busy)
    (hl : t.loop = s.loop) (hc : t.caller = s.caller) : Counts n t := by
  obtain ⟨b, slot, htally, hcount, hslot⟩ := h.latch
  refine ⟨⟨b, slot, htally.congr fun i => by rw [hb], ?_, ?_⟩, ?_, ?_⟩
  · rw [hrem, hl, hcount]
  · rw [hc, hl]
    exact hslot
  · rw [hl]
    exact h.lt
  · rw [hl, hc]
    exact h.busy

/-- Steps of the awaiter. -/
theorem caller (hl : t.loop = s.loop) (hr : t.runners = s.runners) (hne : s.caller ≠ .busy)
    (hslot : ∀ {left slot}, s.remaining = left + slot → Slot s.caller left slot →
      ∃ slot', t.remaining = left + slot' ∧ Slot t.caller left slot') : Counts n t := by
  obtain ⟨b, slot, htally, hcount, hs⟩ := h.latch
  obtain ⟨slot', hcount', hs'⟩ := hslot hcount hs
  refine ⟨⟨b, slot', hr ▸ htally, hl ▸ hcount', hl ▸ hs'⟩, hl ▸ h.lt, fun hne' => ?_⟩
  exact absurd (h.busy (hl ▸ hne')) hne

variable {i : ℕ}

/-- A runner takes its slot off. -/
theorem complete {r : RunnerPc χ} (hi : s.runners i = .completing)
    (hr : r.busy = false) : Counts n { s.put i r with remaining := s.remaining - 1 } := by
  obtain ⟨b, slot, htally, hcount, hslot⟩ := h.latch
  have hbusy : (s.runners i).busy = true := by rw [hi]; rfl
  have hpos := htally.pos hbusy
  refine ⟨⟨b - 1, slot, ?_, ?_, ?_⟩, h.lt, h.busy⟩
  · exact htally.update_leave (RunnerPc.busy · = true) hbusy (by simp [hr])
  · change s.remaining - 1 = b - 1 + s.loop.unspawned n + slot
    omega
  · change Slot s.caller (b - 1 + s.loop.unspawned n) slot
    unfold Slot at hslot ⊢
    split at hslot
    case h_1 | h_2 | h_3 | h_4 | h_5 | h_6 => exact hslot
    all_goals omega

/-- While a runner is busy, the awaiter has not gone on. -/
theorem not_past (hi : (s.runners i).busy = true) :
    0 < s.remaining ∧ s.caller ≠ .reclaiming ∧ s.caller ≠ .resuming ∧ s.caller ≠ .returned := by
  obtain ⟨b, slot, htally, hcount, hslot⟩ := h.latch
  have hpos := htally.pos hi
  refine ⟨by omega, ?_, ?_, ?_⟩
  all_goals
    intro hc
    simp only [Slot, hc] at hslot
    omega

/-- The runner that completes the latch finds the awaiter registered. -/
theorem registered (hi : (s.runners i).busy = true)
    (hr : s.remaining = 1) : s.caller = .parked ∨ s.caller = .destroyed := by
  obtain ⟨b, slot, htally, hcount, hslot⟩ := h.latch
  have hpos := htally.pos hi
  unfold Slot at hslot
  split at hslot
  case h_5 hc => exact .inl hc
  case h_6 hc => exact .inr hc
  all_goals omega

end Counts

variable {t : State α χ} {e : Event α χ}

theorem counts_step (h : Counts n s) (hu : ∀ k, s.loop = .spawning k → s.runners k = .unspawned)
    (hz : ∀ i, s.runners i = .waking → s.proxy ≠ .killed → s.remaining = 0) (hc : Change n s e t) :
    Counts n t := by
  obtain ⟨b, slot, htally, hcount, hslot⟩ := h.latch
  -- in the loops the awaiter's slot is still on the latch
  have hloop {k : ℕ} (hk : s.loop.reached = some k) :
      s.caller = .busy ∧ s.remaining = b + (n - k) + 1 ∧ k < n := by
    have hb : s.caller = .busy := h.busy fun hl => by simp [hl, LoopPc.reached] at hk
    simp only [Slot, hb] at hslot
    simp only [LoopPc.unspawned, hk, map_some, getD_some, hslot] at hcount
    exact ⟨hb, hcount, h.lt k hk⟩
  cases hc with
  | @spawn k hl =>
    obtain ⟨hb, hrem, hlt⟩ := hloop (by rw [hl]; rfl)
    refine counts_loopFrom rfl hb
      (htally.update_enter (RunnerPc.busy · = true) (by rw [hu k hl]; nofun) rfl) ?_
    change s.remaining = b + 1 + (n - (k + 1)) + 1
    omega
  | @spawnFail k x hl =>
    obtain ⟨hb, hrem, hlt⟩ := hloop (by rw [hl]; rfl)
    refine ⟨⟨b, 1, htally, hrem, by simp [Slot, hb]⟩, ?_, fun _ => hb⟩
    rintro _ ⟨⟩
    exact hlt
  | @failRecord k x hl =>
    obtain ⟨hb, hrem, -⟩ := hloop (by rw [hl]; rfl)
    exact counts_loopFrom rfl hb htally hrem
  | @failComplete j hl =>
    obtain ⟨hb, hrem, hlt⟩ := hloop (by rw [hl]; rfl)
    refine counts_loopFrom rfl hb htally ?_
    change s.remaining - 1 = b + (n - (j + 1)) + 1
    omega
  | ready hc =>
    refine h.caller rfl rfl (by simp [hc]) fun {left slot} hrem hs => ⟨slot, hrem, ?_⟩
    simp only [Slot, hc] at hs ⊢
    omega
  | notReady hc | store hc | reclaim hc | awaitResume hc | destroy hc | destroyTaken hc =>
    refine h.caller rfl rfl (by simp [hc]) fun {left slot} hrem hs => ⟨slot, hrem, ?_⟩
    simpa [Slot, hc] using hs
  | countLast hc =>
    refine h.caller rfl rfl (by simp [hc]) fun {left slot} hrem hs => ⟨0, ?_, ?_⟩
    · simp only [Slot, hc] at hs
      change s.remaining - 1 = left + 0
      omega
    · simp only [Slot, hc] at hs ⊢
      omega
  | count hc =>
    refine h.caller rfl rfl (by simp [hc]) fun {left slot} hrem hs => ⟨0, ?_, rfl⟩
    simp only [Slot, hc] at hs
    change s.remaining - 1 = left + 0
    omega
  | finish hi | finishError hi | record hi | take hi | takeNone hi | wakeKilled hi =>
    exact h.frame rfl (update_alike hi rfl) rfl rfl
  | completeLast hi | complete hi => exact h.complete hi rfl
  | @wake i hi hk =>
    have hrem := hz i hi hk
    refine ⟨⟨b, slot, ?_, hcount, ?_⟩, h.lt, fun hl => ?_⟩
    · exact htally.update (RunnerPc.busy · = true) (by rw [hi]; exact Iff.rfl)
    · change b + s.loop.unspawned n = 0
      omega
    · simp only [Slot, h.busy hl] at hslot
      omega

/-! ### The caller's handle -/

def RunnerPc.takes : RunnerPc χ → Bool
  | .taking => true
  | _ => false

def RunnerPc.wakes : RunnerPc χ → Bool
  | .waking => true
  | _ => false

/-- The step resumes the caller through its proxy. -/
def resumesAt (s : State α χ) : Event α χ → List ℕ
  | .wake i => if s.proxy = .killed then [] else [i]
  | _ => []

/-- **Where the proxy is**: `takers` runners have completed the latch and look for it, `wakers`
have it in hand, and the caller has been resumed through it `resumes` times. -/
def Holds (s : State α χ) (takers wakers resumes : ℕ) : Prop := match s.caller with
  | .busy | .awaiting | .suspending =>
    s.waiterAddr = false ∧ s.parked = false ∧ takers = 0 ∧ wakers = 0 ∧ resumes = 0
  | .counting | .reclaiming =>
    s.waiterAddr = true ∧ s.proxy = .parked ∧ s.parked = true ∧ takers = 0 ∧ wakers = 0 ∧
      resumes = 0
  | .parked =>
    s.proxy = .parked ∧ s.parked = true ∧ resumes = 0 ∧
      takers + wakers = (if s.remaining = 0 then 1 else 0) ∧ s.waiterAddr = decide (wakers = 0)
  | .resuming | .returned =>
    s.waiterAddr = false ∧ takers = 0 ∧ wakers = 0 ∧ resumes = s.parked.toNat
  | .destroyed => s.waiterAddr = false ∧ resumes = 0 ∧ (wakers = 0 ∨ s.proxy = .killed)

/-- The caller's handle is in one place. -/
def Handle (s : State α χ) (resumes : ℕ) : Prop :=
  ∃ p f, Tally (fun i => (s.runners i).takes = true) p ∧
    Tally (fun i => (s.runners i).wakes = true) f ∧ Holds s p f resumes

theorem handle_init (n : ℕ) : Handle (init n : State α χ) 0 := by
  unfold init spawnFrom State.loopFrom
  split
  · exact ⟨0, 0, .zero nofun, .zero nofun, rfl, rfl, rfl, rfl, rfl⟩
  · exact ⟨0, 0, .zero nofun, .zero nofun, rfl, rfl, rfl, rfl, rfl⟩

namespace Handle

variable {s t : State α χ} {resumes : ℕ}

/-- Steps besides the handshake. -/
theorem frame (h : Handle s resumes) (ht : ∀ i, (t.runners i).takes = (s.runners i).takes)
    (hw : ∀ i, (t.runners i).wakes = (s.runners i).wakes)
    (hh : ∀ {p f}, Holds s p f resumes → Holds t p f resumes) : Handle t resumes := by
  obtain ⟨p, f, hp, hf, hholds⟩ := h
  exact ⟨p, f, hp.congr fun i => by rw [ht], hf.congr fun i => by rw [hw], hh hholds⟩

/-- A runner that is about to run the proxy has found the latch complete. -/
theorem remaining_of_wakes {i : ℕ} (h : Handle s resumes) (hi : s.runners i = .waking)
    (hk : s.proxy ≠ .killed) : s.remaining = 0 ∧ s.caller = .parked := by
  obtain ⟨p, f, -, hf, hholds⟩ := h
  have hpos := hf.pos (by rw [hi]; rfl)
  unfold Holds at hholds
  split at hholds
  case h_6 hc =>
    obtain ⟨-, -, -, hsum, -⟩ := hholds
    refine ⟨?_, hc⟩
    by_contra hne
    rw [if_neg hne] at hsum
    omega
  case h_9 =>
    obtain ⟨-, -, h0 | hx⟩ := hholds
    · omega
    · exact absurd hx hk
  all_goals omega

/-- A loop goes on, or is left. -/
theorem loopFrom {n k : ℕ} {l : LoopPc χ} (h : Handle s resumes) (hc : s.caller = .busy) :
    Handle (s.loopFrom n k l) resumes := by
  obtain ⟨p, f, hp, hf, hholds⟩ := h
  unfold State.loopFrom
  split
  · exact ⟨p, f, hp, hf, hholds⟩
  · refine ⟨p, f, hp, hf, ?_⟩
    simp only [Holds, hc] at hholds
    exact hholds

section Latch

variable {n i : ℕ} (h : Handle s resumes)

include h

/-- A runner takes its slot off, and others are left. -/
theorem complete (hi : s.runners i = .completing) (hr : s.remaining ≠ 1) :
    Handle { s.put i .ended with remaining := s.remaining - 1 } resumes := by
  refine h.frame (update_alike hi rfl) (update_alike hi rfl) fun hh => ?_
  have h0 : s.remaining - 1 = 0 ↔ s.remaining = 0 := by omega
  unfold Holds at hh ⊢
  simp only [put, h0]
  exact hh

/-- A runner completes the latch: the awaiter is registered, and the runner is to look for it. -/
theorem completeLast (hn : Counts n s) (hi : s.runners i = .completing) (hr : s.remaining = 1) :
    Handle { s.put i .taking with remaining := s.remaining - 1 } resumes := by
  obtain ⟨p, f, hp, hf, hh⟩ := h
  refine ⟨p + 1, f, ?_, ?_, ?_⟩
  · exact hp.update_enter (takes · = true) (by rw [hi]; nofun) rfl
  · exact hf.update (wakes · = true) (by rw [hi]; exact Iff.rfl)
  · rcases hn.registered (by rw [hi]; rfl) hr with hc | hc
    · simp only [Holds, hc, hr] at hh
      obtain ⟨hx, hpk, hk, hsum, hw⟩ := hh
      rw [if_neg (by decide)] at hsum
      simp only [Holds, put, hc]
      refine ⟨hx, hpk, hk, ?_, hw⟩
      rw [if_pos (by omega)]
      omega
    · simp only [Holds, hc] at hh
      simp only [Holds, put, hc]
      exact hh

/-- The runner finds the proxy. -/
theorem take (hi : s.runners i = .taking) (hw : s.waiterAddr = true) :
    Handle { s.put i .waking with waiterAddr := false } resumes := by
  obtain ⟨p, f, hp, hf, hh⟩ := h
  have hpos := hp.pos (by rw [hi]; rfl)
  refine ⟨p - 1, f + 1, ?_, ?_, ?_⟩
  · exact hp.update_leave (takes · = true) (by rw [hi]; rfl) nofun
  · exact hf.update_enter (wakes · = true) (by rw [hi]; nofun) rfl
  · cases hc : s.caller with simp only [Holds, hc, hw] at hh
    | parked =>
      obtain ⟨hx, hpk, hk, hsum, -⟩ := hh
      simp only [Holds, put, hc]
      exact ⟨hx, hpk, hk, by omega, by simp⟩
    | destroyed => simp at hh
    | _ => omega

/-- The runner finds nothing: the awaiter is gone. -/
theorem takeNone (hi : s.runners i = .taking) (hw : s.waiterAddr = false) :
    Handle (s.put i .ended) resumes := by
  obtain ⟨p, f, hp, hf, hh⟩ := h
  have hpos := hp.pos (by rw [hi]; rfl)
  refine ⟨p - 1, f, ?_, ?_, ?_⟩
  · exact hp.update_leave (takes · = true) (by rw [hi]; rfl) nofun
  · exact hf.update (wakes · = true) (by rw [hi]; exact Iff.rfl)
  · cases hc : s.caller with simp only [Holds, hc, hw] at hh
    | parked =>
      obtain ⟨-, -, -, hsum, hf0⟩ := hh
      have hne : f ≠ 0 := by simpa using hf0.symm
      split at hsum
      all_goals omega
    | destroyed =>
      simp only [Holds, put, hc]
      exact ⟨hw, hh.2⟩
    | _ => omega

/-- **The proxy is run once**, and resumes the caller if it is still there. -/
theorem wake (hi : s.runners i = .waking) (hk : s.proxy ≠ .killed) :
    Handle { s.put i .ended with proxy := .resumed, caller := .resuming } (resumes + 1) := by
  obtain ⟨hrem, hc⟩ := h.remaining_of_wakes hi hk
  obtain ⟨p, f, hp, hf, hh⟩ := h
  have hpos := hf.pos (by rw [hi]; rfl)
  simp only [Holds, hc, hrem, if_true] at hh
  obtain ⟨-, hpk, rfl, hsum, hw⟩ := hh
  refine ⟨p, f - 1, ?_, ?_, ?_⟩
  · exact hp.update (takes · = true) (by rw [hi]; exact Iff.rfl)
  · exact hf.update_leave (wakes · = true) (by rw [hi]; rfl) nofun
  · refine ⟨?_, by omega, by omega, ?_⟩
    · change s.waiterAddr = false
      rw [hw, decide_eq_false (by omega)]
    · change 0 + 1 = s.parked.toNat
      rw [hpk]
      rfl

theorem wakeKilled (hi : s.runners i = .waking) (hk : s.proxy = .killed) :
    Handle (s.put i .ended) resumes := by
  obtain ⟨p, f, hp, hf, hh⟩ := h
  have hpos := hf.pos (by rw [hi]; rfl)
  refine ⟨p, f - 1, ?_, ?_, ?_⟩
  · exact hp.update (takes · = true) (by rw [hi]; exact Iff.rfl)
  · exact hf.update_leave (wakes · = true) (by rw [hi]; rfl) nofun
  · cases hc : s.caller with simp only [Holds, hc] at hh
    | parked => simp [hk] at hh
    | destroyed =>
      simp only [Holds, put, hc]
      exact ⟨hh.1, hh.2.1, .inr hk⟩
    | _ => omega

end Latch

end Handle

theorem handle_step {resumes : ℕ} (h : Handle s resumes) (hn : Counts n s)
    (hu : ∀ k, s.loop = .spawning k → s.runners k = .unspawned) (hc : Change n s e t) :
    Handle t (resumes + (resumesAt s e).length) := by
  have hbusy {k : ℕ} (hk : s.loop.reached = some k) : s.caller = .busy :=
    hn.busy fun hl => by simp [hl, LoopPc.reached] at hk
  cases hc with simp only [resumesAt, List.length_nil, Nat.add_zero]
  | @spawn k hl =>
    have hb := hbusy (by rw [hl]; rfl)
    refine Handle.loopFrom ?_ hb
    exact h.frame (update_alike (hu k hl) rfl) (update_alike (hu k hl) rfl) id
  | @spawnFail => exact h.frame (fun _ => rfl) (fun _ => rfl) id
  | @failRecord k x hl =>
    have hb := hbusy (by rw [hl]; rfl)
    refine Handle.loopFrom ?_ hb
    exact h.frame (fun _ => rfl) (fun _ => rfl) id
  | @failComplete j hl =>
    have hb := hbusy (by rw [hl]; rfl)
    refine Handle.loopFrom ?_ hb
    refine h.frame (fun _ => rfl) (fun _ => rfl) fun hh => ?_
    simpa [Holds, hb] using hh
  | ready hc =>
    refine h.frame (fun _ => rfl) (fun _ => rfl) fun hh => ?_
    simp only [Holds, hc] at hh
    obtain ⟨hw, hp, h1, h2, h3⟩ := hh
    exact ⟨hw, h1, h2, by simp [hp, h3]⟩
  | notReady hc | countLast hc | awaitResume hc =>
    refine h.frame (fun _ => rfl) (fun _ => rfl) fun hh => ?_
    simpa [Holds, hc] using hh
  | store hc | reclaim hc | destroyTaken hc hw =>
    refine h.frame (fun _ => rfl) (fun _ => rfl) fun hh => ?_
    simp only [Holds, hc] at hh
    first | exact ⟨rfl, rfl, rfl, hh.2.2⟩ | exact ⟨rfl, hh.2.2.2⟩ | exact ⟨hw, hh.2.2.1, .inr rfl⟩
  | count hc =>
    obtain ⟨b, slot, -, hcount, hslot⟩ := hn.latch
    simp only [Slot, hc] at hslot
    refine h.frame (fun _ => rfl) (fun _ => rfl) fun hh => ?_
    simp only [Holds, hc] at hh
    obtain ⟨hw, hx, hp, rfl, rfl, hk⟩ := hh
    have hne : s.remaining - 1 ≠ 0 := by omega
    exact ⟨hx, hp, hk, (if_neg hne).symm, by simp [hw]⟩
  | destroy hc hw =>
    refine h.frame (fun _ => rfl) (fun _ => rfl) fun hh => ?_
    simp only [Holds, hc, hw] at hh
    obtain ⟨-, -, hk, -, hf⟩ := hh
    exact ⟨rfl, hk, .inl (by simpa using hf.symm)⟩
  | finish hi | finishError hi | record hi =>
    exact h.frame (update_alike hi rfl) (update_alike hi rfl) id
  | completeLast hi hr => exact h.completeLast hn hi hr
  | complete hi hr => exact h.complete hi hr
  | take hi hw => exact h.take hi hw
  | takeNone hi hw => exact h.takeNone hi hw
  | wake hi hk =>
    rw [if_neg hk]
    exact h.wake hi hk
  | wakeKilled hi hk =>
    rw [if_pos hk]
    exact h.wakeKilled hi hk

end Manwe.WhenAll
