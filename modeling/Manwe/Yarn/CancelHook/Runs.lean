import Manwe.Transition.Tally
import Manwe.Yarn.CancelHook.Scan

/-!
# Chain cancellation, run after run

In every run in which the callers keep their promise and there is memory for the slots, a request
misses no hook, and nobody touches a hook after its disarm. Without memory for the slots the second
part fails: `runTakenHooks` then works through the hooks sixteen at a time, and one that still waits
for a slot while the first sixteen callbacks run cannot be marked.
-/

namespace Manwe.CancelHook

open Function List Bool RequestPc State Hook Event Nat Option

variable {τ ι ρ θ : Type*}

/-! ### Pins -/

/-- The requester pins `x`. -/
def RequestPc.pins (x : τ) : RequestPc τ ι θ → Prop
  | .pinned _ y | .walking _ y | .unpinning _ y _ => y = x
  | _ => False

theorem RequestPc.pins_mark [DecidableEq ι] (h : ι) (x : τ) (pc : RequestPc τ ι θ) :
    (pc.mark h).pins x ↔ pc.pins x := by
  cases pc <;> rfl

variable {h : ι}

theorem RequestPc.walking_of_mark [DecidableEq ι] {pc : RequestPc τ ι θ} {u : θ} {x : τ}
    (hp : pc.mark h = .walking u x) : pc = .walking u x := by
  cases pc with
  | firing => cases hp
  | _ => exact hp

/-- **The handshake of the final suspend.** -/
structure Pinned (s : State τ ι ρ θ) : Prop where
  count : ∀ x, Tally (fun r => (s.requests r).pins x) (s.pins x)
  passed : ∀ x, s.passed x = true → s.finishing x = true
  walking : ∀ r u x, s.requests r = .walking u x → s.passed x = false

theorem Pinned.init : Pinned ({} : State τ ι ρ θ) where
  count _ := .zero fun _ => id
  passed _ := nofun
  walking _ _ _ := nofun

variable [DecidableEq τ] [DecidableEq ι] [DecidableEq ρ] {t : State τ ι ρ θ} {e : Event τ ι ρ θ}

variable {F : Forest τ} {s : State τ ι ρ θ}

theorem pins_step (h : ∀ x, Tally (fun r => (s.requests r).pins x) (s.pins x)) (hc : Change F s e t)
    (x : τ) : Tally (fun r => (t.requests r).pins x) (t.pins x) := by
  have hkeep {r : ρ} {p q : RequestPc τ ι θ} (hq : s.requests r = q) (hpq : p.pins x ↔ q.pins x) :
      Tally (fun r' => (update s.requests r p r').pins x) (s.pins x) :=
    (h x).update (pins x) (by rw [hq, hpq])
  cases hc with
  | request hq | load hq _ | loadFinishing hq _ | take hq | aim _ hq _ _ _ | skip _ hq | fire hq
  | fired hq => exact hkeep hq Iff.rfl
  | @pin r u y hq =>
    obtain rfl | hx := eq_or_ne x y
    · simp only [putRequest, update_self]
      exact (h x).update_enter (pins x) (by rw [hq]; exact id) rfl
    · simp only [putRequest, update_of_ne hx]
      exact hkeep hq (iff_of_false (Ne.symm hx) id)
  | @unpin r u y taken hq =>
    obtain rfl | hx := eq_or_ne x y
    · simp only [putRequest, update_self]
      exact (h x).update_leave (pins x) (by rw [hq]; rfl) id
    · simp only [putRequest, update_of_ne hx]
      exact hkeep hq (iff_of_false id (Ne.symm hx))
  | @checkMark i _ _ _ _ =>
    rw [s.markSlot_eta i]
    refine (h x).congr fun r => ?_
    show ((s.markSlot i).requests r).pins x ↔ (s.requests r).pins x
    rcases s.requests_markSlot i r with hq | hq <;> rw [hq]
    exact pins_mark i x _
  | _ => exact h x

theorem Pinned.step (h : Pinned s) (hc : Change F s e t) : Pinned t where
  count := pins_step h.count hc
  passed x hx := by
    cases hc with
    | @finish y _ =>
      obtain rfl | hxy := eq_or_ne x y
      · exact update_self ..
      · exact (update_of_ne hxy _ _).trans (h.passed x hx)
    | @pass y hf _ =>
      by_cases hxy : x = y
      · exact hxy ▸ hf
      · exact h.passed x ((update_of_ne hxy _ _).symm.trans hx)
    | @checkMark i =>
      rw [s.markSlot_eta i] at hx ⊢
      exact h.passed x hx
    | _ => exact h.passed x hx
  walking r u x hr := by
    have hput {r' : ρ} {p : RequestPc τ ι θ} (ht : t.requests = update s.requests r' p)
        (hp : p ≠ .walking u x) : s.passed x = false := by
      rw [ht] at hr
      exact (of_update hr).elim (fun hr => absurd hr.2 hp) fun hr => h.walking r u x hr.2
    cases hc with
    | request | pin | loadFinishing | take | unpin | aim | skip | fire | fired =>
      exact hput rfl nofun
    | @load r' u' y hq hf =>
      obtain rfl | hrr := eq_or_ne r r'
      · simp only [putRequest, update_self] at hr
        cases hr
        refine not_eq_true _ ▸ fun hp => ?_
        rw [h.passed x hp] at hf
        cases hf
      · simp only [putRequest, update_of_ne hrr] at hr
        exact h.walking r u x hr
    | @pass y hf hp =>
      obtain rfl | hxy := eq_or_ne x y
      · have hpin : (s.requests r).pins x := by
          rw [show s.requests r = .walking u x from hr]
          rfl
        exact absurd hp (Nat.pos_iff_ne_zero.mp ((h.count x).pos hpin))
      · exact (update_of_ne hxy _ _).trans (h.walking r u x hr)
    | @checkMark i =>
      rw [s.markSlot_eta i]
      refine h.walking r u x ?_
      rcases s.requests_markSlot i r with hq | hq
      · exact hq ▸ hr
      · exact walking_of_mark (hq ▸ hr)
    | _ => exact h.walking r u x hr

/-! ### Runs -/

/-- Hook `h` is linked, or will be. -/
@[simp] def Hook.linkable (k : Hook τ ρ θ) : Bool := k.arm.fresh || k.root.isSome

/-- The step takes hook `h` out of the list, for this requester. -/
def takesAt (F : Forest τ) (h : ι) (s : State τ ι ρ θ) : Event τ ι ρ θ → List ρ
  | .take r =>
    match s.requests r with
    | .walking _ x => if h ∈ s.taken F x then [r] else []
    | _ => []
  | _ => []

omit [DecidableEq ρ] in
theorem linkable_of_moves {k : Hook τ ρ θ} (hm : Moves F s e h k) (hk : k.linkable = true) :
    (s.hooks h).linkable = true := by
  have hroot (ha : k.arm.fresh = false) (hr : k.root = (s.hooks h).root) :
      (s.hooks h).linkable = true := by
    rw [linkable, ha, Bool.false_or, hr] at hk
    rw [linkable, hk, Bool.or_true]
  have hgone (ha : k.arm = (s.hooks h).arm) (hr : k.root = none) : (s.hooks h).linkable = true := by
    rw [linkable, hr, isSome_none, Bool.or_false, ha] at hk
    rw [linkable, hk, Bool.true_or]
  cases hm with
  | keep hr _ ha => rwa [linkable, hr, ha] at hk
  | arm _ _ _ _ hs => rw [linkable, hs, ArmPc.fresh, Bool.true_or]
  | link _ _ _ _ hf => rw [linkable, hf, Bool.true_or]
  | read _ _ ha _ hr | readEnd _ _ hr ha | run _ _ hr ha | armed _ _ hr ha =>
    exact hroot (by rw [ha]; rfl) hr
  | unlink _ _ hr ha | take _ _ _ hr _ ha => exact hgone ha hr

/-- Once taken a hook is not linked again. -/
theorem takes_step (hp : Places F s) (hc : Change F s e t) (h : ι) :
    (takesAt F h s e).length + (t.hooks h).linkable.toNat ≤ (s.hooks h).linkable.toNat := by
  have hle : (t.hooks h).linkable.toNat ≤ (s.hooks h).linkable.toNat :=
    toNat_le_toNat fun hk => linkable_of_moves (moves_of_change hc h) hk
  cases hc with
  | @take r u x hq =>
    by_cases hmem : h ∈ s.taken F x
    · have hroot := (hp.mem_taken.mp hmem).1
      have hs : (s.hooks h).linkable = true := by simp [isSome_iff_ne_none, hroot]
      have hfresh : (s.hooks h).arm.fresh = false :=
        not_eq_true _ ▸ fun hf => hroot (hp.fresh h hf).1
      have ht : ((s.takeChainHooks F u x).hooks h).linkable = false := by
        simp [hmem, Hook.take, hfresh]
      simp only [takesAt, hq, if_pos hmem, length_singleton, putRequest, ht, hs]
      decide
    · simp [takesAt, hq, hmem]
  | skip he =>
    rcases he with rfl | rfl <;> simp only [takesAt, length_nil, Nat.zero_add] <;> exact hle
  | _ =>
    simp only [takesAt, length_nil, Nat.zero_add]
    exact hle

variable [DecidableEq θ]

/-- A disarm of `h` returns at the step, on this thread. -/
def disarmsAt (F : Forest τ) (h : ι) (s : State τ ι ρ θ) (e : Event τ ι ρ θ) : List θ :=
  if (s.hooks h).disarm.busy then
    match step F s e with
    | some t =>
      match (t.hooks h).disarm with
      | .returned a => [a]
      | _ => []
    | none => []
  else []

variable {F : Forest τ} {s : State τ ι ρ θ} {tr : List (State τ ι ρ θ × Event τ ι ρ θ)}

theorem mem_disarmsAt {a : θ} (ha : a ∈ disarmsAt F h s e) (hs : step F s e = some t) :
    (s.hooks h).disarm.busy = true ∧ (t.hooks h).disarm = .returned a := by
  simp only [disarmsAt, hs] at ha
  split at ha
  · refine ⟨‹_›, ?_⟩
    split at ha
    · rename_i hd
      rw [hd, mem_singleton.mp ha]
    · cases ha
  · cases ha

/-- What holds in every state of a run. -/
structure Inv (F : Forest τ) (tr : List (State τ ι ρ θ × Event τ ι ρ θ)) (s : State τ ι ρ θ) :
    Prop where
  places : Places F s
  pinned : Pinned s
  calm : ∀ h, (s.hooks h).Calm
  aimed : ∀ r, (s.requests r).Aimed s.hooks r
  scan : Scan F (fun h => logOf (runsAt h) tr ≠ []) s
  takes : ∀ h, (logOf (takesAt F h) tr).length + (s.hooks h).linkable.toNat ≤ 1
  free : ∀ h a, a ∈ logOf (disarmsAt F h) tr → Free s h a

theorem inv_init (F : Forest τ) : Inv F [] ({} : State τ ι ρ θ) where
  places := .init
  pinned := .init
  calm _ := trivial
  aimed _ := trivial
  scan := .init
  takes _ := by simp [ArmPc.fresh]
  free _ _ := nofun

theorem inv_step (h : Inv F tr s) (ho : Owned F s e) (hm : Slotted s e) (hs : step F s e = some t) :
    Inv F (tr ++ [(s, e)]) t := by
  have hc := change_of_step hs
  have hcalm := calm_step h.calm ho hc
  refine ⟨h.places.step hc, h.pinned.step hc, hcalm, aimed_step h.places h.aimed hm hc,
    h.scan.step h.places ho (fun i hi => ?_) (fun i u hu => ?_) hc, fun i => ?_, fun i a ha => ?_⟩
  · simp [hi]
  · simp [ne_nil_of_mem hu]
  · have htakes := takes_step h.places hc i
    have hbound := h.takes i
    rw [logOf_snoc, length_append]
    omega
  · rw [logOf_snoc] at ha
    rcases mem_append.mp ha with ha | ha
    · exact (h.free i a ha).step h.places ho hc
    · obtain ⟨hbusy, hret⟩ := mem_disarmsAt ha hs
      exact .of_returned h.places (hcalm i) h.aimed ho hc hbusy hret

theorem inv_run (hr : Run (step F) {} tr s) (ho : ∀ p ∈ tr, Owned F p.1 p.2)
    (hm : ∀ p ∈ tr, Slotted p.1 p.2) : Inv F tr s := by
  refine hr.induct (fun s e => Owned F s e ∧ Slotted s e) (fun p hp => ⟨ho p hp, hm p hp⟩)
    (inv_init F) fun _ _ ih hok hs => ?_
  exact inv_step ih hok.1 hok.2 hs

/-! ### Requesters go on -/

namespace RequestPc

/-- A bound on the steps left to a requester that has scanned the list. -/
def ahead : RequestPc τ ι θ → ℕ
  | .unpinning _ _ taken => 4 * taken.length + 1
  | .firing _ _ taken slots running => 4 * taken.length + 2 * slots.length - running.toNat
  | _ => 0

omit [DecidableEq τ] [DecidableEq θ] in
theorem ahead_mark (h : ι) (pc : RequestPc τ ι θ) : (pc.mark h).ahead = pc.ahead := by
  cases pc with
  | firing => simp [mark, ahead]
  | _ => rfl

/-- The call has returned. -/
def completed (x : τ) : RequestPc τ ι θ → Prop
  | .firing _ y taken slots _ => y = x ∧ taken = [] ∧ slots = []
  | _ => False

variable {x : τ} {pc : RequestPc τ ι θ}

omit [DecidableEq τ] [DecidableEq ι] [DecidableEq θ] in
theorem completed.scanned_eq (h : pc.completed x) : pc.scanned = some x := by
  cases pc with
  | firing => exact congrArg some h.1
  | _ => exact h.elim

omit [DecidableEq τ] [DecidableEq ι] [DecidableEq θ] in
theorem completed.not_holds (h : pc.completed x) (i : ι) : ¬ pc.holds i := by
  cases pc with
  | firing => simp [h.2.1, h.2.2]
  | _ => exact h.elim

end RequestPc

/-- The requester that takes the step. -/
def Event.requester : Event τ ι ρ θ → Option ρ
  | .request r _ _ | .pin r | .load r | .take r | .unpin r | .aim r _ | .fire r | .fired r => some r
  | _ => none

/-- A requester that has hooks to deal with can take a step. -/
theorem exists_step_of_holds (F : Forest τ) {s : State τ ι ρ θ} {r : ρ}
    (ha : (s.requests r).Aimed s.hooks r) (hh : (s.requests r).holds h) :
    ∃ e t, requester e = some r ∧ step F s e = some t := by
  cases hr : s.requests r with rw [hr] at ha hh
  | unpinning => exact ⟨.unpin r, _, rfl, by simp only [step, hr]; rfl⟩
  | firing u y taken slots running =>
    obtain _ | ⟨⟨i, _ | _⟩, slots⟩ := slots
    · obtain _ | ⟨i, taken⟩ := taken
      · simp at hh
      · cases running with
        | true => cases ha.1 (.inr rfl)
        | false => exact ⟨.aim r false, _, rfl, by simp only [step, hr]; rfl⟩
    all_goals
      cases running with
      | true => exact ⟨.fired r, _, rfl, by simp only [step, hr]; rfl⟩
      | false => exact ⟨.fire r, _, rfl, by simp only [step, hr]; rfl⟩
  | idle | flagged | pinned | walking => exact hh.elim

omit [DecidableEq θ] in
/-- Every step of its own brings it closer to its end, and no other step takes it away from it. -/
theorem ahead_step {F : Forest τ} {s : State τ ι ρ θ} (hc : Change F s e t) {r : ρ}
    (hh : (s.requests r).holds h) :
    (t.requests r).ahead ≤ (s.requests r).ahead ∧
      (requester e = some r → (t.requests r).ahead < (s.requests r).ahead) := by
  have hput {r' : ρ} {p q : RequestPc τ ι θ} (hq : s.requests r' = q)
      (ht : t.requests = update s.requests r' p) (he : requester e = some r')
      (hpq : q.holds h → p.ahead < q.ahead) : (t.requests r).ahead ≤ (s.requests r).ahead ∧
      (requester e = some r → (t.requests r).ahead < (s.requests r).ahead) := by
    obtain rfl | hrr := eq_or_ne r r'
    · rw [ht, update_self, hq]
      rw [hq] at hh
      exact ⟨le_of_lt (hpq hh), fun _ => hpq hh⟩
    · rw [ht, update_of_ne hrr]
      exact ⟨le_refl _, fun her => absurd (some.inj (her.symm.trans he)) hrr⟩
  cases hc with
  | request hq | pin hq | load hq | loadFinishing hq | take hq =>
    exact hput hq rfl rfl False.elim
  | unpin hq => exact hput hq rfl rfl fun _ => by simp [ahead]
  | @aim _ _ _ taken _ n hq hpos hne _ =>
    refine hput hq rfl rfl fun _ => ?_
    have hlen : 0 < taken.length := length_pos_iff.mpr hne
    simp only [ahead, length_drop, length_map, length_take, length_nil, toNat_false]
    omega
  | @skip _ _ _ _ _ slots running _ he hq =>
    refine hput hq rfl (by rcases he with rfl | rfl <;> rfl) fun _ => ?_
    have := toNat_le running
    simp only [ahead, length_cons, toNat_false]
    omega
  | fire hq | fired hq =>
    refine hput hq rfl rfl fun _ => ?_
    simp only [ahead, length_cons, toNat_false, toNat_true]
    omega
  | @checkMark i _ _ _ _ =>
    refine ⟨le_of_eq ?_, by rintro ⟨⟩⟩
    show ((s.markSlot i).requests r).ahead = _
    rcases s.requests_markSlot i r with hq | hq <;> rw [hq]
    exact ahead_mark i _
  | _ => exact ⟨le_refl _, by rintro ⟨⟩⟩

/-! ### The promise -/

/-- The callback of `h` runs on thread `b`. -/
def State.runs (s : State τ ι ρ θ) (h : ι) (b : θ) : Prop := (s.hooks h).arm = .inline b ∨
    ∃ r y taken m slots, s.requests r = .firing b y taken ((h, m) :: slots) true

/-- **A request misses no hook and outlives none.** -/
structure Promise (F : Forest τ) (tr : List (State τ ι ρ θ × Event τ ι ρ θ))
    (s : State τ ι ρ θ) : Prop where
  /-- When a request on `x` has completed, the callback of an armed hook at or below `x` was
  started, or another requester is going to start it, unless the owner has called disarm. -/
  fired : ∀ r x h, (s.requests r).completed x → (s.hooks h).under F x = true →
    (s.hooks h).arm = .returned → (s.hooks h).disarm = .idle →
    logOf (runsAt h) tr ≠ [] ∨ ∃ r', r' ≠ r ∧ (s.requests r').holds h
  /-- A requester that is going to start a callback has a step to take, every such step brings it
  closer to its end, and no step of anybody else takes it away from it. -/
  goesOn : ∀ r h, (s.requests r).holds h → (∃ e t, requester e = some r ∧ step F s e = some t) ∧
    ∀ e t, step F s e = some t → (t.requests r).ahead ≤ (s.requests r).ahead ∧
      (requester e = some r → (t.requests r).ahead < (s.requests r).ahead)
  /-- A link of a hook is taken by one requester at most. -/
  taken : ∀ h, (logOf (takesAt F h) tr).length ≤ 1
  /-- When a disarm has returned, the callback does not run on another thread. -/
  quiet : ∀ h a b, a ∈ logOf (disarmsAt F h) tr → s.runs h b → b = a
  /-- After a disarm has returned, no callback is started. -/
  never : ∀ tr₁ p tr₂ h, tr = tr₁ ++ p :: tr₂ → logOf (disarmsAt F h) tr₁ ≠ [] →
    runsAt h p.1 p.2 = []
  /-- A requester that walks the chain of a task does so before the task has passed the handshake of
  its final suspend. -/
  walks : ∀ r u x, s.requests r = .walking u x → s.passed x = false

namespace Inv

variable {F : Forest τ} {tr : List (State τ ι ρ θ × Event τ ι ρ θ)} {s : State τ ι ρ θ} {i : ι}

theorem fired (h : Inv F tr s) {r : ρ} {x : τ} (hr : (s.requests r).completed x)
    (hu : (s.hooks i).under F x = true) (ha : (s.hooks i).arm = .returned)
    (hd : (s.hooks i).disarm = .idle) :
    logOf (runsAt i) tr ≠ [] ∨ ∃ r', r' ≠ r ∧ (s.requests r').holds i := by
  have hcalled : (s.hooks i).disarm.called ≠ true := by
    rw [hd]
    nofun
  by_cases hroot : (s.hooks i).root = none
  · rcases h.scan.gone i (by rw [ha]; rfl) hroot with hd | hran | ⟨r', hr'⟩
    · exact absurd hd hcalled
    · exact .inl hran
    · refine .inr ⟨r', ?_, hr'⟩
      rintro rfl
      exact hr.not_holds i hr'
  · rcases h.scan.missed r x i hr.scanned_eq hu hroot with hd | hran | ⟨u, rest, harm, -⟩
    · exact absurd hd hcalled
    · exact .inl hran
    · cases ha.symm.trans harm

theorem quiet (h : Inv F tr s) {a b : θ} (ha : a ∈ logOf (disarmsAt F i) tr) (hb : s.runs i b) :
    b = a := by
  have hfree := h.free i a ha
  rcases hb with hb | ⟨r, y, taken, m, slots, hr⟩
  · have hq := hfree.quiet
    rwa [hb] at hq
  · have ht := hfree.thread r (by simp [hr, entries])
    rw [hr] at ht
    exact some.inj ht

/-- A callback that is started belongs to a hook that nobody has disarmed. -/
theorem runsAt_eq_nil (h : Inv F tr s) (hd : logOf (disarmsAt F i) tr ≠ []) (e : Event τ ι ρ θ) :
    runsAt i s e = [] := by
  obtain ⟨a, ha⟩ := exists_mem_of_ne_nil _ hd
  have hfree := h.free i a ha
  cases e with
  | read =>
    simp only [runsAt]
    split
    · rename_i harm
      refine if_neg fun hj => ?_
      have hq := hfree.quiet
      rw [← hj.1, harm] at hq
      exact hq
    · rfl
  | fire r =>
    simp only [runsAt]
    split
    · rename_i hr
      refine if_neg fun hj => hfree.skipped r ?_
      rw [hr, ← hj]
      exact .inr (mem_cons_self ..)
    · rfl
  | _ => rfl

end Inv

/-- **Chain cancellation is safe when there is memory for the slots.** For every forest of chains
and every run in which the callers keep their promise. -/
theorem requestCancel_safe {F : Forest τ} {tr : List (State τ ι ρ θ × Event τ ι ρ θ)}
    {s : State τ ι ρ θ} (hr : Run (step F) {} tr s) (ho : ∀ p ∈ tr, Owned F p.1 p.2)
    (hm : ∀ p ∈ tr, Slotted p.1 p.2) : Promise F tr s := by
  have h := inv_run hr ho hm
  refine ⟨fun r x i => h.fired, fun r i hh => ⟨exists_step_of_holds F (h.aimed r) hh, ?_⟩,
    fun i => ?_, fun i a b => h.quiet, ?_, h.pinned.walking⟩
  · exact fun e t hs => ahead_step (change_of_step hs) hh
  · have := h.takes i
    omega
  · rintro tr₁ p tr₂ i rfl hd
    have hpre : ∀ q ∈ tr₁, q ∈ tr₁ ++ p :: tr₂ := fun q hq => mem_append_left _ hq
    exact (inv_run hr.cut (fun q hq => ho q (hpre q hq)) fun q hq => hm q (hpre q hq)).runsAt_eq_nil
      hd p.2

/-- A task, and the task that awaits it. -/
def pair : Forest Bool where
  parent t := if t then some false else none
  depth t := t.toNat
  depth_lt {t p} h := by cases t <;> cases h; decide

/-- Hooks `0` and `2` of the inner task are armed when the outer task is cancelled, hook `1` is
linked after the scan. The callback of hook `0` disarms hook `2`. -/
def armedTooLate : List (Event Bool (Fin 3) Unit Bool) :=
  [.arm 0 true true, .link 0, .read 0 false, .read 0 false, .read 0 false,
    .arm 2 true true, .link 2, .read 2 false, .read 2 false, .read 2 false,
    .arm 1 true true, .request () false false, .pin (), .load (), .take (), .link 1, .unpin (),
    .aim () false, .fire (), .disarm 2 false, .check 2, .fired (), .fire (),
    .read 1 false, .read 1 false, .armed 1, .disarm 1 true, .unlink 1]

theorem requestCancel_safe_armedTooLate :
    ∃ tr s, Run (step pair) ({} : State Bool (Fin 3) Unit Bool) tr s ∧
      (∀ p ∈ tr, Owned pair p.1 p.2) ∧ (∀ p ∈ tr, Slotted p.1 p.2) ∧
      logOf (runsAt 0) tr = [false] ∧ logOf (runsAt 1) tr = [true] ∧ logOf (runsAt 2) tr = [] ∧
      logOf (disarmsAt pair 2) tr = [false] ∧ Promise pair tr s := by
  have hr : Run (step pair) ({} : State Bool (Fin 3) Unit Bool) _ _ :=
    .follow armedTooLate (by decide +kernel)
  refine ⟨_, _, hr, ?_, ?_, ?_, ?_, ?_, ?_, requestCancel_safe hr ?_ ?_⟩ <;> decide +kernel

/-! ### Without memory -/

/-- One task that awaits nothing else. -/
def lone : Forest Unit where
  parent _ := none
  depth _ := 0
  depth_lt := nofun

/-- Seventeen awaits of one task, a request, no memory for seventeen slots, and a callback that
unwinds the owner of the last hook. -/
def outOfMemory : List (Event Unit (Fin 17) Unit Unit) :=
  ((finRange 17).flatMap fun h => [.arm h () (), .link h, .read h false, .read h false]) ++
  [.request () () (), .pin (), .load (), .take (), .unpin (), .aim () true, .fire (),
    .disarm 16 (), .check 16, .fired ()] ++
  ((replicate 15 [.fire (), .fired ()]).flatten ++ [.aim () false])

/-- **A callback that outlives its hook.** The last hook has no slot when its owner disarms it, on
the thread of the request. Nobody is told; after the first sixteen callbacks the requester reads the
hook, and starts its callback. -/
theorem runTakenHooks_outlives : ∃ tr s, Run (step lone) ({} : State Unit (Fin 17) Unit Unit) tr s ∧
      (∀ p ∈ tr, Owned lone p.1 p.2) ∧ logOf (disarmsAt lone 16) tr = [()] ∧
      logOf (runsAt 16) tr = [] ∧ runsAt 16 s (.fire ()) = [()] ∧
      (step lone s (.fire ())).isSome = true := by
  refine Run.exists_of_exec outOfMemory ?_
  decide +kernel

end Manwe.CancelHook
