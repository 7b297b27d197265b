import Manwe.Yarn.JoinHandle

/-!
# The resumer's reference on a proxy is in one place

While a joiner waits, the reference that resumes its proxy is in exactly one place: the word, a
callback that took it out, the runner, the pool, or the thread in `await_suspend` that took it back.
This is the sum `State.hands`, kept **for every address**, and compared with what the proxy that
lives there awaits.

All of this rests on one condition, `Fresh`: no proxy is allocated at the address of another one
whose `await_suspend` is still executing, and no frame is destroyed while its own is. The other
parking awaiters meet it by pinning their proxy over the end of `await_suspend`.
-/

namespace Manwe.JoinHandle

open Function State Join

variable {α χ : Type*}

/-! ### One join -/

/-- Outside `await_suspend`, or in its end, where the thread touches its locals only. -/
@[simp] def SuspendPc.detached : SuspendPc → Bool
  | .idle | .checking | .unparking | .returned => true
  | _ => false

/-- The joiner's address may be in the word. -/
@[simp] def BodyPc.latched : BodyPc → Bool
  | .parked | .disarming true | .unlatching true => true
  | _ => false

namespace Join

/-- The awaiter has no proxy. -/
def Bare (jn : Join) : Prop := jn.proxy = false ∧ jn.refs = 0

def Held (jn : Join) (st : ProxyState) (n : ℕ) : Prop :=
  jn.proxy = true ∧ jn.state = st ∧ jn.refs = n

/-- No callback runs, and none can start. -/
def Quiet (jn : Join) : Prop := jn.armed = false ∧ jn.firing = 0 ∧ jn.took = 0

/-- What is known of a join in `await_suspend` before it parks. -/
def Suspending (jn : Join) : Prop := match jn.suspend with
  | .starting | .publishing => jn.Bare ∧ jn.Quiet
  | .arming | .reclaiming => jn.Held .parked 2 ∧ jn.Quiet
  | .parking | .failing => jn.Held .parked 2 ∧ jn.took = 0
  | _ => False

/-- **The proxy of a join**, where the coroutine stands and where the thread in `await_suspend`
does. -/
def Sound (jn : Join) : Prop := match jn.body with
  | .absent | .looking => jn.suspend = .idle ∧ jn.Bare ∧ jn.Quiet ∧ jn.cancelled = false
  | .suspending => jn.Suspending ∧ jn.cancelled = false
  | .parked => jn.Held .parked 2 ∧ (jn.suspend.detached = true ∨ jn.suspend = .unparked)
  | .resumed | .disarming false =>
    jn.suspend.detached = true ∧ jn.took = 0 ∧ (jn.Held .resumed 1 ∨ jn.Bare)
  | .disarming true => jn.Held .parked 2 ∧ jn.suspend = .returned
  | .unlatching false | .retiring false false =>
    jn.Held .resumed 1 ∧ jn.suspend.detached = true ∧ jn.Quiet
  | .retiring false true => False
  | .unlatching true | .retiring true _ => jn.Held .parked 2 ∧ jn.suspend = .returned ∧ jn.Quiet
  | .gone =>
    jn.proxy = false ∧ jn.suspend.detached = true ∧ jn.Quiet ∧
      (jn.refs = 0 ∨ jn.refs = 1 ∧ jn.state = .killed)

/-- The proxy is still to be resumed, if it exists. -/
@[simp] def waits (jn : Join) : Bool := match jn.body with
  | .parked | .disarming true | .unlatching true | .retiring true false | .gone => true
  | _ => false

/-- How many of a join's callbacks and of its thread in `await_suspend` have the proxy in hand. -/
def grip (jn : Join) : ℕ := jn.took + if jn.suspend = .unparked then 1 else 0

def holds (jn : Join) (a : ℕ) : ℕ := if jn.addr = a then jn.grip else 0

theorem holds_congr {jn jn' : Join} (ha : jn'.addr = jn.addr) (hg : jn'.grip = jn.grip) :
    jn'.holds = jn.holds := by
  funext a
  simp only [holds, ha, hg]

namespace Sound

variable {jn : Join}

theorem body_of_unparked (h : jn.Sound) (hs : jn.suspend = .unparked) : jn.body = .parked := by
  unfold Sound Suspending at h
  split at h <;> simp_all

/-- A thread that has not come to the word yet. -/
theorem body_of_suspend (h : jn.Sound) (hs : jn.suspend.detached = false)
    (hu : jn.suspend ≠ .unparked) : jn.body = .suspending := by
  unfold Sound at h
  split at h <;> simp_all

theorem of_suspending (hb : jn.body = .suspending) (hs : jn.Suspending)
    (hc : jn.cancelled = false) : jn.Sound := by
  simp only [Sound, hb]
  exact ⟨hs, hc⟩

variable (h : jn.Sound)

include h

/-- The end of `await_suspend`, in whatever became of the join. -/
theorem suspend_detached (hs : jn.suspend = .checking ∨ jn.suspend = .unparking)
    {p : SuspendPc} (hp : p.detached = true) : { jn with suspend := p }.Sound := by
  cases hb : jn.body with simp only [Sound, hb] at h ⊢
  | absent | looking => rcases hs with hs | hs <;> cases hs.symm.trans h.1
  | suspending => rcases hs with hs | hs <;> simp [Suspending, hs] at h
  | parked => exact ⟨h.1, .inl hp⟩
  | resumed => exact ⟨hp, h.2⟩
  | gone => exact ⟨h.1, hp, h.2.2⟩
  | disarming early =>
    cases early with
    | false => exact ⟨hp, h.2⟩
    | true => rcases hs with hs | hs <;> cases hs.symm.trans h.2
  | unlatching early =>
    cases early with
    | false => exact ⟨h.1, hp, h.2.2⟩
    | true => rcases hs with hs | hs <;> cases hs.symm.trans h.2.1
  | retiring early removed =>
    cases early with
    | false =>
      cases removed with
      | false => exact ⟨h.1, hp, h.2.2⟩
      | true => exact h
    | true => rcases hs with hs | hs <;> cases hs.symm.trans h.2.1

/-- A callback starts, or ends without having taken anything. -/
theorem callback (ha : jn.armed = true ∨ jn.firing ≠ 0) (watch : Bool) (n : ℕ) :
    { jn with watch := watch, firing := n }.Sound := by
  have hq : ¬ jn.Quiet := fun hq => by
    rcases ha with ha | ha
    · cases ha.symm.trans hq.1
    · exact ha hq.2.1
  cases hb : jn.body with simp only [Sound, hb] at h ⊢
  | absent | looking | gone => exact absurd h.2.2.1 hq
  | suspending =>
    refine ⟨?_, h.2⟩
    have hs := h.1
    cases hp : jn.suspend with simp only [Suspending, hp] at hs ⊢
    | starting | publishing | arming | reclaiming => exact absurd hs.2 hq
    | parking | failing => exact hs
  | parked | resumed => exact h
  | disarming early => cases early <;> exact h
  | unlatching early => cases early <;> exact absurd h.2.2 hq
  | retiring early removed =>
    cases early
    · cases removed
      · exact absurd h.2.2 hq
      · exact h
    · exact absurd h.2.2 hq

/-- Callbacks run only in a join that has begun and is not over. -/
theorem open_of_not_quiet (hq : ¬ jn.Quiet) : jn.body ≠ .absent ∧ jn.body ≠ .gone := by
  unfold Sound at h
  constructor <;> intro hb <;> simp only [hb] at h
  · exact hq h.2.2.1
  · exact hq h.2.2.1

/-- A callback has the proxy of a joiner that waits. -/
theorem body_of_took (ht : jn.took ≠ 0) : jn.body = .parked ∨ jn.body = .disarming true := by
  unfold Sound Suspending at h
  split at h
  case h_3 => split at h <;> simp_all [Quiet]
  all_goals simp_all [Quiet]

theorem held_of_latched (hb : jn.body.latched = true) : jn.Held .parked 2 := by
  unfold Sound at h
  split at h <;> simp_all

end Sound

end Join

/-! ### The handle -/

def Word.holds : Word → ℕ → ℕ
  | .proxy b, a => if b = a then 1 else 0
  | _, _ => 0

def RunnerPc.holds : RunnerPc → ℕ → ℕ
  | .waking b, a => if b = a then 1 else 0
  | _, _ => 0

@[simp] theorem Word.holds_zero (a : ℕ) : Word.zero.holds a = 0 := rfl

@[simp] theorem Word.holds_ready (a : ℕ) : Word.ready.holds a = 0 := rfl

@[simp] theorem Word.holds_proxy (b a : ℕ) : (Word.proxy b).holds a = if b = a then 1 else 0 := rfl

@[simp] theorem RunnerPc.holds_waking (b a : ℕ) :
    (RunnerPc.waking b).holds a = if b = a then 1 else 0 := rfl

theorem Word.eq_of_holds {w : Word} {a : ℕ} (h : w.holds a ≠ 0) : w = .proxy a := by
  cases w with
  | proxy b =>
    by_cases hb : b = a
    · rw [hb]
    · simp [hb] at h
  | _ => exact absurd rfl h

theorem RunnerPc.eq_of_holds {r : RunnerPc} {a : ℕ} (h : r.holds a ≠ 0) : r = .waking a := by
  cases r with
  | waking b =>
    by_cases hb : b = a
    · rw [hb]
    · simp [hb] at h
  | _ => exact absurd rfl h

namespace State

/-- The proxy that lives at `a` is still to be resumed. -/
def awaited (s : State α χ) (a : ℕ) : Bool := match s.home a with
  | none => false
  | some j => (s.joins j).waits

/-- In how many places the reference is that resumes the proxy at `a`. -/
def hands (s : State α χ) (a : ℕ) : ℕ :=
  s.word.holds a + (s.joins s.cur).holds a + s.runner.holds a + s.pool.count a

end State

/-- **The condition** under which the word is safe: a proxy is not allocated at the address of
another one whose `await_suspend` still executes, and a frame is not destroyed while its own
does. -/
def Fresh (s : State α χ) : Event α χ → Prop
  | .publish _ a => ∀ i ≤ s.cur, (s.joins i).suspend.running = true → (s.joins i).addr ≠ a
  | .destroy j => (s.joins j).suspend = .returned
  | _ => True

instance (s : State α χ) (e : Event α χ) : Decidable (Fresh s e) := by
  cases e <;> unfold Fresh <;> infer_instance

/-- One join at a time. -/
structure Turns (s : State α χ) : Prop where
  sound : ∀ i, (s.joins i).Sound
  past : ∀ i, i < s.cur → (s.joins i).body = .gone
  future : ∀ i, s.cur < i → (s.joins i).body = .absent

theorem Turns.update {s t : State α χ} {j : ℕ} {jn : Join} (h : Turns s)
    (hjoins : t.joins = update s.joins j jn) (hcur : t.cur = s.cur) (hsound : jn.Sound)
    (hturn : j = s.cur ∨ jn.body = (s.joins j).body) : Turns t := by
  have hbody : ∀ i, i ≠ s.cur → (t.joins i).body = (s.joins i).body := by
    intro i hi
    obtain rfl | hij := eq_or_ne i j
    · simpa [hjoins] using hturn.resolve_left hi
    · simp [hjoins, hij]
  refine ⟨fun i => ?_, fun i hi => ?_, fun i hi => ?_⟩
  · by_cases hij : i = j
    · simpa [hjoins, hij] using hsound
    · simpa [hjoins, hij] using h.sound i
  · rw [hcur] at hi
    rw [hbody i (by omega)]
    exact h.past i hi
  · rw [hcur] at hi
    rw [hbody i (by omega)]
    exact h.future i hi

/-- **The latch word**, as every step that meets the condition keeps it. -/
structure Latch (s : State α χ) : Prop extends Turns s where
  home : ∀ a i, s.home a = some i ↔ (s.joins i).addr = a ∧ (s.joins i).refs ≠ 0
  /-- the address in the locals of a thread in `await_suspend` is its own proxy's or free -/
  apart : ∀ i k, (s.joins i).suspend.running = true → s.home (s.joins i).addr = some k → k = i
  word : ∀ a, s.word = .proxy a → (s.joins s.cur).addr = a ∧ (s.joins s.cur).body.latched = true
  hands : ∀ a, s.hands a = (s.awaited a).toNat

namespace Latch

variable {s : State α χ} {j : ℕ} (h : Latch s)

include h

theorem eq_cur (ha : (s.joins j).body ≠ .absent) (hg : (s.joins j).body ≠ .gone) : j = s.cur := by
  rcases Nat.lt_trichotomy j s.cur with hlt | rfl | hgt
  · exact absurd (h.past j hlt) hg
  · rfl
  · exact absurd (h.future j hgt) ha

/-- A join that has begun and is not over. -/
theorem current {b : BodyPc} (hb : (s.joins j).body = b) (ha : b ≠ .absent) (hg : b ≠ .gone) :
    j = s.cur ∧ (s.joins s.cur).Sound :=
  ⟨h.eq_cur (hb ▸ ha) (hb ▸ hg), h.sound s.cur⟩

theorem le_cur_of_running (hs : (s.joins j).suspend.running = true) : j ≤ s.cur := by
  by_contra hj
  have hsound := h.sound j
  simp only [Sound, h.future j (Nat.lt_of_not_le hj)] at hsound
  simp [hsound.1] at hs

theorem eq_cur_of_latched (hb : (s.joins j).body.latched = true) : j = s.cur :=
  h.eq_cur (fun ha => by simp [ha] at hb) fun hg => by simp [hg] at hb

/-- A thread in `await_suspend` that has not come to the word yet. -/
theorem suspending {p : SuspendPc} (hs : (s.joins j).suspend = p) (hd : p.detached = false)
    (hu : p ≠ .unparked) :
    j = s.cur ∧ (s.joins j).body = .suspending ∧ (s.joins j).Suspending ∧
      (s.joins j).cancelled = false := by
  subst hs
  have hj := h.sound j
  have hb := hj.body_of_suspend hd hu
  simp only [Sound, hb] at hj
  exact ⟨h.eq_cur (by simp [hb]) (by simp [hb]), hb, hj⟩

theorem eq_cur_of_not_quiet (hq : ¬ (s.joins j).Quiet) : j = s.cur :=
  h.eq_cur ((h.sound j).open_of_not_quiet hq).1 ((h.sound j).open_of_not_quiet hq).2

/-- Two proxies do not live at one address. -/
theorem eq_of_addr {i k : ℕ} (ha : (s.joins i).addr = (s.joins k).addr) (hi : (s.joins i).refs ≠ 0)
    (hk : (s.joins k).refs ≠ 0) : i = k := by
  have h1 := (h.home _ i).mpr ⟨rfl, hi⟩
  have h2 := (h.home _ k).mpr ⟨rfl, hk⟩
  rw [ha, h2] at h1
  exact (Option.some.inj h1).symm

/-! ### Steps that change one join -/

variable {t : State α χ} {jn : Join}

variable (hjoins : t.joins = update s.joins j jn)

include hjoins

/-- What is awaited at the addresses of other proxies is not touched. -/
theorem awaited_else {a : ℕ}
    (hhome : t.home a = s.home a) (ha : a ≠ (s.joins j).addr) : t.awaited a = s.awaited a := by
  simp only [awaited, hhome, hjoins]
  cases hk : s.home a with
  | none => rfl
  | some k =>
    have hkj : k ≠ j := by
      rintro rfl
      exact ha ((h.home a k).mp hk).1.symm
    simp [hkj]

theorem awaited_update (hhome : t.home = s.home)
    (hwaits : (s.joins j).refs ≠ 0 → jn.waits = (s.joins j).waits) (a : ℕ) :
    t.awaited a = s.awaited a := by
  simp only [awaited, hhome, hjoins]
  cases ha : s.home a with
  | none => rfl
  | some k =>
    obtain rfl | hk := eq_or_ne k j
    · simpa using hwaits ((h.home a k).mp ha).2
    · simp [hk]

/-- A step that gives join `j` the record `jn` and leaves all proxies where they live. -/
theorem update (hcur : t.cur = s.cur)
    (hhome : t.home = s.home) (hsound : jn.Sound) (hturn : j = s.cur ∨ jn.body = (s.joins j).body)
    (haddr : jn.addr = (s.joins j).addr) (hrefs : jn.refs = 0 ↔ (s.joins j).refs = 0)
    (hrun : jn.suspend.running = true → (s.joins j).suspend.running = true)
    (hword : ∀ a, t.word = .proxy a → (t.joins t.cur).addr = a ∧
      (t.joins t.cur).body.latched = true)
    (hhands : ∀ a, t.hands a = (t.awaited a).toNat) : Latch t where
  toTurns := h.toTurns.update hjoins hcur hsound hturn
  home a i := by
    rw [hhome, h.home, hjoins]
    obtain rfl | hij := eq_or_ne i j
    · simp [haddr, hrefs]
    · simp [hij]
  apart i k hi hk := by
    rw [hhome] at hk
    rw [hjoins] at hi hk
    obtain rfl | hij := eq_or_ne i j
    · simp only [update_self, haddr] at hi hk
      exact h.apart i k (hrun hi) hk
    · simp only [ne_eq, hij, not_false_eq_true, update_of_ne] at hi hk
      exact h.apart i k hi hk
  word := hword
  hands := hhands

omit hjoins

/-- A step of one join that moves no reference. -/
theorem put (hsound : jn.Sound) (hturn : j = s.cur ∨ jn.body = (s.joins j).body)
    (haddr : jn.addr = (s.joins j).addr) (hrefs : jn.refs = (s.joins j).refs)
    (hrun : jn.suspend.running = true → (s.joins j).suspend.running = true)
    (hlatched : s.word = .proxy (s.joins j).addr → (s.joins j).body.latched = true →
      jn.body.latched = true)
    (hwaits : (s.joins j).refs ≠ 0 → jn.waits = (s.joins j).waits)
    (hgrip : jn.grip = (s.joins j).grip) : Latch (s.put j jn) := by
  refine h.update rfl rfl rfl hsound hturn haddr (by rw [hrefs]) hrun ?_ ?_
  · intro a ha
    obtain ⟨h1, h2⟩ := h.word a ha
    obtain rfl | hj := eq_or_ne s.cur j
    · subst h1
      simp only [State.put, update_self]
      exact ⟨haddr, hlatched ha h2⟩
    · simpa [hj] using ⟨h1, h2⟩
  · intro a
    rw [h.awaited_update (t := s.put j jn) rfl rfl hwaits, ← h.hands a]
    obtain rfl | hj := eq_or_ne s.cur j
    · simp only [State.hands, State.put, update_self, holds_congr haddr hgrip]
    · simp only [State.hands, State.put, ne_eq, hj, not_false_eq_true, update_of_ne]

/-! ### Steps that move a reference -/

theorem home_self (hr : (s.joins j).refs ≠ 0) : s.home (s.joins j).addr = some j :=
  (h.home _ j).mpr ⟨rfl, hr⟩

theorem awaited_self (hr : (s.joins j).refs ≠ 0) :
    s.awaited (s.joins j).addr = (s.joins j).waits := by
  simp only [awaited, h.home_self hr]

/-- The sum is checked at the address of the join that moved, and nowhere else. -/
theorem hands_update (hjoins : t.joins = Function.update s.joins j jn) (hhome : t.home = s.home)
    (hr : (s.joins j).refs ≠ 0) (helse : ∀ a, a ≠ (s.joins j).addr → t.hands a = s.hands a)
    (hself : t.hands (s.joins j).addr = jn.waits.toNat) (a : ℕ) :
    t.hands a = (t.awaited a).toNat := by
  obtain rfl | ha := eq_or_ne a (s.joins j).addr
  · simp only [hself, awaited, hhome, h.home_self hr, hjoins, update_self]
  · rw [helse a ha, h.hands a, h.awaited_else hjoins (congrFun hhome a) ha]

/-- The word holds the address of the join made last, which waits, and no other place does. -/
theorem of_word {a : ℕ} (hw : s.word = .proxy a) :
    (s.joins s.cur).addr = a ∧ (s.joins s.cur).body.latched = true ∧
      (s.joins s.cur).Held .parked 2 ∧ (s.joins s.cur).grip = 0 ∧ s.runner.holds a = 0 ∧
      s.pool.count a = 0 := by
  obtain ⟨rfl, hb⟩ := h.word a hw
  have hheld := (h.sound s.cur).held_of_latched hb
  have hsum := h.hands (s.joins s.cur).addr
  have hle := Bool.toNat_le (s.awaited (s.joins s.cur).addr)
  simp only [State.hands, hw, Word.holds_proxy, ↓reduceIte, holds] at hsum
  exact ⟨rfl, hb, hheld, by omega, by omega, by omega⟩

/-- The join made last takes its own proxy out of the word. -/
theorem take (hw : s.word = .proxy (s.joins s.cur).addr) (hsound : jn.Sound)
    (hbody : jn.body = (s.joins s.cur).body) (haddr : jn.addr = (s.joins s.cur).addr)
    (hrefs : jn.refs = (s.joins s.cur).refs)
    (hrun : jn.suspend.running = true → (s.joins s.cur).suspend.running = true)
    (hgrip : jn.grip = (s.joins s.cur).grip + 1) : Latch { s.put s.cur jn with word := .zero } := by
  have hwaits : jn.waits = (s.joins s.cur).waits := by simp only [waits, hbody]
  refine h.update rfl rfl rfl hsound (.inl rfl) haddr (by rw [hrefs]) hrun ?_ ?_
  · intro a ha
    cases ha
  · intro a
    have ha := h.awaited_update (t := { s.put s.cur jn with word := .zero }) rfl rfl
      (fun _ => hwaits) a
    rw [ha, ← h.hands a]
    simp only [State.hands, State.put, update_self, holds, haddr, hgrip, hw,
      Word.holds_zero, Word.holds_proxy]
    split <;> omega

/-- A step that leaves every join as it is. -/
theorem outside (hjoins : t.joins = s.joins) (hcur : t.cur = s.cur) (hhome : t.home = s.home)
    (hword : ∀ a, t.word = .proxy a → s.word = .proxy a) (hhands : ∀ a, t.hands a = s.hands a) :
    Latch t := by
  have hself : t.joins = Function.update s.joins s.cur (s.joins s.cur) := by
    rw [hjoins, update_eq_self]
  refine h.update hself hcur hhome (h.sound _) (.inl rfl) rfl Iff.rfl id ?_ ?_
  · intro a ha
    rw [hjoins, hcur]
    exact h.word a (hword a ha)
  · intro a
    rw [hhands a, h.hands a]
    simp only [awaited, hjoins, hhome]

/-- The proxy of join `j` is destroyed, and nobody is left to resume it. -/
theorem free (hjoins : t.joins = Function.update s.joins j jn) (hcur : t.cur = s.cur)
    (hhome : t.home = Function.update s.home (s.joins j).addr none) (hr : (s.joins j).refs ≠ 0)
    (hsound : jn.Sound) (hturn : j = s.cur ∨ jn.body = (s.joins j).body)
    (haddr : jn.addr = (s.joins j).addr) (hrefs : jn.refs = 0)
    (hword : ∀ a, t.word = .proxy a → (t.joins t.cur).addr = a ∧
      (t.joins t.cur).body.latched = true)
    (helse : ∀ a, a ≠ (s.joins j).addr → t.hands a = s.hands a)
    (hself : t.hands (s.joins j).addr = 0) : Latch t where
  toTurns := h.toTurns.update hjoins hcur hsound hturn
  home a i := by
    rw [hhome, hjoins]
    obtain rfl | ha := eq_or_ne a (s.joins j).addr
    · by_cases hij : i = j
      · subst hij
        simp [hrefs]
      · simp only [update_self, reduceCtorEq, ne_eq, hij, not_false_eq_true,
          update_of_ne, false_iff, not_and, not_not]
        intro haddr'
        by_contra hi
        exact hij (h.eq_of_addr haddr' hi hr)
    · obtain rfl | hij := eq_or_ne i j
      · simp [ha, hrefs, h.home]
        intro he
        exact absurd he.symm ha
      · simp [ha, hij, h.home]
  apart i k hi hk := by
    rw [hhome] at hk
    rw [hjoins] at hi hk
    obtain rfl | hij := eq_or_ne i j
    · simp [haddr] at hk
    · simp only [ne_eq, hij, not_false_eq_true, update_of_ne] at hi hk
      by_cases ha : (s.joins i).addr = (s.joins j).addr
      · simp [ha] at hk
      · simp only [ne_eq, ha, not_false_eq_true, update_of_ne] at hk
        exact h.apart i k hi hk
  word := hword
  hands a := by
    obtain rfl | ha := eq_or_ne a (s.joins j).addr
    · simp [hself, awaited, hhome]
    · rw [helse a ha, h.hands a, h.awaited_else hjoins (by simp [hhome, ha]) ha]

end Latch

end Manwe.JoinHandle
