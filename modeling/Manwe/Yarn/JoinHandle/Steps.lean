import Manwe.Yarn.JoinHandle.Latch

/-!
# Every step keeps the latch word
-/

namespace Manwe.JoinHandle

open List Join Function

variable {α χ : Type*}

namespace Latch

variable {s t : State α χ} {j : ℕ}

/-! ### Into and out of the word -/

variable (h : Latch s)

include h

/-- A join begins. -/
theorem join (hb : (s.joins s.cur).body = .absent) (core : Bool) :
    Latch (s.put s.cur { s.joins s.cur with core := core, body := .looking }) := by
  have hj := h.sound s.cur
  simp only [Sound, hb] at hj
  have hr0 := hj.2.1.2
  exact h.put hj (.inl rfl) rfl rfl id (by simp [hb]) (absurd hr0) rfl

/-- The turn passes on when nothing of the join before is left to hold its proxy. -/
theorem turn (hb : (s.joins s.cur).body = .gone) : Latch { s with cur := s.cur + 1 } := by
  have hgone := h.sound s.cur
  have hnext := h.sound (s.cur + 1)
  have hab := h.future (s.cur + 1) (Nat.lt_succ_self _)
  simp only [Sound, hb] at hgone
  simp only [Sound, hab] at hnext
  obtain ⟨-, hd, hq, -⟩ := hgone
  obtain ⟨hidle, -, hq', -⟩ := hnext
  have hgrip : (s.joins s.cur).grip = 0 := by
    have hu : (s.joins s.cur).suspend ≠ .unparked := by
      intro hu
      simp [hu] at hd
    simp [grip, hq.2.2, hu]
  have hgrip' : (s.joins (s.cur + 1)).grip = 0 := by simp [grip, hq'.2.2, hidle]
  refine ⟨⟨h.sound, fun i hi => ?_, fun i hi => ?_⟩, h.home, h.apart, fun a ha => ?_, fun a => ?_⟩
  · rcases Nat.lt_succ_iff_lt_or_eq.mp hi with hi | rfl
    · exact h.past i hi
    · exact hb
  · exact h.future i (Nat.lt_of_succ_lt hi)
  · obtain ⟨-, hl⟩ := h.word a ha
    simp [hb] at hl
  · refine Eq.trans ?_ (h.hands a)
    simp [State.hands, holds, hgrip, hgrip']

variable {a : ℕ} {early : Bool}

theorem publish (hs : (s.joins j).suspend = .publishing) (ha : s.home a = none)
    (hf : ∀ i ≤ s.cur, (s.joins i).suspend.running = true → (s.joins i).addr ≠ a) :
    Latch { s.put j { s.joins j with
        proxy := true, addr := a, state := .parked, refs := 2, suspend := .arming } with
      home := Function.update s.home a (some j) } := by
  obtain ⟨rfl, hb, hj, hcancel⟩ := h.suspending hs rfl (by decide)
  simp only [Suspending, hs] at hj
  obtain ⟨⟨-, hr⟩, hq⟩ := hj
  have hother : ∀ {b k}, s.home b = some k → k ≠ s.cur := by
    rintro b k hk rfl
    exact ((h.home b s.cur).mp hk).2 hr
  refine ⟨h.toTurns.update rfl rfl (.of_suspending hb ⟨⟨rfl, rfl, rfl⟩, hq⟩ hcancel) (.inl rfl),
    fun b i => ?_, fun i k hi hk => ?_, fun b hw => ?_, fun b => ?_⟩
  · obtain rfl | hi := eq_or_ne i s.cur
    · by_cases hba : b = a
      · simp [hba]
      · simpa [hba, Ne.symm hba] using fun hk => hother hk rfl
    · obtain rfl | hba := eq_or_ne b a
      · simp only [State.put, update_self, update_of_ne hi, ← h.home, ha]
        simp [Ne.symm hi]
      · simp [hba, hi, h.home]
  · by_cases hi' : i = s.cur
    · subst hi'
      simpa [eq_comm] using hk
    · simp only [State.put, update_of_ne hi'] at hi hk
      rw [update_of_ne (hf i (h.le_cur_of_running hi) hi)] at hk
      exact h.apart i k hi hk
  · obtain ⟨-, hl⟩ := h.word b hw
    simp [hb] at hl
  · have hgrip : ∀ b, (s.joins s.cur).holds b = 0 := by simp [holds, grip, hs, hq.2.2]
    have hsum := h.hands b
    simp only [State.hands, hgrip] at hsum
    obtain rfl | hba := eq_or_ne b a
    · simp only [State.awaited, ha] at hsum
      simpa [State.hands, State.awaited, holds, grip, hb, hq.2.2] using hsum
    · simp only [State.hands, State.put, State.awaited, update_self, update_of_ne hba] at hsum ⊢
      cases hk : s.home b with
      | none => simpa [hk, holds, grip, hq.2.2] using hsum
      | some => simpa [hk, holds, grip, hq.2.2, hother hk] using hsum

theorem park (hs : (s.joins j).suspend = .parking) (hw : s.word = .zero) :
    Latch { s.put j { s.joins j with suspend := .checking, body := .parked } with
      word := .proxy (s.joins j).addr } := by
  obtain ⟨rfl, hb, hj, -⟩ := h.suspending hs rfl (by decide)
  simp only [Suspending, hs] at hj
  obtain ⟨⟨hp, hst, hr⟩, ht⟩ := hj
  have hr0 : (s.joins s.cur).refs ≠ 0 := by omega
  have hnone : s.hands (s.joins s.cur).addr = 0 := by simp [h.hands, h.awaited_self hr0, hb]
  refine h.update rfl rfl rfl ⟨⟨hp, hst, hr⟩, .inl rfl⟩ (.inl rfl) rfl Iff.rfl
    (by simp [hs]) ?_ (h.hands_update rfl rfl hr0 ?_ ?_)
  · intro a ha
    cases ha
    simp
  · intro a ha
    simp [State.hands, hw, holds, Ne.symm ha]
  · simp only [State.hands, hw, Word.holds_zero] at hnone
    simp [State.hands, holds, grip, ht]
    omega

/-- The address of a thread still in `await_suspend` can be in the word only if it is its own
join's. -/
theorem eq_cur_of_word (hs : (s.joins j).suspend.running = true)
    (hw : s.word = .proxy (s.joins j).addr) : j = s.cur := by
  obtain ⟨ha, -, hheld, -⟩ := h.of_word hw
  have hhome := h.home_self (by rw [hheld.2.2]; decide)
  rw [ha] at hhome
  exact (h.apart j s.cur hs hhome).symm

theorem unpark (hs : (s.joins j).suspend = .unparking) (hw : s.word = .proxy (s.joins j).addr) :
    Latch { s.put j { s.joins j with suspend := .unparked } with word := .zero } := by
  obtain rfl := h.eq_cur_of_word (by simp [hs]) hw
  obtain ⟨-, hlatched, hheld, hgrip, -⟩ := h.of_word hw
  refine h.take hw ?_ rfl rfl rfl (by simp [hs]) ?_
  · have hj := h.sound s.cur
    unfold Sound at hj
    split at hj <;> simp_all [Sound, Held]
  · simp [grip, hs]

theorem onCancel (hf : (s.joins j).firing ≠ 0) (hw : s.word = .proxy (s.joins j).addr) :
    Latch { s.put j { s.joins j with
        firing := (s.joins j).firing - 1, took := (s.joins j).took + 1 } with
      word := .zero } := by
  obtain rfl := h.eq_cur_of_not_quiet fun hq => hf hq.2.1
  obtain ⟨-, hlatched, hheld, hgrip, -⟩ := h.of_word hw
  refine h.take hw ?_ rfl rfl rfl id ?_
  · have hj := h.sound s.cur
    unfold Sound at hj
    split at hj <;> simp_all [Sound, Held, Quiet]
  · simp only [grip]
    omega

/-- The callback resumes on the pool what it took. -/
theorem post (ht : (s.joins j).took ≠ 0) :
    Latch { s.put j { s.joins j with took := (s.joins j).took - 1, cancelled := true } with
      pool := (s.joins j).addr :: s.pool } := by
  obtain rfl := h.eq_cur_of_not_quiet fun hq => ht hq.2.2
  have hj := h.sound s.cur
  have hsound : Sound { s.joins s.cur with
      took := (s.joins s.cur).took - 1, cancelled := true } := by
    rcases hj.body_of_took ht with hb | hb <;> simp only [Sound, hb] at hj ⊢ <;> exact hj
  refine h.update rfl rfl rfl hsound (.inl rfl) rfl Iff.rfl id ?_ ?_
  · intro a ha
    simpa using h.word a ha
  · intro a
    have haw := h.awaited_update (t := { s.put s.cur { s.joins s.cur with
        took := (s.joins s.cur).took - 1, cancelled := true } with
      pool := (s.joins s.cur).addr :: s.pool }) rfl rfl (fun _ => rfl) a
    rw [haw, ← h.hands a]
    simp only [State.hands, State.put, update_self, holds, grip, count_cons, beq_iff_eq]
    split <;> omega

theorem unlatch (hb : (s.joins j).body = .unlatching early)
    (hw : s.word = .proxy (s.joins j).addr) :
    Latch { s.put j { s.joins j with body := .retiring early true } with word := .zero } := by
  obtain rfl := h.eq_cur (j := j) (by simp [hb]) (by simp [hb])
  obtain ⟨-, hlatched, hheld, hgrip, hrunner, hpool⟩ := h.of_word hw
  have hearly : early = true := by
    cases early
    · simp [hb] at hlatched
    · rfl
  subst hearly
  have hj := h.sound s.cur
  simp only [Sound, hb] at hj
  refine h.update rfl rfl rfl hj (.inl rfl) rfl Iff.rfl id ?_
    (h.hands_update rfl rfl (by simp [hheld.2.2]) ?_ ?_)
  · intro a ha
    cases ha
  · intro a ha
    simp [State.hands, hw, holds, Ne.symm ha]
  · have hgrip' : grip { s.joins s.cur with body := .retiring true true } = 0 := hgrip
    simp [State.hands, holds, hgrip', hrunner, hpool]

/-! ### The proxy is freed -/

/-- The join made last frees its proxy, which is nowhere else. -/
theorem reclaim {jn : Join} (hp : jn.proxy = true) (haddr : jn.addr = (s.joins s.cur).addr)
    (hr : (s.joins s.cur).refs ≠ 0) (hsound : Sound { jn with proxy := false, refs := 0 })
    (hgrip : jn.grip = 0) (hsum : s.hands (s.joins s.cur).addr = (s.joins s.cur).grip) :
    Latch (s.reclaim s.cur jn) := by
  have hrec : s.reclaim s.cur jn =
      (s.put s.cur { jn with proxy := false, refs := 0 }).free jn.addr := by
    simp [State.reclaim, Join.reclaim, hp]
  have hgrip' : grip { jn with proxy := false, refs := 0 } = 0 := hgrip
  simp only [State.hands, holds, ↓reduceIte] at hsum
  rw [hrec]
  refine h.free rfl rfl (by simp [← haddr]) hr hsound (.inl rfl) haddr rfl ?_ ?_ ?_
  · intro a ha
    obtain ⟨rfl, -⟩ := h.word a ha
    change s.word = _ at ha
    simp only [ha, Word.holds_proxy, ↓reduceIte] at hsum
    omega
  · intro a ha
    simp [State.hands, holds, Ne.symm ha, haddr]
  · simp [State.hands, holds, hgrip']
    omega

theorem settle (hs : (s.joins j).suspend = .unparked) : Latch (s.reclaim j
      { s.joins j with cancelled := true, suspend := .returned, body := .resumed }) := by
  have hb := (h.sound j).body_of_unparked hs
  obtain ⟨rfl, hj⟩ := h.current hb nofun nofun
  simp only [Sound, hb] at hj
  obtain ⟨⟨hp, -, hr⟩, -⟩ := hj
  have hr0 : (s.joins s.cur).refs ≠ 0 := by omega
  have hone : s.hands (s.joins s.cur).addr = 1 := by simp [h.hands, h.awaited_self hr0, hb]
  have hgrip : (s.joins s.cur).grip = (s.joins s.cur).took + 1 := by simp [grip, hs]
  have ht : (s.joins s.cur).took = 0 := by
    simp only [State.hands, holds, ↓reduceIte, hgrip] at hone
    omega
  refine h.reclaim hp rfl hr0 ⟨rfl, ht, .inr ⟨rfl, rfl⟩⟩ ?_ ?_
  · simp [grip, ht]
  · rw [hone, hgrip, ht]

theorem reclaimFailed (hs : (s.joins j).suspend = .reclaiming) :
    Latch (s.reclaim j { s.joins j with suspend := .returned, body := .resumed }) := by
  obtain ⟨rfl, hb, hj, -⟩ := h.suspending hs rfl (by decide)
  simp only [Suspending, hs] at hj
  obtain ⟨⟨hp, -, hr⟩, hq⟩ := hj
  have hr0 : (s.joins s.cur).refs ≠ 0 := by omega
  refine h.reclaim hp rfl hr0 ⟨rfl, hq.2.2, .inr ⟨rfl, rfl⟩⟩ ?_ ?_
  · simp [grip, hq.2.2]
  · rw [h.hands, h.awaited_self hr0]
    simp [hb, grip, hs, hq.2.2]

theorem retire (hb : (s.joins j).body = .retiring early true) :
    Latch (s.reclaim j { s.joins j with body := .gone }) := by
  obtain ⟨rfl, hj⟩ := h.current hb nofun nofun
  cases early with
  | false => simp [Sound, hb] at hj
  | true =>
    simp only [Sound, hb] at hj
    obtain ⟨⟨hp, -, hr⟩, hs, hq⟩ := hj
    have hr0 : (s.joins s.cur).refs ≠ 0 := by omega
    have hgrip : (s.joins s.cur).grip = 0 := by simp [grip, hs, hq.2.2]
    refine h.reclaim hp rfl hr0 ⟨rfl, ?_, hq, .inl rfl⟩ hgrip ?_
    · simp [hs]
    · rw [h.hands, h.awaited_self hr0, hgrip]
      simp [hb]

theorem retireKill (hb : (s.joins j).body = .retiring early false) :
    Latch (s.release j { (s.joins j).kill with proxy := false, body := .gone }) := by
  obtain ⟨rfl, hj⟩ := h.current hb nofun nofun
  have hword : ∀ a, s.word ≠ .proxy a := by
    intro a ha
    obtain ⟨-, hl⟩ := h.word a ha
    simp [hb] at hl
  cases early with
  | false =>
    -- the proxy has run: the awaiter's reference is the last one
    simp only [Sound, hb] at hj
    obtain ⟨⟨-, -, hr⟩, hd, hq⟩ := hj
    have hr0 : (s.joins s.cur).refs ≠ 0 := by omega
    have hnone : s.hands (s.joins s.cur).addr = 0 := by simp [h.hands, h.awaited_self hr0, hb]
    rw [State.release, if_pos (by simpa using hr)]
    refine h.free rfl rfl rfl hr0 ⟨rfl, hd, hq, .inl ?_⟩ (.inl rfl) rfl ?_
      (fun a ha => absurd ha (hword a)) ?_ ?_
    · simp [release, hr]
    · simp [release, hr]
    · intro a ha
      simp [State.hands, holds, release, Ne.symm ha]
    · rw [← hnone]
      simp [State.hands, holds, grip, release]
  | true =>
    simp only [Sound, hb] at hj
    obtain ⟨⟨-, hst, hr⟩, hs, hq⟩ := hj
    rw [State.release, if_neg (by simp [hr])]
    refine h.update rfl rfl rfl ⟨rfl, by simp [release, hs], hq,
        .inr ⟨?_, ?_⟩⟩ (.inl rfl) rfl ?_ id (fun a ha => absurd ha (hword a)) ?_
    · simp [release, hr]
    · simp [release, hst]
    · simp [release, hr]
    · intro a
      rw [h.awaited_update (t := s.put s.cur _) rfl rfl
        (fun _ => by simp [release, hb]) a, ← h.hands a]
      simp [State.hands, holds, grip, release]

/-! ### The pool -/

/-- What the pool is to resume is a proxy that lives and waits. -/
theorem of_pool (ha : a ∈ s.pool) :
    ∃ j, s.home a = some j ∧ (s.joins j).waits = true ∧ s.hands a = 1 ∧
      s.word.holds a = 0 ∧ (s.joins s.cur).holds a = 0 ∧ s.runner.holds a = 0 ∧
      s.pool.count a = 1 := by
  have hpos := count_pos_iff.mpr ha
  have hsum := h.hands a
  have haw : s.awaited a = true := by
    by_contra hn
    simp only [State.hands, Bool.not_eq_true _ ▸ hn, Bool.toNat_false] at hsum
    omega
  rw [haw, Bool.toNat_true] at hsum
  have hparts := hsum
  simp only [State.hands] at hparts
  simp only [State.awaited] at haw
  split at haw
  · cases haw
  · exact ⟨_, ‹_›, haw, hsum, by omega, by omega, by omega, by omega⟩

/-- The pool resumes a joiner that is parked. -/
theorem run_parked (hb : (s.joins s.cur).body = .parked) (ha : (s.joins s.cur).addr ∈ s.pool) :
    Latch ({ s with pool := s.pool.erase (s.joins s.cur).addr }.release s.cur
      (s.joins s.cur).resume) := by
  obtain ⟨-, -, -, -, hword, hholds, hrunner, hpool⟩ := h.of_pool ha
  have hj := h.sound s.cur
  simp only [Sound, hb] at hj
  obtain ⟨⟨hp, hst, hr⟩, hs⟩ := hj
  have hgrip : (s.joins s.cur).grip = 0 := by simpa [holds] using hholds
  have ht : (s.joins s.cur).took = 0 := by
    simp only [grip] at hgrip
    omega
  have hd : (s.joins s.cur).suspend.detached = true := by
    refine hs.resolve_right fun hu => ?_
    simp [grip, hu] at hgrip
  have hres : (s.joins s.cur).resume.release =
      { s.joins s.cur with state := .resumed, body := .resumed, refs := 1 } := by
    simp [resume, release, hst, hr]
  rw [State.release, if_neg (by simp [resume, hr]), hres]
  refine h.update rfl rfl rfl ⟨hd, ht, .inl ⟨hp, rfl, rfl⟩⟩ (.inl rfl) rfl (by simp [hr]) id ?_
    (h.hands_update rfl rfl (by omega) ?_ ?_)
  · intro a hw
    obtain ⟨rfl, -⟩ := h.word a hw
    change s.word = _ at hw
    simp [hw] at hword
  · intro a hne
    simp [State.hands, holds, Ne.symm hne, count_erase_of_ne hne]
  · have hgrip' : grip { s.joins s.cur with
        state := .resumed, body := .resumed, refs := 1 } = 0 := hgrip
    simp [State.hands, holds, hgrip', hword, hrunner, hpool]

/-- The pool resumes the proxy of a join that is over: nothing happens but that the proxy goes. -/
theorem run_gone (hb : (s.joins j).body = .gone) (hr0 : (s.joins j).refs ≠ 0)
    (ha : (s.joins j).addr ∈ s.pool) :
    Latch ({ s with pool := s.pool.erase (s.joins j).addr }.release j (s.joins j).resume) := by
  obtain ⟨-, -, -, -, hword, hholds, hrunner, hpool⟩ := h.of_pool ha
  have hj := h.sound j
  simp only [Sound, hb] at hj
  obtain ⟨hp, hd, hq, hrefs⟩ := hj
  obtain ⟨hr, hst⟩ := hrefs.resolve_left hr0
  have hres : (s.joins j).resume.release = { s.joins j with state := .resumed, refs := 0 } := by
    simp [resume, release, hst, hr]
  rw [State.release, if_pos (by simp [resume, hr]), hres]
  have hcur : (Function.update s.joins j { s.joins j with state := .resumed, refs := 0 }
      s.cur).holds = (s.joins s.cur).holds := by
    obtain rfl | hjc := eq_or_ne s.cur j
    · rw [update_self]
      exact holds_congr rfl rfl
    · simp [hjc]
  refine h.free rfl rfl rfl hr0 ?_ (.inr rfl) rfl rfl ?_ ?_ ?_
  · simp only [Sound, hb]
    exact ⟨hp, hd, hq, .inl trivial⟩
  · intro a hw
    obtain ⟨hadr, hl⟩ := h.word a hw
    have hjc : s.cur ≠ j := by
      rintro rfl
      simp [hb] at hl
    simpa [hjc] using ⟨hadr, hl⟩
  · intro a hne
    simp only [State.hands, State.free, State.put, hcur, count_erase_of_ne hne]
  · simp [State.hands, hcur, hword, hholds, hrunner, hpool]

variable (ha : a ∈ s.pool) (hh : s.home a = some j) (hd : (s.joins j).body.dying = false)

include ha hh hd

/-- Whom the pool finds: a joiner that is parked, or one destroyed before. -/
theorem run_cases : (s.joins j).addr = a ∧ (s.joins j).refs ≠ 0 ∧
      (j = s.cur ∧ (s.joins j).body = .parked ∧ (s.joins j).state = .parked ∨
        (s.joins j).body = .gone ∧ (s.joins j).state = .killed) := by
  obtain ⟨k, hk, hwaits, -⟩ := h.of_pool ha
  obtain ⟨haddr, hr0⟩ := (h.home a j).mp hh
  refine ⟨haddr, hr0, ?_⟩
  have hb : (s.joins j).body = .parked ∨ (s.joins j).body = .gone := by
    unfold waits at hwaits
    split at hwaits <;> simp_all [BodyPc.dying]
  have hj := h.sound j
  rcases hb with hb | hb
  · simp only [Sound, hb] at hj
    exact .inl ⟨h.eq_cur (by simp [hb]) (by simp [hb]), hb, hj.1.2.1⟩
  · simp only [Sound, hb] at hj
    exact .inr ⟨hb, (hj.2.2.2.resolve_left hr0).2⟩

theorem run : Latch ({ s with pool := s.pool.erase a }.release j (s.joins j).resume) := by
  obtain ⟨rfl, hr0, ⟨rfl, hb, -⟩ | ⟨hb, -⟩⟩ := h.run_cases ha hh hd
  · exact h.run_parked hb ha
  · exact h.run_gone hb hr0 ha

/-! ### Any step -/

omit ha hh hd

theorem step {e : Event α χ} (hf : Fresh s e) (hc : Change s e t) : Latch t := by
  cases hc with
  | joinFirst hb => exact h.join hb _
  | joinNext hb => exact (h.turn hb).join (h.future _ (Nat.lt_succ_self _)) _
  | @ready j hb hw =>
    obtain ⟨rfl, hj⟩ := h.current hb nofun nofun
    simp only [Sound, hb] at hj
    refine h.put ⟨?_, hj.2.2.1.2.2, .inr hj.2.1⟩ (.inl rfl) rfl rfl id ?_ ?_ rfl
    · simp [hj.1]
    · simp [hw]
    · simp [hb]
  | @notReady j hb =>
    obtain ⟨rfl, hj⟩ := h.current hb nofun nofun
    simp only [Sound, hb] at hj
    refine h.put ⟨⟨hj.2.1, hj.2.2.1⟩, hj.2.2.2⟩ (.inl rfl) rfl rfl (by simp) ?_ ?_ ?_
    · simp [hb]
    · simp [hb]
    · simp [grip, hj.1]
  | @checkCancelled j hs =>
    obtain ⟨rfl, hb, hj, -⟩ := h.suspending hs rfl (by decide)
    simp only [Suspending, hs] at hj
    refine h.put ⟨rfl, hj.2.2.2, .inr hj.1⟩ (.inl rfl) rfl rfl (by simp) ?_ ?_ ?_
    · simp [hb]
    · simp [hb]
    · simp [grip, hs]
  | @check j hs | @arm j hs | @parkFail j hs hq | @disarmFailed j hs hq =>
    obtain ⟨rfl, hb, hj, hcancel⟩ := h.suspending hs rfl (by decide)
    simp only [Suspending, hs] at hj
    refine h.put (.of_suspending hb ?_ hcancel) (.inl rfl) rfl rfl ?_ (fun _ => id)
      (fun _ => rfl) ?_
    · first | exact hj | exact ⟨hj.1, hj.2.2.2⟩ | exact ⟨hj.1, rfl, hq⟩
    · simp [hs]
    · simp [grip, hs]
  | publish hs ha => exact h.publish hs ha hf
  | park hs hw => exact h.park hs hw
  | @lookSet j hs | @look j hs | @unparkFail j hs =>
    refine h.put ((h.sound j).suspend_detached (by simp [hs]) rfl) (.inr rfl) rfl rfl ?_
      (fun _ => id) (fun _ => rfl) ?_
    · simp [hs]
    · simp [grip, hs]
  | unpark hs hw => exact h.unpark hs hw
  | settle hs => exact h.settle hs
  | reclaim hs => exact h.reclaimFailed hs
  | @awaitResume j hb | @destroy j hb =>
    obtain ⟨rfl, hj⟩ := h.current hb nofun nofun
    simp only [Sound, hb] at hj
    refine h.put ?_ (.inl rfl) rfl rfl id ?_ ?_ rfl
    · first | exact hj | exact ⟨hj.1, hf⟩
    · simp [hb]
    · simp [hb]
  | @disarm j early hb hq hp =>
    obtain ⟨rfl, hj⟩ := h.current hb nofun nofun
    cases early with simp only [Sound, hb] at hj
    | false =>
      have hheld := hj.2.2.resolve_right fun hbare => by simp [hbare.1] at hp
      refine h.put ⟨hheld, hj.1, rfl, hq⟩ (.inl rfl) rfl rfl id ?_ ?_ rfl
      · simp [hb]
      · simp [hb]
    | true =>
      refine h.put ⟨hj.1, hj.2, rfl, hq⟩ (.inl rfl) rfl rfl id ?_ ?_ rfl
      · simp
      · simp [hb]
  | @disarmBare j early hb hq hp =>
    obtain ⟨rfl, hj⟩ := h.current hb nofun nofun
    cases early with simp only [Sound, hb] at hj
    | false =>
      have hbare := hj.2.2.resolve_left fun hheld => by simp [hheld.1] at hp
      refine h.put ⟨hp, hj.1, ⟨rfl, hq⟩, .inl hbare.2⟩ (.inl rfl) rfl rfl id ?_ (absurd hbare.2) rfl
      simp [hb]
    | true => cases hp.symm.trans hj.1.1
  | unlatch hb hw => exact h.unlatch hb hw
  | @unlatchFail j early hb hw =>
    obtain ⟨rfl, hj⟩ := h.current hb nofun nofun
    refine h.put ?_ (.inl rfl) rfl rfl id (fun hw' => absurd hw' hw) ?_ rfl
    · cases early <;> simp only [Sound, hb] at hj <;> exact hj
    · cases early <;> simp [hb]
  | retire hb => exact h.retire hb
  | retireKill hb => exact h.retireKill hb
  | @request j => exact h.put (h.sound j) (.inr rfl) rfl rfl id (fun _ => id) (fun _ => rfl) rfl
  | @fire j hc | @onCancelFail j hc =>
    exact h.put ((h.sound j).callback (by simp [hc]) _ _) (.inr rfl) rfl rfl id (fun _ => id)
      (fun _ => rfl) rfl
  | onCancel hf' hw => exact h.onCancel hf' hw
  | post ht => exact h.post ht
  | finish hr =>
    exact h.outside rfl rfl rfl (fun _ => id) fun a => by
      simp only [State.hands, hr]
      rfl
  | publishWaking hr hw =>
    exact h.outside rfl rfl rfl (fun a ha => by cases ha) fun a => by
      simp only [State.hands, hr, hw, Word.holds_ready, Word.holds_proxy, RunnerPc.holds]
      omega
  | publishReady hr hw =>
    refine h.outside rfl rfl rfl (fun a ha => by cases ha) fun a => ?_
    have hzero : s.word.holds a = 0 := by
      cases hword : s.word with
      | zero => rfl
      | ready => rfl
      | proxy b => exact absurd hword (hw b)
    simp [State.hands, hr, hzero, RunnerPc.holds]
  | wake hr =>
    refine h.outside rfl rfl rfl (fun _ => id) fun a => ?_
    simp only [State.hands, hr, RunnerPc.holds, count_cons, beq_iff_eq]
    omega
  | runFreed ha hh =>
    obtain ⟨j, hj, -⟩ := h.of_pool ha
    cases hh.symm.trans hj
  | run ha hh hd => exact h.run ha hh hd

end Latch

end Manwe.JoinHandle
