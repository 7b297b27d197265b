import Manwe.Yarn.JoinHandle.Steps

/-!
# What a joiner is woken for

The reference on a proxy being in one place, what remains is that the right news comes with it: a
joiner is resumed because the task's outcome was published or because its own join was cancelled,
and a cancellation whose callback has run does not leave the joiner parked.
-/

namespace Manwe.JoinHandle

open Function Join

variable {α χ : Type*} (s : State α χ) (j : ℕ) (jn : Join)

/-- Apart from what lives at the address, only the join's record changes. -/
theorem reclaim_eq : s.reclaim j jn =
    { s.put j jn.reclaim with home := (s.reclaim j jn).home } := by
  unfold State.reclaim
  split <;> rfl

theorem release_eq : s.release j jn =
    { s.put j jn.release with home := (s.release j jn).home } := by
  unfold State.release
  split <;> rfl

theorem Join.reclaim_requested (jn : Join) : jn.reclaim.requested = jn.requested := by
  unfold Join.reclaim
  split <;> rfl

theorem Join.reclaim_body (jn : Join) : jn.reclaim.body = jn.body := by
  unfold Join.reclaim
  split <;> rfl

/-! ### Cancellation -/

/-- Nothing of a cancellation shows before it was requested. -/
structure Join.Told (jn : Join) : Prop where
  cancelled : jn.cancelled = true → jn.requested = true
  watch : jn.watch = true → jn.requested = true
  firing : jn.firing ≠ 0 → jn.requested = true
  took : jn.took ≠ 0 → jn.requested = true
  unparking : jn.suspend = .unparking → jn.requested = true
  unparked : jn.suspend = .unparked → jn.requested = true

theorem Join.Told.reclaim {jn : Join} (h : jn.Told) : jn.reclaim.Told := by
  unfold Join.reclaim
  split
  · exact { h with }
  · exact h

variable {s t : State α χ} {e : Event α χ}

theorem told_step (h : ∀ i, (s.joins i).Told) (hc : Change s e t) : ∀ i, (t.joins i).Told := by
  have hput {j : ℕ} {jn : Join} (hj : jn.Told) (i : ℕ) : (update s.joins j jn i).Told :=
    (forall_update_iff s.joins fun _ jn => jn.Told).mpr ⟨hj, fun i _ => h i⟩ i
  cases hc with
  | @checkCancelled j hs hr =>
    exact hput { h j with cancelled := fun _ => hr, unparking := nofun, unparked := nofun }
  | @lookSet j hs hw =>
    exact hput { h j with unparking := fun _ => (h j).watch hw, unparked := nofun }
  | @unpark j hs =>
    exact hput { h j with unparking := nofun, unparked := fun _ => (h j).unparking hs }
  | @settle j hs =>
    have hr := (h j).unparked hs
    rw [reclaim_eq]
    exact hput (Told.reclaim
      { h j with cancelled := fun _ => hr, unparking := nofun, unparked := nofun })
  | @fire j ha hr => exact hput { h j with watch := fun _ => hr, firing := fun _ => hr }
  | @onCancel j hf =>
    have hr := (h j).firing hf
    exact hput { h j with firing := fun _ => hr, took := fun _ => hr }
  | @onCancelFail j hf => exact hput { h j with firing := fun _ => (h j).firing hf }
  | @post j ht =>
    have hr := (h j).took ht
    exact hput { h j with cancelled := fun _ => hr, took := fun _ => hr }
  | @request =>
    exact hput ⟨fun _ => rfl, fun _ => rfl, fun _ => rfl, fun _ => rfl, fun _ => rfl, fun _ => rfl⟩
  | reclaim =>
    rw [reclaim_eq]
    exact hput (Told.reclaim { h _ with unparking := nofun, unparked := nofun })
  | retire =>
    rw [reclaim_eq]
    exact hput (Told.reclaim { h _ with })
  | retireKill | run =>
    rw [release_eq]
    exact hput { h _ with }
  | notReady | check | publish | arm | park | parkFail | look | unparkFail | disarmFailed =>
    exact hput { h _ with unparking := nofun, unparked := nofun }
  | joinFirst | joinNext | ready | awaitResume | destroy | disarm | disarmBare | unlatch
  | unlatchFail => exact hput { h _ with }
  | _ => exact h

/-- Only a request marks a join as requested. -/
theorem requested_step (hc : Change s e t) {i : ℕ} (h : (t.joins i).requested = true) :
    (s.joins i).requested = true ∨ e = .request i := by
  have hput {j : ℕ} {jn : Join} (h : (update s.joins j jn i).requested = true)
      (hj : jn.requested = (s.joins j).requested) : (s.joins i).requested = true := by
    rwa [update_alike rfl hj] at h
  cases hc with
  | @request j =>
    by_cases hi : i = j
    · exact .inr (hi ▸ rfl)
    · left
      simpa [hi] using h
  | settle | reclaim | retire =>
    rw [reclaim_eq] at h
    exact .inl (hput h (reclaim_requested _))
  | retireKill | run =>
    rw [release_eq] at h
    exact .inl (hput h rfl)
  | finish | publishWaking | publishReady | wake | runFreed => exact .inl h
  | _ => exact .inl (hput h rfl)

/-! ### The outcome -/

@[simp] def RunnerPc.published : RunnerPc → Bool
  | .waking _ | .ended => true
  | _ => false

/-- The word is ready when the runner has published, and the outcome is stored by then. -/
structure Published (s : State α χ) : Prop where
  ready : s.word = .ready ↔ s.runner.published = true
  stored : s.runner ≠ .working → s.outcome ≠ none

theorem published_step (h : Published s) (hc : Change s e t) : Published t := by
  have hword {w : Word} (hw : s.word = w) (hne : w ≠ .ready) : ¬ s.runner.published = true :=
    fun hp => hne (hw ▸ h.ready.mpr hp)
  cases hc with
  | park hs hw | unpark hs hw | onCancel hs hw | unlatch hs hw =>
    exact ⟨iff_of_false nofun (hword hw nofun), h.stored⟩
  | finish hr =>
    refine ⟨?_, nofun⟩
    simpa [hr] using h.ready
  | publishWaking hr | publishReady hr => exact ⟨by simp, fun _ => h.stored (by simp [hr])⟩
  | wake hr =>
    refine ⟨?_, fun _ => h.stored (by simp [hr])⟩
    simpa [hr] using h.ready
  | settle | reclaim | retire | retireKill | run =>
    simp only [State.reclaim, State.release]
    split <;> exact ⟨h.ready, h.stored⟩
  | _ => exact ⟨h.ready, h.stored⟩

/-! ### The reason -/

/-- **A joiner is resumed for a reason**, and does not stay parked after its callback has run. -/
structure Join.News (word : Word) (pool : List ℕ) (jn : Join) : Prop where
  posted : jn.body = .parked → jn.addr ∈ pool → jn.cancelled = true ∨ word = .ready
  resumed : jn.body = .resumed → jn.cancelled = true ∨ word = .ready
  failed : jn.suspend = .failing ∨ jn.suspend = .reclaiming → word = .ready
  heard : word = .proxy jn.addr → jn.body.latched = true → jn.watch = true →
    jn.suspend = .checking ∨ jn.suspend = .unparking ∨ jn.firing ≠ 0

namespace Join.News

variable {word : Word} {pool : List ℕ} {jn : Join}

/-- Once the outcome is published there is always a reason. -/
theorem ready (pool : List ℕ) (jn : Join) : jn.News .ready pool :=
  ⟨fun _ _ => .inr rfl, fun _ => .inr rfl, fun _ => rfl, nofun⟩

/-- The word changes, and it was not ready: every reason so far is a cancellation. -/
theorem reword (h : jn.News word pool) (hw : word ≠ .ready) {w : Word}
    (hn : w = .proxy jn.addr → jn.body.latched = false) : jn.News w pool where
  posted hb ha := .inl ((h.posted hb ha).resolve_right hw)
  resumed hb := .inl ((h.resumed hb).resolve_right hw)
  failed hf := absurd (h.failed hf) hw
  heard hw' hl := by
    rw [hn hw'] at hl
    cases hl

theorem word_zero (h : jn.News word pool) (hw : word ≠ .ready) : jn.News .zero pool :=
  h.reword hw nofun

theorem pool_mono (h : jn.News word pool) {pool' : List ℕ} (hsub : ∀ a, a ∈ pool' → a ∈ pool) :
    jn.News word pool' :=
  { h with posted := fun hb ha => h.posted hb (hsub _ ha) }

/-- In the middle of `await_suspend` a join is neither in the word nor resumed. -/
theorem of_suspending (hb : jn.body = .suspending)
    (hf : jn.suspend = .failing ∨ jn.suspend = .reclaiming → word = .ready) : jn.News word pool :=
  ⟨by simp [hb], by simp [hb], hf, by simp [hb]⟩

theorem reclaim (h : jn.News word pool) : jn.reclaim.News word pool := by
  unfold Join.reclaim
  split
  · exact { h with }
  · exact h

end Join.News

theorem news_step (hl : Latch s) (hp : Published s) (h : ∀ i, (s.joins i).News s.word s.pool)
    (hc : Change s e t) : ∀ i, (t.joins i).News t.word t.pool := by
  have hput {j : ℕ} {jn : Join} (hj : jn.News s.word s.pool) (i : ℕ) :
      (update s.joins j jn i).News s.word s.pool :=
    (forall_update_iff s.joins fun _ jn => jn.News s.word s.pool).mpr ⟨hj, fun i _ => h i⟩ i
  have hzero {j : ℕ} {jn : Join} {a : ℕ} (hw : s.word = .proxy a) (hj : jn.News .zero s.pool)
      (i : ℕ) : (update s.joins j jn i).News .zero s.pool :=
    (forall_update_iff s.joins fun _ jn => jn.News .zero s.pool).mpr
      ⟨hj, fun i _ => (h i).word_zero (by simp [hw])⟩ i
  cases hc with
  | joinFirst | joinNext | awaitResume | disarmBare | unlatchFail =>
    exact hput { h _ with posted := by simp, resumed := by simp, heard := by simp }
  | @ready j hb hw =>
    exact hput { h j with posted := by simp, resumed := fun _ => .inr hw, heard := by simp }
  | notReady => exact hput ⟨by simp, by simp, by simp, by simp⟩
  | checkCancelled => exact hput ⟨by simp, fun _ => .inl rfl, by simp, by simp⟩
  | check hs | publish hs | arm hs =>
    exact hput (.of_suspending (hl.suspending hs rfl (by decide)).2.1 (by simp))
  | @park j hs hw =>
    obtain ⟨rfl, hb, hheld, -⟩ := hl.suspending hs rfl (by decide)
    simp only [Suspending, hs] at hheld
    refine (forall_update_iff s.joins fun _ jn =>
      jn.News (.proxy (s.joins s.cur).addr) s.pool).mpr ⟨⟨fun _ ha => ?_, by simp, by simp, ?_⟩,
        fun i hi => ?_⟩
    · -- the proxy was in no place before
      obtain ⟨k, hk, hwaits, -⟩ := hl.of_pool ha
      have hr0 : (s.joins s.cur).refs ≠ 0 := by simp [hheld.1.2.2]
      obtain rfl := Option.some.inj (hk.symm.trans (hl.home_self hr0))
      simp [hb] at hwaits
    · exact fun _ _ _ => .inl rfl
    · refine (h i).reword (by simp [hw]) fun _ => ?_
      by_contra hlat
      exact hi (hl.eq_cur_of_latched (Bool.not_eq_false _ ▸ hlat))
  | @parkFail j hs hw =>
    obtain ⟨rfl, hb, -, -⟩ := hl.suspending hs rfl (by decide)
    refine hput (.of_suspending hb fun _ => ?_)
    cases hword : s.word with
    | zero => exact absurd hword hw
    | ready => rfl
    | proxy a => simpa [hb] using (hl.word a hword).2
  | @lookSet j =>
    exact hput { h j with failed := by simp, heard := fun _ _ _ => .inr (.inl rfl) }
  | @look j hs hw =>
    exact hput { h j with failed := by simp, heard := fun _ _ hw' => by cases hw.symm.trans hw' }
  | @unpark j hs hw =>
    exact hzero hw { (h j).word_zero (by simp [hw]) with failed := by simp, heard := by simp }
  | @unparkFail j hs hw =>
    exact hput { h j with failed := by simp, heard := fun hw' => absurd hw' hw }
  | settle =>
    rw [reclaim_eq]
    exact hput (News.reclaim ⟨by simp, fun _ => .inl rfl, by simp, by simp⟩)
  | @disarmFailed j hs =>
    have hw := (h j).failed (.inl hs)
    exact hput (.of_suspending (hl.suspending hs rfl (by decide)).2.1 fun _ => hw)
  | @reclaim j hs =>
    have hw := (h j).failed (.inr hs)
    rw [reclaim_eq]
    exact hput (News.reclaim ⟨by simp, fun _ => .inr hw, by simp, by simp⟩)
  | @destroy j hb =>
    exact hput { h j with
      posted := by simp
      resumed := by simp
      heard := fun hw _ => (h j).heard hw (by simp [hb]) }
  | @disarm j early hb =>
    refine hput { h j with posted := by simp, resumed := by simp, heard := fun hw hlat => ?_ }
    refine (h j).heard hw ?_
    cases early with
    | false => cases hlat
    | true => rw [hb]; rfl
  | @unlatch j early hb hw =>
    exact hzero hw { (h j).word_zero (by simp [hw]) with
      posted := by simp
      resumed := by simp
      heard := by simp }
  | retire =>
    rw [reclaim_eq]
    exact hput (News.reclaim { h _ with posted := by simp, resumed := by simp, heard := by simp })
  | retireKill =>
    rw [release_eq]
    exact hput { h _ with posted := by rintro ⟨⟩, resumed := by rintro ⟨⟩, heard := by rintro _ ⟨⟩ }
  | request => exact hput { h _ with }
  | @fire j => exact hput { h j with heard := fun _ _ _ => .inr (.inr (by simp)) }
  | @onCancel j hf hw => exact hzero hw { (h j).word_zero (by simp [hw]) with heard := by simp }
  | @onCancelFail j hf hw => exact hput { h j with heard := fun hw' => absurd hw' hw }
  | @post j ht =>
    obtain rfl := hl.eq_cur_of_not_quiet fun hq => ht hq.2.2
    refine (forall_update_iff s.joins fun _ jn =>
      jn.News s.word ((s.joins s.cur).addr :: s.pool)).mpr ⟨?_, fun i hi => ?_⟩
    · exact { h s.cur with posted := fun _ _ => .inl rfl, resumed := fun _ => .inl rfl }
    · refine { h i with posted := fun hb => ?_ }
      exact absurd (hl.eq_cur_of_latched (by simp [hb])) hi
  | finish => exact h
  | publishWaking | publishReady => exact fun i => .ready _ _
  | wake hr =>
    have hw : s.word = .ready := hp.ready.mpr (by simp [hr])
    exact fun i => hw ▸ .ready _ _
  | runFreed => exact fun i => (h i).pool_mono fun _ => List.mem_of_mem_erase
  | @run a j ha hh hd =>
    have hmono : ∀ b, b ∈ s.pool.erase a → b ∈ s.pool := fun _ => List.mem_of_mem_erase
    rw [release_eq]
    refine (forall_update_iff s.joins fun _ jn =>
      jn.News s.word (s.pool.erase a)).mpr ⟨?_, fun i _ => (h i).pool_mono hmono⟩
    have hj := (h j).pool_mono hmono
    obtain ⟨rfl, -, ⟨-, hb, hst⟩ | ⟨hb, hst⟩⟩ := hl.run_cases ha hh hd
    · have hres : (s.joins j).resume.release.body = .resumed := by simp [resume, release, hst]
      exact ⟨by simp [hres], fun _ => (h j).posted hb ha, hj.failed, by simp [hres]⟩
    · have hres : (s.joins j).resume.release.body = .gone := by simp [resume, release, hst, hb]
      exact ⟨by simp [hres], by simp [hres], hj.failed, by simp [hres]⟩

end Manwe.JoinHandle
