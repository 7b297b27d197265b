import Manwe.Wire.Mailbox.Calls
import Manwe.Wire.Select.Counts

/-!
# The race of the pulls

`Race` says what the decision has to do with what the pulls received: who has won, where each
received value is, and what an empty outcome means. `Resumes` says when the caller goes on, and
with what.
-/

namespace Manwe.Select

open Function List PullPc

open Mailbox

variable {σ ι α η γ : Type*}

/-! ### What the decision is about -/

/-- The pull has only its final section to go, or not even that. -/
def PullPc.done : PullPc α → Bool
  | .finishing | .finished => true
  | .idle | .receiving | .stopping | .putting _ => false

theorem PullPc.early_of_done {p : PullPc α} (h : p.done = true) : p.early = false := by
  cases p <;> first | rfl | cases h

/-- **The race**: what the pulls got, who won, and the values `P` that were pushed back. `got i` is
where the receive of pull `i` stands. -/
structure Race (n : ℕ) (st : SelectState α) (pull : ℕ → PullPc α) (got : ℕ → RecvPc α)
    (P : List (ℕ × α)) : Prop where
  past : ∀ {i}, (pull i).early = false → (got i).over = true
  undecided : st.decided = false → st.result = none ∧ st.exception = none ∧
    ∀ {i}, (pull i).early = false → (pull i).done = true ∧ got i = .returned none
  /-- a value is in the hands of its pull, is the result, or has been pushed back -/
  account : ∀ {i v}, (pull i).early = false → got i = .returned (some v) →
    pull i = .putting v ∨ (st.winningIndex = i ∧ st.result = some v) ∨ (i, v) ∈ P
  putting : ∀ {i v}, pull i = .putting v → got i = .returned (some v)
  won : ∀ {v}, st.result = some v → st.exception = none ∧
    got st.winningIndex = .returned (some v) ∧ (pull st.winningIndex).early = false ∧
    (∀ w, pull st.winningIndex ≠ .putting w) ∧ ∀ w, (st.winningIndex, w) ∉ P
  empty : st.decided = true → st.result = none → st.exception = none →
    ∀ i < n, (pull i).early = false ∧ got i = .returned none
  pushed : ∀ {i v}, (i, v) ∈ P → (pull i).done = true ∧ got i = .returned (some v)
  once : (P.map Prod.fst).Nodup

theorem race_init (n : ℕ) (got : ℕ → RecvPc α) :
    Race n ({} : SelectState α) (fun _ => .idle) got [] :=
  ⟨by simp, by simp, by simp, by simp, by simp, by simp, by simp, by simp⟩

namespace Race

variable {n : ℕ} {st : SelectState α} {pull : ℕ → PullPc α} {got : ℕ → RecvPc α}
  {P : List (ℕ × α)}

variable {st' : SelectState α}

/-- Only the outcome fields matter. -/
theorem of_eq (h : Race n st pull got P) (hd : st'.decided = st.decided)
    (hw : st'.winningIndex = st.winningIndex) (hr : st'.result = st.result)
    (hx : st'.exception = st.exception) : Race n st' pull got P := by
  refine ⟨h.past, ?_, ?_, h.putting, ?_, ?_, h.pushed, h.once⟩
  · rw [hd, hr, hx]
    exact h.undecided
  · rw [hw, hr]
    exact h.account
  · rw [hw, hr, hx]
    exact h.won
  · rw [hd, hr, hx]
    exact h.empty

/-- A receive matters once its pull has been through its first section. -/
theorem of_got (h : Race n st pull got P) {got' : ℕ → RecvPc α}
    (hg : ∀ i, (pull i).early = false → got' i = got i) : Race n st pull got' P := by
  refine ⟨fun {i} hi => ?_, fun hd => ?_, fun {i v} hi hv => ?_, fun {i v} hi => ?_,
    fun {v} hv => ?_, fun hd hr hx i hi => ?_, fun {i v} hi => ?_, h.once⟩
  · rw [hg i hi]
    exact h.past hi
  · obtain ⟨h1, h2, h3⟩ := h.undecided hd
    refine ⟨h1, h2, fun {i} hi => ?_⟩
    rw [hg i hi]
    exact h3 hi
  · rw [hg i hi] at hv
    exact h.account hi hv
  · rw [hg i (by simp [hi])]
    exact h.putting hi
  · obtain ⟨h1, h2, h3, h4⟩ := h.won hv
    exact ⟨h1, (hg _ h3).trans h2, h3, h4⟩
  · obtain ⟨h1, h2⟩ := h.empty hd hr hx i hi
    exact ⟨h1, (hg i h1).trans h2⟩
  · obtain ⟨h1, h2⟩ := h.pushed hi
    exact ⟨h1, (hg i (early_of_done h1)).trans h2⟩

variable {i : ℕ} {p : PullPc α} (h : Race n st pull got P)

include h

/-- A pull is started. -/
theorem setEarly (hi : (pull i).early = true) (hp : p.early = true) :
    Race n st (update pull i p) got P := by
  have hne : ∀ {j}, (update pull i p j).early = false → update pull i p j = pull j := by
    intro j hj
    obtain rfl | hji := eq_or_ne j i
    · rw [update_self, hp] at hj
      cases hj
    · rw [update_of_ne hji]
  have hne' : ∀ {j}, (pull j).early = false → update pull i p j = pull j := by
    intro j hj
    refine update_of_ne ?_ _ _
    rintro rfl
    rw [hi] at hj
    cases hj
  refine ⟨fun {j} hj => ?_, fun hd => ?_, fun {j v} hj hv => ?_, fun {j v} hj => ?_,
    fun {v} hv => ?_, fun hd hr hx j hj => ?_, fun {j v} hj => ?_, h.once⟩
  · rw [hne hj] at hj
    exact h.past hj
  · obtain ⟨h1, h2, h3⟩ := h.undecided hd
    refine ⟨h1, h2, fun {j} hj => ?_⟩
    have hsame := hne hj
    rw [hsame] at hj ⊢
    exact h3 hj
  · have hsame := hne hj
    rw [hsame] at hj ⊢
    exact h.account hj hv
  · rw [hne (by simp [hj])] at hj
    exact h.putting hj
  · obtain ⟨h1, h2, h3, h4, h5⟩ := h.won hv
    rw [hne' h3]
    exact ⟨h1, h2, h3, h4, h5⟩
  · obtain ⟨h1, h2⟩ := h.empty hd hr hx j hj
    rw [hne' h1]
    exact ⟨h1, h2⟩
  · obtain ⟨h1, h2⟩ := h.pushed hj
    rw [hne' (early_of_done h1)]
    exact ⟨h1, h2⟩

/-- A pull that holds nothing moves towards its end. -/
theorem setDone (hi : (pull i).early = false) (hput : ∀ v, pull i ≠ .putting v)
    (hp : p.done = true) :
    Race n st (update pull i p) got P := by
  have hpe := early_of_done hp
  have hearly : ∀ j, (update pull i p j).early = (pull j).early :=
    update_alike rfl (hpe.trans hi.symm)
  have hdone : ∀ {j}, (pull j).done = true → (update pull i p j).done = true := by
    intro j hd
    exact update_rec (p := fun q => done q = true) (fun _ => hp) fun _ => hd
  have hputs : ∀ {j v}, update pull i p j = .putting v ↔ pull j = .putting v := by
    intro j v
    obtain rfl | hj := eq_or_ne j i
    · rw [update_self]
      refine ⟨fun h0 => ?_, fun h0 => absurd h0 (hput v)⟩
      rw [h0] at hp
      cases hp
    · rw [update_of_ne hj]
  refine ⟨fun {j} hj => ?_, fun hd => ?_, fun {j v} hj hv => ?_, fun {j v} hj => ?_,
    fun {v} hv => ?_, fun hd hr hx j hj => ?_, fun {j v} hj => ?_, h.once⟩
  · rw [hearly] at hj
    exact h.past hj
  · obtain ⟨h1, h2, h3⟩ := h.undecided hd
    refine ⟨h1, h2, fun {j} hj => ?_⟩
    rw [hearly] at hj
    exact ⟨hdone (h3 hj).1, (h3 hj).2⟩
  · rw [hearly] at hj
    exact (h.account hj hv).imp_left hputs.mpr
  · exact h.putting (hputs.mp hj)
  · obtain ⟨h1, h2, h3, h4, h5⟩ := h.won hv
    exact ⟨h1, h2, by rw [hearly, h3], fun w hw => h4 w (hputs.mp hw), h5⟩
  · rw [hearly]
    exact h.empty hd hr hx j hj
  · obtain ⟨h1, h2⟩ := h.pushed hj
    exact ⟨hdone h1, h2⟩

/-- A pull goes through its first section and leaves the select as `st'`. -/
theorem enter (hi : (pull i).early = true) (hp : p.early = false) (hover : (got i).over = true)
    (hund : st'.decided = false → st.decided = false ∧ st'.result = none ∧ st'.exception = none ∧
      p.done = true ∧ got i = .returned none)
    (hacc : ∀ v, got i = .returned (some v) → p = .putting v ∨
      (st'.winningIndex = i ∧ st'.result = some v))
    (hput : ∀ v, p = .putting v → got i = .returned (some v))
    (hold : ∀ v, st.result = some v → st'.winningIndex = st.winningIndex ∧ st'.result = some v)
    (hwon : ∀ v, st'.result = some v → st'.exception = none ∧
      ((st.result = some v ∧ st'.winningIndex = st.winningIndex) ∨
        (st'.winningIndex = i ∧ got i = .returned (some v) ∧ ∀ w, p ≠ .putting w)))
    (hempty : st'.decided = true → st'.result = none → st'.exception = none →
      got i = .returned none ∧ ∀ j < n, j ≠ i → (pull j).early = false ∧ got j = .returned none) :
    Race n st' (update pull i p) got P := by
  have hlate : ∀ {j}, (pull j).early = false → j ≠ i := by
    rintro j hj rfl
    rw [hi] at hj
    cases hj
  refine ⟨fun {j} hj => ?_, fun hd => ?_, fun {j v} hj hv => ?_, fun {j v} hj => ?_,
    fun {v} hv => ?_, fun hd hr hx j hj => ?_, fun {j v} hj => ?_, h.once⟩
  · obtain rfl | hji := eq_or_ne j i
    · exact hover
    · rw [update_of_ne hji] at hj
      exact h.past hj
  · obtain ⟨hd0, h1, h2, h3, h4⟩ := hund hd
    refine ⟨h1, h2, fun {j} hj => ?_⟩
    obtain rfl | hji := eq_or_ne j i
    · rw [update_self]
      exact ⟨h3, h4⟩
    · rw [update_of_ne hji] at hj ⊢
      exact (h.undecided hd0).2.2 hj
  · obtain rfl | hji := eq_or_ne j i
    · rw [update_self]
      exact (hacc v hv).imp_right .inl
    · rw [update_of_ne hji] at hj ⊢
      rcases h.account hj hv with h0 | ⟨h1, h2⟩ | h0
      · exact .inl h0
      · obtain ⟨h3, h4⟩ := hold v h2
        exact .inr (.inl ⟨h3.trans h1, h4⟩)
      · exact .inr (.inr h0)
  · obtain ⟨rfl, hj'⟩ | ⟨-, hj⟩ := of_update hj
    · exact hput v hj'
    · exact h.putting hj
  · obtain ⟨hx, ⟨hr, hw⟩ | ⟨hw, hg, hnp⟩⟩ := hwon v hv
    · obtain ⟨-, h2, h3, h4, h5⟩ := h.won hr
      rw [hw, update_of_ne (hlate h3)]
      exact ⟨hx, h2, h3, h4, h5⟩
    · rw [hw, update_self]
      refine ⟨hx, hg, hp, hnp, fun w hm => ?_⟩
      exact hlate (early_of_done (h.pushed hm).1) rfl
  · obtain ⟨h1, h2⟩ := hempty hd hr hx
    obtain rfl | hji := eq_or_ne j i
    · rw [update_self]
      exact ⟨hp, h1⟩
    · rw [update_of_ne hji]
      exact h2 j hj hji
  · obtain ⟨h1, h2⟩ := h.pushed hj
    rw [update_of_ne (hlate (early_of_done h1))]
    exact ⟨h1, h2⟩

/-- The first section of a pull. If it is the last live one, all others have dropped out. -/
theorem decide (hi : pull i = .receiving) (hn : i < n) {g : Except Exn (Option α)}
    (hg : outcome (got i) = some g)
    (hlast : st.decided = false → ¬ 0 < st.live - 1 → ∀ j < n, j ≠ i → (pull j).early = false) :
    Race n (st.decide i g).1 (update pull i (st.decide i g).2) got P := by
  have hearly : (pull i).early = true := by simp [hi]
  have hover : (got i).over = true := by
    revert hg
    cases got i <;> simp [outcome]
  have hok : ∀ r, got i = .returned r ↔ g = .ok r := by
    revert hg
    cases got i <;> simp +contextual [outcome, eq_comm]
  unfold SelectState.decide
  split
  · -- the pull has lost; were the select decided empty, it could not have been receiving
    rename_i hd
    refine h.enter hearly ?_ hover (by simp [hd]) (fun v hv => ?_) (fun v hv => ?_)
      (fun v hv => ⟨rfl, hv⟩) (fun v hv => ⟨(h.won hv).1, .inl ⟨hv, rfl⟩⟩) fun hd' hr hx => ?_
    · split <;> rfl
    · rw [(hok _).mp hv]
      exact .inl rfl
    · rw [hok]
      revert hv
      split <;> simp
    · have := (h.empty hd' hr hx i hn).1
      rw [hearly] at this
      cases this
  rename_i hd
  simp only [Bool.not_eq_true] at hd
  obtain ⟨hr, hx, hnone⟩ := h.undecided hd
  split
  · have hnil := (hok none).mpr rfl
    split_ifs with hl
    · -- it drops out, and others may still deliver
      exact h.enter hearly rfl hover (fun _ => ⟨hd, hr, hx, rfl, hnil⟩) (by simp [hnil])
        (by simp) (by simp [hr]) (by simp [hr]) (by simp [hd])
    · refine h.enter hearly rfl hover (by simp) (by simp [hnil]) (by simp) (by simp [hr])
        (by simp) fun _ _ _ => ⟨hnil, fun j hj hji => ?_⟩
      have hje := hlast hd hl j hj hji
      exact ⟨hje, (hnone hje).2⟩
  · rename_i v
    have hv := (hok (some v)).mpr rfl
    refine h.enter hearly rfl hover (by simp) (fun w hw => ?_) (by simp) (by simp [hr])
      (fun w hw => ?_) (by simp)
    · rw [hv] at hw
      obtain rfl : v = w := by simpa using hw
      exact .inr ⟨rfl, rfl⟩
    · obtain rfl : v = w := by simpa using hw
      exact ⟨rfl, .inr ⟨rfl, hv, by simp⟩⟩
  · refine h.enter hearly rfl hover (by simp) (fun w hw => ?_) (by simp) (by simp [hr])
      (by simp) (by simp)
    have := (hok _).mp hw
    cases this

/-- A value is pushed back. -/
theorem pushBack {v : α} (hi : pull i = .putting v) :
    Race n st (update pull i .finishing) got (P ++ [(i, v)]) := by
  have hgot := h.putting hi
  have hearly : ∀ j, (update pull i .finishing j).early = (pull j).early := update_alike hi rfl
  refine ⟨fun {j} hj => ?_, fun hd => ?_, fun {j w} hj hw => ?_, fun {j w} hj => ?_,
    fun {w} hw => ?_, fun hd hr hx j hj => ?_, fun {j w} hj => ?_, ?_⟩
  · rw [hearly] at hj
    exact h.past hj
  · have := ((h.undecided hd).2.2 (i := i) (by simp [hi])).1
    simp [hi, done] at this
  · rw [hearly] at hj
    rw [mem_append, mem_singleton]
    obtain rfl | hji := eq_or_ne j i
    · rw [hgot] at hw
      obtain rfl : v = w := by simpa using hw
      exact .inr (.inr (.inr rfl))
    · rw [update_of_ne hji]
      rcases h.account hj hw with h0 | h0 | h0
      · exact .inl h0
      · exact .inr (.inl h0)
      · exact .inr (.inr (.inl h0))
  · obtain rfl | hji := eq_or_ne j i
    · simp at hj
    · rw [update_of_ne hji] at hj
      exact h.putting hj
  · obtain ⟨h1, h2, h3, h4, h5⟩ := h.won hw
    have hne : st.winningIndex ≠ i := fun h0 => h4 v (h0 ▸ hi)
    refine ⟨h1, h2, by rw [hearly, h3], ?_, fun x hm => ?_⟩
    · rw [update_of_ne hne]
      exact h4
    · rw [mem_append, mem_singleton, Prod.mk.injEq] at hm
      exact hm.elim (h5 x) fun h0 => hne h0.1
  · rw [hearly]
    exact h.empty hd hr hx j hj
  · rw [mem_append, mem_singleton, Prod.mk.injEq] at hj
    obtain rfl | hji := eq_or_ne j i
    · rw [update_self]
      refine ⟨rfl, ?_⟩
      rcases hj with hj | ⟨-, rfl⟩
      · exact (h.pushed hj).2
      · exact hgot
    · rw [update_of_ne hji]
      exact h.pushed (hj.resolve_right fun h0 => hji h0.1)
  · rw [map_append, nodup_append]
    refine ⟨h.once, by simp, ?_⟩
    rintro j hj k hk rfl
    obtain rfl : j = i := by simpa using hk
    obtain ⟨⟨k, w⟩, hm, rfl⟩ := mem_map.mp hj
    have := (h.pushed hm).1
    rw [hi] at this
    cases this

/-- The failure of a spawn decides, if nobody has. -/
theorem fail (unspawned : ℕ) : Race n (st.failSelect unspawned).1 pull got P := by
  by_cases hd : st.decided = true
  · refine h.of_eq ?_ ?_ ?_ ?_
    all_goals
      dsimp only [SelectState.failSelect]
      rw [if_pos hd]
      split <;> rfl
  · simp only [Bool.not_eq_true] at hd
    obtain ⟨hr, hx, hnone⟩ := h.undecided hd
    have hfail : Race n { st with decided := true, exception := some .failed } pull got P := by
      refine ⟨h.past, by simp, fun {i v} hi hv => ?_, h.putting, by simp [hr], by simp, h.pushed,
        h.once⟩
      rw [(hnone hi).2] at hv
      cases hv
    refine hfail.of_eq ?_ ?_ ?_ ?_
    all_goals
      dsimp only [SelectState.failSelect]
      rw [hd]
      simp only [Bool.false_eq_true, if_false]
      split <;> rfl

end Race

/-! ### When the caller goes on -/

/-- **The caller** is resumed once the select is published, and ends with what was decided. -/
structure Resumes (n : ℕ) (st : SelectState α) (caller : CallerPc α) : Prop where
  waiter : st.waiter = true → caller = .parked ∧ st.published = false
  parked : caller = .parked → st.waiter = true ∨ st.published = true
  resuming : caller = .resuming → st.published = true
  returned : ∀ {k r}, caller = .returned k r → (n = 0 ∧ k = 0 ∧ r = none) ∨
    (st.published = true ∧ st.exception = none ∧ k = st.winningIndex ∧ r = st.result)
  threw : ∀ {x}, caller = .threw x → st.published = true ∧ st.exception = some x

/-- The caller is neither registered with the select nor has it been served by it. -/
def CallerPc.unserved : CallerPc α → Bool
  | .idle | .spawning _ _ | .failing | .awaiting | .looked | .dropped | .destroyed => true
  | .parked | .resuming | .returned _ _ | .threw _ => false

variable {caller : CallerPc α}

variable {n : ℕ} {st : SelectState α}

theorem resumes_unserved (hw : st.waiter = false) (hc : caller.unserved = true) :
    Resumes n st caller := by
  refine ⟨by simp [hw], ?_, ?_, ?_, ?_⟩
  all_goals
    intros
    subst_vars
    cases hc

theorem resumes_resuming (hw : st.waiter = false) (hp : st.published = true) :
    Resumes n st .resuming :=
  ⟨by simp [hw], by simp, fun _ => hp, by simp, by simp⟩

/-- Until the select is published, only the caller's registration matters. -/
theorem Resumes.of_unpublished {st st' : SelectState α} (h : Resumes n st caller)
    (hp : st.published = false) (hw : st'.waiter = true → st.waiter = true ∧ st'.published = false)
    (hw' : st.waiter = true → st'.waiter = true ∨ st'.published = true) : Resumes n st' caller := by
  refine ⟨fun h0 => ⟨(h.waiter (hw h0).1).1, (hw h0).2⟩, fun h0 => ?_, fun h0 => ?_,
    fun h0 => ?_, fun h0 => ?_⟩
  · rcases h.parked h0 with h1 | h1
    · exact hw' h1
    · rw [hp] at h1
      cases h1
  · have := h.resuming h0
    rw [hp] at this
    cases this
  · refine (h.returned h0).imp_right fun h1 => ?_
    rw [hp] at h1
    cases h1.1
  · have := (h.threw h0).1
    rw [hp] at this
    cases this

/-- Only a parked caller is registered. -/
theorem Resumes.waiter_eq (h : Resumes n st caller) (hc : caller ≠ .parked) :
    st.waiter = false := by
  by_contra hw
  exact hc (h.waiter (by simpa using hw)).1

/-- The stop flag means nothing to the caller. -/
theorem Resumes.stop (h : Resumes n st caller) : Resumes n { st with stop := true } caller :=
  ⟨h.waiter, h.parked, h.resuming, h.returned, h.threw⟩

end Manwe.Select
