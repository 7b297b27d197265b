import Mathlib
import Manwe.Transition.Tally
import Manwe.Wire.Select

/-!
# The counters of a select

`outstanding` counts the pulls that have yet to go through their final section, those that were
never started included; `live`, as long as nothing is decided, those that may still deliver.
`Counts` says so, and each section of the source keeps it. It follows that the select is published
exactly when the started pulls have finished.
-/

namespace Manwe.Select

open Function CallerPc Tally Nat

open Mailbox

variable {σ ι α η γ : Type*}

/-! ### What the counters count -/

/-- The pull has been started and has not finished. -/
@[simp] def PullPc.busy : PullPc α → Bool
  | .receiving | .stopping | .putting _ | .finishing => true
  | .idle | .finished => false

/-- The pull has not been through its first section. -/
@[simp] def PullPc.early : PullPc α → Bool
  | .idle | .receiving => true
  | .stopping | .putting _ | .finishing | .finished => false

/-- The loop that starts the pulls is over. -/
@[simp] def CallerPc.spawned : CallerPc α → Bool
  | .idle | .spawning _ _ => false
  | .failing | .awaiting | .looked | .parked | .resuming | .returned _ _ | .threw _ | .dropped
  | .destroyed => true

/-- How many of `n` pulls the loop has yet to start. -/
def CallerPc.unspawned (n : ℕ) : CallerPc α → ℕ
  | .spawning _ k => n - k
  | .idle | .failing | .awaiting | .looked | .parked | .resuming | .returned _ _ | .threw _
  | .dropped | .destroyed => 0

/-- **The counters** of a select over `n` channels: `outstanding` counts the busy pulls and those
not yet started; `live`, until the select is decided, those that may still deliver. -/
structure Counts (n : ℕ) (st : SelectState α) (caller : CallerPc α) (pull : ℕ → PullPc α) :
    Prop where
  index : ∀ {i}, pull i ≠ .idle → i < n
  fresh : caller = .idle → ∀ i, pull i = .idle
  spawning : ∀ {start k}, caller = .spawning start k →
    start < n ∧ k < n ∧ ∀ i, pull i ≠ .idle ↔ ∃ j < k, (start + j) % n = i
  complete : caller.spawned = true → st.decided = false → ∀ i < n, pull i ≠ .idle
  busy : ∃ b, Tally (fun i => (pull i).busy = true) b ∧ st.outstanding = b + caller.unspawned n
  live : 0 < n → caller ≠ .idle → st.decided = false →
    Tally (fun i => i < n ∧ (pull i).early = true) st.live ∧ 0 < st.live
  published : st.published = true ↔ 0 < n ∧ caller.spawned = true ∧ st.outstanding = 0

theorem counts_init (n : ℕ) : Counts n ({} : SelectState α) .idle fun _ => .idle :=
  ⟨by simp, by simp, by simp, by simp, ⟨0, zero (by simp), rfl⟩, by simp, by simp⟩

namespace Counts

variable {n : ℕ} {st : SelectState α} {caller : CallerPc α} {pull : ℕ → PullPc α} {i k : ℕ}

variable (h : Counts n st caller pull)

include h

/-- A busy pull is outstanding. -/
theorem outstanding_pos (hi : (pull i).busy = true) : 0 < st.outstanding := by
  obtain ⟨b, hb, hout⟩ := h.busy
  have := hb.pos hi
  omega

/-- Nothing is published while a pull is busy. -/
theorem unpublished (hi : (pull i).busy = true) : st.published = false := by
  have hpos := h.outstanding_pos hi
  by_contra hp
  have := (h.published.mp (by simpa using hp)).2.2
  omega

/-- Nothing is published before the loop is over. -/
theorem unpublished_of_loop (hc : caller.spawned = false) : st.published = false := by
  by_contra hp
  have := (h.published.mp (by simpa using hp)).2.1
  rw [hc] at this
  cases this

/-- Once the select is published, every pull that was started has finished. -/
theorem finished (hp : st.published = true) (hi : pull i ≠ .idle) : pull i = .finished := by
  have hbusy : (pull i).busy = false := by
    by_contra hb
    rw [h.unpublished (by simpa using hb)] at hp
    cases hp
  revert hi hbusy
  cases pull i <;> simp

/-- The select is published as soon as the loop is over and the started pulls have finished. -/
theorem published_of_finished (hn : 0 < n) (hc : caller.spawned = true)
    (hall : ∀ i, pull i ≠ .idle → pull i = .finished) : st.published = true := by
  obtain ⟨b, hb, hout⟩ := h.busy
  have hzero : b = 0 := hb.unique <| zero fun i hi => by
    by_cases hidle : pull i = .idle
    · simp [hidle] at hi
    · simp [hall i hidle] at hi
  have hun : caller.unspawned n = 0 := by cases caller <;> first | rfl | cases hc
  exact h.published.mpr ⟨hn, hc, by omega⟩

omit h

variable {st' : SelectState α}

/-- Only four fields count. -/
theorem of_eq (h : Counts n st caller pull) (hd : st'.decided = st.decided)
    (hl : st'.live = st.live) (ho : st'.outstanding = st.outstanding)
    (hp : st'.published = st.published) : Counts n st' caller pull := by
  refine ⟨h.index, h.fresh, h.spawning, ?_, ?_, ?_, ?_⟩
  · rw [hd]
    exact h.complete
  · rw [ho]
    exact h.busy
  · rw [hd, hl]
    exact h.live
  · rw [hp, ho]
    exact h.published

/-- The caller moves on after the loop. -/
theorem move (h : Counts n st caller pull) {caller' : CallerPc α} (hc : caller.spawned = true)
    (hc' : caller'.spawned = true) : Counts n st caller' pull := by
  have hne : ∀ {c : CallerPc α}, c.spawned = true → c ≠ .idle ∧ c.unspawned n = 0 ∧
      ∀ start k, c ≠ .spawning start k := by
    intro c hc
    cases c <;> simp_all [unspawned]
  obtain ⟨hidle, hun, -⟩ := hne hc
  obtain ⟨hidle', hun', hsp'⟩ := hne hc'
  refine ⟨h.index, fun h0 => absurd h0 hidle', fun h0 => absurd h0 (hsp' _ _),
    fun _ => h.complete hc, ?_, fun hn _ => h.live hn hidle, ?_⟩
  · rw [hun', ← hun]
    exact h.busy
  · have hpub := h.published
    rw [hc] at hpub
    rw [hc']
    exact hpub

variable {p : PullPc α}

theorem update_ne_idle {j : ℕ} (hp : p ≠ .idle) :
    update pull i p j ≠ .idle ↔ j = i ∨ pull j ≠ .idle := by
  obtain rfl | hj := eq_or_ne j i
  · simp [hp]
  · simp [hj]

variable (h : Counts n st caller pull)

include h

/-- A pull that has been started moves on. -/
theorem setPull (hi : (pull i).busy = true) (hp : p.busy = true)
    (hd : st'.decided = false → st.decided = false) (ho : st'.outstanding = st.outstanding)
    (hpub : st'.published = st.published)
    (hl : 0 < n → caller ≠ .idle → st'.decided = false → Tally (fun j => j < n ∧
      (update pull i p j).early = true) st'.live ∧ 0 < st'.live) :
    Counts n st' caller (update pull i p) := by
  have hidle : pull i ≠ .idle := by
    intro h0
    simp [h0] at hi
  have hpidle : p ≠ .idle := by
    rintro rfl
    cases hp
  have hne : ∀ j, update pull i p j ≠ .idle ↔ pull j ≠ .idle := by
    intro j
    rw [update_ne_idle hpidle]
    exact ⟨fun hj => hj.elim (fun hj => hj ▸ hidle) id, .inr⟩
  refine ⟨fun hj => h.index ((hne _).mp hj), fun hc => absurd (h.fresh hc i) hidle,
    fun hc => ?_, fun hc hd' j hj => (hne j).mpr (h.complete hc (hd hd') j hj), ?_, hl, ?_⟩
  · obtain ⟨h1, h2, h3⟩ := h.spawning hc
    exact ⟨h1, h2, fun j => (hne j).trans (h3 j)⟩
  · obtain ⟨b, hb, hout⟩ := h.busy
    refine ⟨b, update (fun q : PullPc α => q.busy = true) hb ?_, ho.trans hout⟩
    rw [hi, hp]
  · rw [hpub, ho]
    exact h.published

/-- A pull that is past its first section moves on. -/
theorem setPull_late (hi : (pull i).busy = true)
    (hi' : (pull i).early = false) (hp : p.busy = true) (hp' : p.early = false)
    (hd : st'.decided = st.decided) (hl : st'.live = st.live)
    (ho : st'.outstanding = st.outstanding) (hpub : st'.published = st.published) :
    Counts n st' caller (update pull i p) := by
  refine h.setPull hi hp (fun h0 => hd ▸ h0) ho hpub fun hn hc hd' => ?_
  rw [hl]
  obtain ⟨ht, hpos⟩ := h.live hn hc (hd ▸ hd')
  exact ⟨ht.congr fun j => by rw [update_alike rfl (hp'.trans hi'.symm)], hpos⟩

/-- The first section of a pull. -/
theorem decide (hi : pull i = .receiving) (got : Except Exn (Option α)) :
    Counts n (st.decide i got).1 caller (update pull i (st.decide i got).2) := by
  have hbusy : (pull i).busy = true := by simp [hi]
  unfold SelectState.decide
  split
  · rename_i hd
    refine h.setPull hbusy ?_ id rfl rfl fun _ _ hd' => ?_
    · split <;> rfl
    · rw [hd] at hd'
      cases hd'
  split
  · split
    · -- the pull drops out
      rename_i hlive
      refine h.setPull hbusy rfl id rfl rfl fun hn hc hd' => ?_
      obtain ⟨ht, -⟩ := h.live hn hc hd'
      refine ⟨ht.erase (j := i) ⟨h.index (by simp [hi]), by simp [hi]⟩ fun j => ?_, hlive⟩
      obtain rfl | hj := eq_or_ne j i
      · simp
      · simp [hj]
    · exact h.setPull hbusy rfl (by simp) rfl rfl (by simp)
  · exact h.setPull hbusy rfl (by simp) rfl rfl (by simp)
  · exact h.setPull hbusy rfl (by simp) rfl rfl (by simp)

omit h

/-- Without channels the select returns at once. -/
theorem start_empty (h : Counts 0 st .idle pull) : Counts 0 st (.returned 0 none) pull :=
  ⟨h.index, by simp, by simp, by simp, h.busy, by simp, by simp [h.unpublished_of_loop rfl]⟩

theorem start (h : Counts n st .idle pull) (hn : 0 < n) (rotor : ℕ) :
    Counts n { st with live := n, outstanding := n } (.spawning (rotor % n) 0) pull := by
  have hidle := h.fresh rfl
  have hunpub := h.unpublished_of_loop rfl
  refine ⟨h.index, by simp, fun {a k} hc => ?_, by simp,
    ⟨0, zero (by simp [hidle]), by simp [unspawned]⟩,
    fun _ _ _ => ⟨⟨Finset.range n, by simp [hidle], Finset.card_range n⟩, hn⟩,
    by simp [hunpub]⟩
  obtain ⟨rfl, rfl⟩ : rotor % n = a ∧ 0 = k := by simpa using hc
  exact ⟨mod_lt _ hn, hn, by simp [hidle]⟩

variable {start : ℕ}

/-- The pulls are started in turn, so the next one has not been started. -/
theorem next_idle (h : Counts n st (.spawning start k) pull) : pull ((start + k) % n) = .idle := by
  obtain ⟨-, hk, hsp⟩ := h.spawning rfl
  by_contra hne
  obtain ⟨j, hj, hjk⟩ := (hsp _).mp hne
  have hmod : j ≡ k [MOD n] := ModEq.add_left_cancel' start hjk
  have := hmod.eq_of_lt_of_lt (hj.trans hk) hk
  omega

theorem exists_turn (hstart : start < n) (hi : i < n) : ∃ j < n, (start + j) % n = i := by
  rcases lt_or_ge i start with hlt | hge
  · refine ⟨i + n - start, by omega, ?_⟩
    rw [show start + (i + n - start) = i + n by omega, add_mod_right, mod_eq_of_lt hi]
  · refine ⟨i - start, by omega, ?_⟩
    rw [show start + (i - start) = i by omega, mod_eq_of_lt hi]

theorem spawn (h : Counts n st (.spawning start k) pull) :
    Counts n st (if k + 1 < n then .spawning start (k + 1) else .awaiting)
      (update pull ((start + k) % n) .receiving) := by
  obtain ⟨hstart, hk, hsp⟩ := h.spawning rfl
  have hidle := h.next_idle
  have hlt : (start + k) % n < n := mod_lt _ (by omega)
  have hne : ∀ i, update pull ((start + k) % n) .receiving i ≠ .idle ↔
      ∃ j < k + 1, (start + j) % n = i := by
    intro i
    rw [update_ne_idle (by simp), hsp]
    constructor
    · rintro (rfl | ⟨j, hj, rfl⟩)
      · exact ⟨k, by omega, rfl⟩
      · exact ⟨j, by omega, rfl⟩
    · rintro ⟨j, hj, rfl⟩
      rcases Nat.lt_succ_iff_lt_or_eq.mp hj with hj | rfl
      · exact .inr ⟨j, hj, rfl⟩
      · exact .inl rfl
  have hunpub := h.unpublished_of_loop rfl
  obtain ⟨b, hb, hout⟩ := h.busy
  have hb' := update_enter (j := (start + k) % n) (x := .receiving)
    (fun q : PullPc α => q.busy = true) hb (by simp [hidle]) rfl
  have hlive : st.decided = false → Tally (fun i => i < n ∧
      (update pull ((start + k) % n) .receiving i).early = true) st.live ∧ 0 < st.live := by
    intro hd
    obtain ⟨ht, hpos⟩ := h.live (by omega) (by simp) hd
    refine ⟨ht.congr fun j => ?_, hpos⟩
    by_cases hj : j = (start + k) % n
    · subst hj
      simp [hidle]
    · simp [hj]
  have hindex : ∀ {i}, update pull ((start + k) % n) .receiving i ≠ .idle → i < n := by
    intro i hi
    rcases (update_ne_idle (by simp)).mp hi with rfl | hi
    · exact hlt
    · exact h.index hi
  simp only [unspawned] at hout
  -- the loop goes on, or every index has had its turn
  split_ifs with hlast
  · refine ⟨hindex, by simp, fun {a l} hc => ?_, by simp,
      ⟨b + 1, hb', ?_⟩, fun _ _ => hlive, by simp [hunpub]⟩
    · obtain ⟨rfl, rfl⟩ : start = a ∧ k + 1 = l := by simpa using hc
      exact ⟨hstart, hlast, hne⟩
    · simp only [unspawned]
      omega
  · refine ⟨hindex, by simp, by simp, fun _ _ i hi => ?_, ⟨b + 1, hb', ?_⟩, fun _ _ => hlive, ?_⟩
    · obtain ⟨j, hj, hji⟩ := exists_turn hstart hi
      exact (hne i).mpr ⟨j, by omega, hji⟩
    · simp only [unspawned]
      omega
    · simp only [hunpub, Bool.false_eq_true, false_iff]
      omega

/-- The loop ends early. -/
theorem refuse (h : Counts n st (.spawning start k) pull) :
    Counts n (st.failSelect (n - k)).1 .failing pull := by
  obtain ⟨-, hk, -⟩ := h.spawning rfl
  obtain ⟨b, hb, hout⟩ := h.busy
  simp only [unspawned] at hout
  have hunpub := h.unpublished_of_loop rfl
  obtain ⟨hd, ho, hp⟩ : (st.failSelect (n - k)).1.decided = true ∧
      (st.failSelect (n - k)).1.outstanding = b ∧
      ((st.failSelect (n - k)).1.published = true ↔ b = 0) := by
    dsimp only [SelectState.failSelect]
    split <;> split <;> simp_all
  refine ⟨h.index, by simp, by simp, by simp [hd], ⟨b, hb, ?_⟩, by simp [hd], ?_⟩
  · rw [ho]
    rfl
  · rw [hp, ho]
    simp only [spawned, true_and]
    exact ⟨fun h0 => ⟨by omega, h0⟩, fun h0 => h0.2⟩

include h

/-- If the pull is the last live one, all others have dropped out. -/
theorem early_of_last (hi : pull i = .receiving) (hd : st.decided = false)
    (hl : ¬ 0 < st.live - 1) :
    ∀ j < n, j ≠ i → (pull j).early = false := by
  intro j hj hji
  by_contra he
  have hin := h.index (i := i) (by simp [hi])
  have hidle : caller ≠ .idle := fun hc => by simp [h.fresh hc i] at hi
  obtain ⟨ht, hpos⟩ := h.live (by omega) hidle hd
  rw [show st.live = 1 by omega] at ht
  exact hji (ht.eq_of_one ⟨hj, by simpa using he⟩ ⟨hin, by simp [hi]⟩)

/-- A select that is published has been decided: had all pulls dropped out, the last would have
decided it. -/
theorem decided_of_published (hp : st.published = true) : st.decided = true := by
  obtain ⟨hn, hsp, hout⟩ := h.published.mp hp
  by_contra hd
  simp only [Bool.not_eq_true] at hd
  have hidle : caller ≠ .idle := by
    rintro rfl
    cases hsp
  obtain ⟨ht, hlive⟩ := h.live hn hidle hd
  obtain ⟨j, hj, hearly⟩ := ht.exists_of_pos hlive
  have hfin := h.finished hp (h.complete hsp hd j hj)
  rw [hfin] at hearly
  cases hearly

/-- The last pull to finish finds the select decided, for the same reason. -/
theorem decided_of_last (hi : pull i = .finishing) (hlast : st.outstanding - 1 = 0) :
    caller.spawned = true ∧ st.decided = true := by
  obtain ⟨b, hb, hout⟩ := h.busy
  have hbusy : (pull i).busy = true := by simp [hi]
  have hpos := hb.pos hbusy
  have hsp : caller.spawned = true := by
    cases hc : caller with
    | idle => simp [h.fresh hc i] at hi
    | spawning =>
      obtain ⟨-, hk, -⟩ := h.spawning hc
      rw [hc, unspawned] at hout
      omega
    | _ => rfl
  refine ⟨hsp, ?_⟩
  by_contra hd
  simp only [Bool.not_eq_true] at hd
  have hidle : caller ≠ .idle := by
    rintro rfl
    cases hsp
  have hn := h.index (i := i) (by simp [hi])
  obtain ⟨ht, hlive⟩ := h.live (by omega) hidle hd
  obtain ⟨j, hj, hearly⟩ := ht.exists_of_pos hlive
  -- a pull that has been started but not been through its first section is busy as well
  have hrecv : pull j = .receiving := by
    have hne := h.complete hsp hd j hj
    revert hearly hne
    cases pull j <;> simp
  have hb1 : b = 1 := by omega
  have hij := (hb1 ▸ hb).eq_of_one hbusy (show (pull j).busy = true by simp [hrecv])
  rw [hij, hrecv] at hi
  cases hi

theorem finish (hi : pull i = .finishing) :
    Counts n st.finish.1 caller (update pull i .finished) := by
  have hbusy : (pull i).busy = true := by simp [hi]
  have hidle : pull i ≠ .idle := by simp [hi]
  have hne : ∀ j, update pull i .finished j ≠ .idle ↔ pull j ≠ .idle := by
    intro j
    rw [update_ne_idle (by simp)]
    exact ⟨fun hj => hj.elim (fun hj => hj ▸ hidle) id, .inr⟩
  have hn : 0 < n := by
    have := h.index hidle
    omega
  have hunpub := h.unpublished hbusy
  obtain ⟨hd, hl, ho, hp⟩ : st.finish.1.decided = st.decided ∧ st.finish.1.live = st.live ∧
      st.finish.1.outstanding = st.outstanding - 1 ∧
      (st.finish.1.published = true ↔ st.outstanding - 1 = 0) := by
    have hlast := h.decided_of_last hi
    unfold SelectState.finish
    split_ifs with h0
    · simp [h0.1]
    · refine ⟨rfl, rfl, rfl, ?_⟩
      simp only [hunpub, Bool.false_eq_true, false_iff]
      exact fun h1 => h0 ⟨h1, (hlast h1).2⟩
  refine ⟨fun hj => h.index ((hne _).mp hj), fun hc => absurd (h.fresh hc i) hidle,
    fun hc => ?_, fun hc hd' j hj => (hne j).mpr (h.complete hc (hd ▸ hd') j hj), ?_,
    fun hn hc hd' => ?_, ?_⟩
  · obtain ⟨h1, h2, h3⟩ := h.spawning hc
    exact ⟨h1, h2, fun j => (hne j).trans (h3 j)⟩
  · obtain ⟨b, hb, hout⟩ := h.busy
    have hbpos := hb.pos hbusy
    refine ⟨b - 1, update_leave (fun q : PullPc α => q.busy = true) hb hbusy (by simp), ?_⟩
    omega
  · rw [hl]
    obtain ⟨ht, hlive⟩ := h.live hn hc (hd ▸ hd')
    exact ⟨ht.congr fun j => by rw [update_alike (g := PullPc.early) (x := .finished) hi rfl],
      hlive⟩
  · rw [hp, ho]
    exact ⟨fun h0 => ⟨hn, (h.decided_of_last hi h0).1, h0⟩, fun h0 => h0.2.2⟩

end Counts

end Manwe.Select
