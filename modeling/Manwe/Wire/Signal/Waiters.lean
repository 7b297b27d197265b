import Mathlib
import Manwe.Transition.Ledger
import Manwe.Wire.Signal

/-!
# A parked waiter is in one place

From the moment it parks until the pool resumes it, a `next()` is in the pending list, with one
emission, with a cancel callback, with the destructor of the Signal, or with the pool. Each of them
passes it on once, so it is resumed once.
-/

namespace Manwe.Signal

open Function List State Next

variable {η α χ : Type*}

/-- Who has a waiter. -/
inductive Seat
  | pending
  | emission (k : ℕ)
  | thunk
  | orphan
  | pool
  deriving DecidableEq

/-- The waiters an emission has not woken yet. -/
def EmitPc.waiters : EmitPc α χ → List ℕ
  | .waking _ _ _ waiters => waiters
  | _ => []

@[simp] def State.At (s : State η α χ) : Seat → ℕ → Prop
  | .pending, j => j ∈ s.pending
  | .emission k, j => j ∈ (s.emits k).waiters
  | .thunk, j => (s.nexts j).took = true
  | .orphan, j => j ∈ s.orphans
  | .pool, j => j ∈ s.pool

/-- A field that an update does not touch. -/
theorem State.field_putNext {β : Type*} (s : State η α χ) {j : ℕ} {n : Next α} (g : Next α → β)
    (hg : g n = g (s.nexts j)) (i : ℕ) : g ((s.putNext j n).nexts i) = g (s.nexts i) := by
  obtain rfl | hi := eq_or_ne i j
  · simp [State.putNext, hg]
  · simp [State.putNext, hi]

/-- **Where the waiters are.** -/
structure Seats (s : State η α χ) : Prop where
  one : Exclusive s.At
  pendingNodup : s.pending.Nodup
  waitersNodup : ∀ k, (s.emits k).waiters.Nodup
  orphansNodup : s.orphans.Nodup
  poolNodup : s.pool.Nodup
  queued : ∀ j, (s.nexts j).queued = true ↔ j ∈ s.pending
  pending : ∀ j ∈ s.pending, (s.nexts j).pc = .parked
  seated : ∀ j, (s.nexts j).pc = .parked → ∃ p, s.At p j
  away : ∀ p j, s.At p j → (s.nexts j).pc = .parked ∨ (s.nexts j).pc = .destroyed
  alive : s.dead = false → s.orphans = []

namespace Seats

variable {s t : State η α χ} {e : Event η α χ}

theorem init : Seats ({} : State η α χ) where
  one p p' a h := by cases p <;> cases h
  pendingNodup := nodup_nil
  waitersNodup _ := nodup_nil
  orphansNodup := nodup_nil
  poolNodup := nodup_nil
  queued _ := by simp
  pending _ := nofun
  seated _ := nofun
  away p _ h := by cases p <;> cases h
  alive _ := rfl

variable {j : ℕ} (h : Seats s)

include h

/-- Somebody without a seat is not in any list. -/
theorem notMem (hp : (s.nexts j).pc ≠ .parked) (hd : (s.nexts j).pc ≠ .destroyed) (p : Seat) :
    ¬ s.At p j :=
  fun hat => (h.away p j hat).elim hp hd

/-- Steps after which every waiter is where it was. -/
theorem congr (hpend : t.pending = s.pending)
    (hwait : ∀ k, (t.emits k).waiters = (s.emits k).waiters) (horph : t.orphans = s.orphans)
    (hpool : t.pool = s.pool) (hdead : t.dead = s.dead)
    (hq : ∀ j, (t.nexts j).queued = (s.nexts j).queued)
    (htook : ∀ j, (t.nexts j).took = (s.nexts j).took)
    (hseat : ∀ j, (t.nexts j).pc = .parked → (s.nexts j).pc = .parked)
    (haway : ∀ j, (s.nexts j).pc = .parked ∨ (s.nexts j).pc = .destroyed →
      (t.nexts j).pc = .parked ∨ (t.nexts j).pc = .destroyed)
    (hkept : ∀ j ∈ s.pending, (t.nexts j).pc = .parked) : Seats t := by
  have hat : ∀ p j, t.At p j ↔ s.At p j := by
    intro p j
    cases p <;> simp only [At, hpend, hwait, horph, hpool, htook]
  refine ⟨h.one.mono fun p j => (hat p j).mp, hpend ▸ h.pendingNodup,
    fun k => hwait k ▸ h.waitersNodup k, horph ▸ h.orphansNodup, hpool ▸ h.poolNodup,
    fun j => by rw [hq, hpend, h.queued], fun j hj => hkept j (hpend ▸ hj), fun j hj => ?_,
    fun p j hj => haway j (h.away p j ((hat p j).mp hj)), fun hd => horph ▸ h.alive (hdead ▸ hd)⟩
  obtain ⟨p, hp⟩ := h.seated j (hseat j hj)
  exact ⟨p, (hat p j).mpr hp⟩

variable {n : Next α} {p q : Seat} {k : ℕ}

/-- A waiter goes on and keeps its seat, if it has one. -/
theorem putNext (hq : n.queued = (s.nexts j).queued) (ht : n.took = (s.nexts j).took)
    (hseat : n.pc = .parked → (s.nexts j).pc = .parked)
    (haway : (s.nexts j).pc = .parked ∨ (s.nexts j).pc = .destroyed →
      n.pc = .parked ∨ n.pc = .destroyed)
    (hkept : (s.nexts j).queued = true → n.pc = .parked) : Seats (s.putNext j n) := by
  refine h.congr rfl (fun _ => rfl) rfl rfl rfl (s.field_putNext Next.queued hq)
    (s.field_putNext took ht) ?_ ?_ ?_
  · exact (forall_update_iff s.nexts fun i n => n.pc = .parked → (s.nexts i).pc = .parked).2
      ⟨hseat, fun _ _ => id⟩
  · exact (forall_update_iff s.nexts fun i n =>
      (s.nexts i).pc = .parked ∨ (s.nexts i).pc = .destroyed →
        n.pc = .parked ∨ n.pc = .destroyed).2 ⟨haway, fun _ _ => id⟩
  · exact (forall_update_iff s.nexts fun i n => i ∈ s.pending → n.pc = .parked).2
      ⟨fun hj => hkept ((h.queued j).mpr hj), fun i _ => h.pending i⟩

/-- Steps that pass waiters on. -/
theorem move (f : Seat → ℕ → Seat) (hto : ∀ p j, s.At p j → t.At (f p j) j)
    (hfrom : ∀ p j, t.At p j → ∃ p₀, s.At p₀ j ∧ f p₀ j = p)
    (hpc : ∀ j, (t.nexts j).pc = (s.nexts j).pc) (hpend : t.pending.Sublist s.pending)
    (hwait : ∀ k, (t.emits k).waiters.Nodup) (horph : t.orphans.Nodup) (hpool : t.pool.Nodup)
    (hq : ∀ j, (t.nexts j).queued = true ↔ j ∈ t.pending)
    (halive : t.dead = false → t.orphans = []) :
    Seats t where
  one := h.one.of_moves f hfrom
  pendingNodup := h.pendingNodup.sublist hpend
  waitersNodup := hwait
  orphansNodup := horph
  poolNodup := hpool
  queued := hq
  pending j hj := (hpc j).trans (h.pending j (hpend.subset hj))
  seated j hj := by
    obtain ⟨p, hp⟩ := h.seated j ((hpc j).symm.trans hj)
    exact ⟨f p j, hto p j hp⟩
  away p j hj := by
    obtain ⟨p₀, hp₀, -⟩ := hfrom p j hj
    rw [hpc]
    exact h.away p₀ j hp₀
  alive := halive

/-- Waiter `j` is passed on from `p` to `q`. -/
theorem pass (hj : s.At p j) (hat : ∀ r i, t.At r i ↔ s.At r i ∧ ¬ (r = p ∧ i = j) ∨ r = q ∧ i = j)
    (hpc : ∀ i, (t.nexts i).pc = (s.nexts i).pc) (hpend : t.pending.Sublist s.pending)
    (hwait : ∀ k, (t.emits k).waiters.Nodup) (horph : t.orphans.Nodup) (hpool : t.pool.Nodup)
    (hq : ∀ i, (t.nexts i).queued = true ↔ i ∈ t.pending)
    (halive : t.dead = false → t.orphans = []) :
    Seats t := by
  refine h.move (fun r i => if r = p ∧ i = j then q else r) (fun r i hr => ?_) (fun r i hr => ?_)
    hpc hpend hwait horph hpool hq halive
  · rw [hat]
    split_ifs with hri
    · exact .inr ⟨rfl, hri.2⟩
    · exact .inl ⟨hr, ‹_›⟩
  · rcases (hat r i).mp hr with ⟨hr, hne⟩ | ⟨rfl, rfl⟩
    · exact ⟨r, hr, if_neg hne⟩
    · exact ⟨p, hj, if_pos ⟨rfl, rfl⟩⟩

/-- A seat goes to the pool. -/
theorem nodup_pool (hj : s.At p j) (hp : p ≠ .pool) : (s.pool ++ [j]).Nodup := by
  refine nodup_append.mpr ⟨h.poolNodup, nodup_singleton j, fun a ha b hb hab => ?_⟩
  rw [mem_singleton] at hb
  subst hab hb
  exact hp (h.one p .pool a hj ha)

theorem snapshot (m : Mode) (args : α) (hk : s.emits k = .idle) : Seats (s.snapshot k m args) := by
  have hnext : ∀ j, ((s.snapshot k m args).nexts j).pc = (s.nexts j).pc ∧
      ((s.snapshot k m args).nexts j).took = (s.nexts j).took := by
    intro j
    simp only [State.snapshot]
    split <;> exact ⟨rfl, rfl⟩
  have hnone : ∀ j, j ∉ (s.emits k).waiters := by simp [hk, EmitPc.waiters]
  refine h.move (fun p _ => if p = .pending then .emission k else p) (fun p j hj => ?_)
    (fun p j hj => ?_) (fun j => (hnext j).1) (nil_sublist _) (fun i => ?_) h.orphansNodup
    h.poolNodup (fun j => ?_) h.alive
  · cases p with
    | pending => simpa [EmitPc.waiters] using hj
    | emission i =>
      have hi : i ≠ k := by
        rintro rfl
        exact hnone j hj
      simpa [hi] using hj
    | thunk => exact (hnext j).2.trans hj
    | orphan | pool => exact hj
  · cases p with
    | pending => cases hj
    | emission i =>
      obtain rfl | hi := eq_or_ne i k
      · refine ⟨.pending, ?_, if_pos rfl⟩
        simpa [EmitPc.waiters] using hj
      · refine ⟨.emission i, ?_, rfl⟩
        simpa [hi] using hj
    | thunk => exact ⟨.thunk, (hnext j).2.symm.trans hj, rfl⟩
    | orphan => exact ⟨.orphan, hj, rfl⟩
    | pool => exact ⟨.pool, hj, rfl⟩
  · obtain rfl | hi := eq_or_ne i k
    · simpa [EmitPc.waiters] using h.pendingNodup
    · simpa [hi] using h.waitersNodup i
  · refine iff_of_false ?_ not_mem_nil
    simp only [State.snapshot]
    split
    · exact Bool.false_ne_true
    · rwa [h.queued]

/-- An emission hands a waiter to the pool. -/
theorem wake {m : Mode} {args : α} {list : Option ℕ} {waiters : List ℕ} (v : Option α)
    (hk : s.emits k = .waking m args list (j :: waiters)) :
    Seats ((s.hand j v).putEmit k (.waking m args list waiters)) := by
  have hws : (s.emits k).waiters = j :: waiters := by rw [hk]; rfl
  have hnd : (j :: waiters).Nodup := hws ▸ h.waitersNodup k
  have hj : s.At (.emission k) j := by simp [hws]
  obtain ⟨n, hn, hpc, hq, ht⟩ : ∃ n, s.hand j v = { s.putNext j n with pool := s.pool ++ [j] } ∧
      n.pc = (s.nexts j).pc ∧ n.queued = (s.nexts j).queued ∧ n.took = (s.nexts j).took := by
    unfold hand
    split <;> exact ⟨_, rfl, rfl, rfl, rfl⟩
  rw [hn]
  refine h.pass hj (q := .pool) (fun r i => ?_) (s.field_putNext pc hpc) (.refl _) (fun i =>
    ?_)
    h.orphansNodup (h.nodup_pool hj nofun) (fun i => ?_) h.alive
  · cases r with
    | emission i' =>
      obtain rfl | hi := eq_or_ne i' k
      · have hright : s.At (.emission i') i ↔ i = j ∨ i ∈ waiters := by simp [hws]
        rw [hright]
        simp only [At, putEmit, update_self]
        constructor
        · exact fun hi => .inl ⟨.inr hi, fun hc => (nodup_cons.mp hnd).1 (hc.2 ▸ hi)⟩
        · rintro (⟨hi, hne⟩ | ⟨hc, -⟩)
          · exact hi.resolve_left fun hij => hne ⟨trivial, hij⟩
          · cases hc
      · simp [State.putNext, hi]
    | thunk =>
      simp only [At, reduceCtorEq, false_and, not_false_eq_true, and_true, or_false]
      exact Eq.congr_left (s.field_putNext took ht i)
    | pending | orphan | pool => simp [State.putNext]
  · obtain rfl | hi := eq_or_ne i k
    · simpa [EmitPc.waiters] using (nodup_cons.mp hnd).2
    · simpa [State.putNext, hi] using h.waitersNodup i
  · exact (Eq.congr_left (s.field_putNext Next.queued hq i)).trans (h.queued i)

theorem cancelThunk (j : ℕ) : Seats (s.cancelThunk j) := by
  unfold State.cancelThunk
  dsimp only
  split_ifs with hq
  · have hj : s.At .pending j := (h.queued j).mp hq
    refine h.pass hj (q := .thunk) (fun r i => ?_) ?_ erase_sublist h.waitersNodup
      h.orphansNodup h.poolNodup (fun i => ?_) h.alive
    · cases r with
      | pending => simp [h.pendingNodup.mem_erase_iff, and_comm]
      | thunk =>
        obtain rfl | hi := eq_or_ne i j
        · simp [State.putNext]
        · simp [State.putNext, hi]
      | emission | orphan | pool => simp [State.putNext]
    · exact s.field_putNext pc rfl
    · obtain rfl | hi := eq_or_ne i j
      · simp [State.putNext, h.pendingNodup.mem_erase_iff]
      · simp [State.putNext, hi, h.pendingNodup.mem_erase_iff, h.queued]
  · exact h.putNext rfl rfl id id fun hq => h.pending j ((h.queued j).mp hq)

theorem post (ht : (s.nexts j).took = true) :
    Seats { s.putNext j { s.nexts j with took := false } with pool := s.pool ++ [j] } := by
  have hj : s.At .thunk j := ht
  refine h.pass hj (q := .pool) (fun r i => ?_) (s.field_putNext pc rfl) (.refl _)
    h.waitersNodup h.orphansNodup (h.nodup_pool hj nofun) (fun i => ?_) h.alive
  · cases r with
    | thunk =>
      obtain rfl | hi := eq_or_ne i j
      · simp [State.putNext]
      · simp [State.putNext, hi]
    | pending | emission | orphan | pool => simp [State.putNext]
  · have hq := s.field_putNext (n := { s.nexts j with took := false }) Next.queued rfl i
    exact (Eq.congr_left hq).trans (h.queued i)

/-- Waiter `j` leaves its seat `q` for good. -/
theorem leave (hj : s.At q j) (hat : ∀ p i, t.At p i ↔ s.At p i ∧ ¬ (p = q ∧ i = j))
    (hnext : ∀ i, i ≠ j → t.nexts i = s.nexts i) (hpc : (t.nexts j).pc ≠ .parked)
    (hpend : t.pending.Sublist s.pending) (hemits : t.emits = s.emits)
    (horph : t.orphans = s.orphans) (hpool : t.pool.Sublist s.pool)
    (hq : (t.nexts j).queued = false) (hdead : t.dead = s.dead) : Seats t := by
  have hother : ∀ {p i}, t.At p i → s.At p i ∧ i ≠ j := by
    intro p i hi
    obtain ⟨hs, hne⟩ := (hat p i).mp hi
    refine ⟨hs, ?_⟩
    rintro rfl
    exact hne ⟨h.one p q i hs hj, rfl⟩
  refine ⟨h.one.mono fun p i hi => (hother hi).1, h.pendingNodup.sublist hpend,
    hemits ▸ h.waitersNodup, horph ▸ h.orphansNodup, h.poolNodup.sublist hpool, fun i => ?_,
    fun i hi => ?_, fun i hi => ?_, fun p i hi => ?_, fun hd => horph ▸ h.alive (hdead ▸ hd)⟩
  · obtain rfl | hi := eq_or_ne i j
    · exact iff_of_false (by simp [hq])
        fun hi => (hother (p := .pending) hi).2 rfl
    · rw [hnext i hi, h.queued]
      refine ⟨fun hs => (hat .pending i).mpr ⟨hs, fun hc => hi hc.2⟩, fun ht => hpend.subset ht⟩
  · obtain ⟨hs, hne⟩ := hother (p := .pending) hi
    rw [hnext i hne]
    exact h.pending i hs
  · have hne : i ≠ j := by
      rintro rfl
      exact hpc hi
    rw [hnext i hne] at hi
    obtain ⟨p, hp⟩ := h.seated i hi
    exact ⟨p, (hat p i).mpr ⟨hp, fun hc => hne hc.2⟩⟩
  · obtain ⟨hs, hne⟩ := hother hi
    rw [hnext i hne]
    exact h.away p i hs

/-- The pool resumes a handle. -/
theorem run (hm : j ∈ s.pool) (hnext : ∀ i, i ≠ j → t.nexts i = s.nexts i)
    (hq : (t.nexts j).queued = (s.nexts j).queued) (ht : (t.nexts j).took = (s.nexts j).took)
    (hpc : (t.nexts j).pc ≠ .parked) (hpend : t.pending = s.pending) (hemits : t.emits = s.emits)
    (horph : t.orphans = s.orphans) (hpool : t.pool = s.pool.erase j) (hdead : t.dead = s.dead) :
    Seats t := by
  have hj : s.At .pool j := hm
  have htook : ∀ i, (t.nexts i).took = (s.nexts i).took := by
    intro i
    by_cases hi : i = j
    · rw [hi, ht]
    · rw [hnext i hi]
  refine h.leave hj (fun p i => ?_) hnext hpc (hpend ▸ .refl _) hemits horph
    (hpool ▸ erase_sublist) ?_ hdead
  · cases p with
    | pool => simp [hpool, h.poolNodup.mem_erase_iff, and_comm]
    | pending | emission | thunk | orphan => simp [hpend, hemits, horph, htook]
  · rw [hq, ← Bool.not_eq_true, h.queued]
    exact fun hp => nomatch h.one .pending .pool j hp hj

theorem destroyNext (hj : (s.nexts j).pc = .parked) : Seats (s.destroyNext j) := by
  unfold State.destroyNext
  dsimp only
  split_ifs with hq
  · have hpend : s.At .pending j := (h.queued j).mp hq
    have htook := s.field_putNext (n := { s.nexts j with pc := .destroyed, queued := false })
      took rfl
    refine h.leave hpend (fun p i => ?_) (fun i hi => update_of_ne hi _ _) ?_
      erase_sublist rfl rfl (.refl _) ?_ rfl
    · cases p with
      | pending => simp [h.pendingNodup.mem_erase_iff, and_comm]
      | thunk => simp [htook]
      | emission | orphan | pool => simp [State.putNext]
    · simp [State.putNext]
    · simp [State.putNext]
  · exact h.putNext rfl rfl (fun _ => hj) (fun _ => .inr rfl) fun hq => absurd hq ‹_›

/-- A newcomer is queued. -/
theorem enqueue (hno : ∀ p, ¬ s.At p j) (hpc : n.pc = .parked) (hq : n.queued = true)
    (ht : n.took = (s.nexts j).took) :
    Seats { s.putNext j n with pending := s.pending ++ [j] } := by
  have hat : ∀ p i, ({ s.putNext j n with pending := s.pending ++ [j] } : State η α χ).At p i ↔
      s.At p i ∨ i = j ∧ p = .pending := by
    intro p i
    cases p with
    | pending => simp
    | thunk => simp [s.field_putNext took ht]
    | emission | orphan | pool => simp [State.putNext]
  have hself : (s.putNext j n).nexts j = n := update_self ..
  have hother : ∀ i, i ≠ j → (s.putNext j n).nexts i = s.nexts i := fun i hi => update_of_ne hi _ _
  have hne : ∀ {p i}, s.At p i → i ≠ j := by
    rintro p i hi rfl
    exact hno p hi
  refine ⟨h.one.of_insert hno fun p i => (hat p i).mp, ?_, h.waitersNodup, h.orphansNodup,
    h.poolNodup, fun i => ?_, fun i hi => ?_, fun i hi => ?_, fun p i hi => ?_, h.alive⟩
  · refine nodup_append.mpr ⟨h.pendingNodup, nodup_singleton j, fun a ha b hb hab => ?_⟩
    rw [mem_singleton] at hb
    exact hne (p := .pending) ha (hab.trans hb)
  · obtain rfl | hi := eq_or_ne i j
    · simp [hself, hq]
    · simp [hother i hi, hi, h.queued]
  · rcases (hat .pending i).mp hi with hi | ⟨rfl, -⟩
    · exact (congrArg pc (hother i (hne hi))).trans (h.pending i hi)
    · exact (congrArg pc hself).trans hpc
  · by_cases hij : i = j
    · exact ⟨.pending, (hat _ i).mpr (.inr ⟨hij, rfl⟩)⟩
    · obtain ⟨p, hp⟩ := h.seated i ((congrArg pc (hother i hij)).symm.trans hi)
      exact ⟨p, (hat p i).mpr (.inl hp)⟩
  · rcases (hat p i).mp hi with hi | ⟨rfl, -⟩
    · simp only [hother i (hne hi)]
      exact h.away p i hi
    · exact .inl ((congrArg pc hself).trans hpc)

theorem park (core : Option Bool) (armed : Bool)
    (hj : (s.nexts j).pc = .idle ∨ (s.nexts j).pc = .arming) : Seats (s.park j core armed) := by
  have hpark : (s.nexts j).pc ≠ .parked := by rcases hj with hj | hj <;> rw [hj] <;> nofun
  have hdes : (s.nexts j).pc ≠ .destroyed := by rcases hj with hj | hj <;> rw [hj] <;> nofun
  have hnot : (s.nexts j).queued ≠ true := fun hq => hpark (h.pending j ((h.queued j).mp hq))
  -- without a seat
  have hput {n : Next α} (hq : n.queued = (s.nexts j).queued) (ht : n.took = (s.nexts j).took)
      (hn : n.pc ≠ .parked) : Seats (s.putNext j n) :=
    h.putNext hq ht (fun hp => absurd hp hn) (fun hp => (hp.elim hpark hdes).elim)
      fun hq => absurd hq hnot
  unfold State.park
  dsimp only
  split
  · exact hput rfl rfl nofun
  split
  · exact hput rfl rfl nofun
  split
  · exact h.enqueue (h.notMem hpark hdes) rfl rfl rfl
  split
  · exact hput rfl rfl nofun
  · exact hput rfl rfl nofun

theorem destroySignal (hd : s.dead = false) : Seats s.destroySignal := by
  have hnext : ∀ j, (s.destroySignal.nexts j).pc = (s.nexts j).pc ∧
      (s.destroySignal.nexts j).took = (s.nexts j).took := by
    intro j
    simp only [State.destroySignal]
    split <;> exact ⟨rfl, rfl⟩
  have hnone := h.alive hd
  refine h.move (fun p _ => if p = .pending then .orphan else p) (fun p j hj => ?_)
    (fun p j hj => ?_) (fun j => (hnext j).1) (nil_sublist _) h.waitersNodup h.pendingNodup
    h.poolNodup (fun j => ?_) nofun
  · cases p with
    | pending | emission | pool => exact hj
    | orphan =>
      rw [At, hnone] at hj
      cases hj
    | thunk => exact (hnext j).2.trans hj
  · cases p with
    | pending => cases hj
    | orphan => exact ⟨.pending, hj, if_pos rfl⟩
    | thunk => exact ⟨.thunk, (hnext j).2.symm.trans hj, rfl⟩
    | emission k => exact ⟨.emission k, hj, rfl⟩
    | pool => exact ⟨.pool, hj, rfl⟩
  · refine iff_of_false ?_ not_mem_nil
    simp only [State.destroySignal]
    split
    · exact Bool.false_ne_true
    · rwa [h.queued]

theorem orphan {rest : List ℕ} (ho : s.orphans = j :: rest) :
    Seats { s with orphans := rest, pool := s.pool ++ [j] } := by
  have hnd : (j :: rest).Nodup := ho ▸ h.orphansNodup
  have hj : s.At .orphan j := by simp [ho]
  refine h.pass hj (q := .pool) (fun r i => ?_) (fun _ => rfl) (.refl _) h.waitersNodup
    (nodup_cons.mp hnd).2 (h.nodup_pool hj nofun) h.queued fun hd => ?_
  · cases r with
    | orphan =>
      simp only [At, ho, true_and, reduceCtorEq, false_and, or_false]
      constructor
      · intro hi
        exact ⟨mem_cons_of_mem _ hi, fun hc => (nodup_cons.mp hnd).1 (hc ▸ hi)⟩
      · exact fun hi => (mem_cons.mp hi.1).resolve_left hi.2
    | pending | emission | thunk | pool => simp
  · rw [h.alive hd] at ho
    cases ho

theorem step (hc : Change s e t) : Seats t := by
  have hemit {k : ℕ} {p q : EmitPc α χ} (hk : s.emits k = q)
      (ht : t.emits = update s.emits k p) (hw : p.waiters = q.waiters) (i : ℕ) :
      (t.emits i).waiters = (s.emits i).waiters := by
    by_cases hi : i = k
    · rw [ht, hi, update_self, hw, hk]
    · rw [ht, update_of_ne hi]
  have hcongr (hnext : t.nexts = s.nexts) (hpend : t.pending = s.pending)
      (hwait : ∀ k, (t.emits k).waiters = (s.emits k).waiters) (horph : t.orphans = s.orphans)
      (hpool : t.pool = s.pool) (hdead : t.dead = s.dead) : Seats t := by
    refine h.congr hpend hwait horph hpool hdead ?_ ?_ ?_ ?_ ?_ <;> rw [hnext]
    · exact fun _ => rfl
    · exact fun _ => rfl
    · exact fun _ => id
    · exact fun _ => id
    · exact h.pending
  cases hc with
  | connect | runTask _ => exact hcongr rfl rfl (fun _ => rfl) rfl rfl rfl
  | disconnect =>
    unfold disconnect
    split
    · exact h.congr rfl (fun _ => rfl) rfl rfl rfl (fun _ => rfl) (fun _ => rfl) (fun _ => id)
        (fun _ => id) h.pending
    · exact h
  | emit hk => exact h.snapshot _ _ hk
  | wake hk => exact h.wake _ hk
  | enterNone hk | enter hk | invokeEnd hk _ | dispatch hk _ | call hk _ _ | returned hk
  | returnedAsync hk | release hk => exact hcongr rfl rfl (hemit hk rfl rfl) rfl rfl rfl
  | next hj => exact h.park _ _ (.inl hj)
  | retry hj => exact h.park _ _ (.inr hj)
  | cancel _ => exact h.cancelThunk _
  | post ht => exact h.post ht
  | @runKilled j hm hj =>
    exact h.run hm (fun _ _ => rfl) rfl rfl (by simp [hj]) rfl rfl rfl rfl rfl
  | @run j hm =>
    refine h.run hm (fun i hi => update_of_ne hi _ _) ?_ ?_ ?_ rfl rfl rfl rfl rfl
    all_goals simp [State.putNext]
  | @resume j hj =>
    have hnot : (s.nexts j).pc ≠ .parked := by simp [hj]
    refine h.putNext rfl rfl nofun (fun hp => ?_) fun hq =>
      absurd (h.pending j ((h.queued j).mp hq)) hnot
    rw [hj] at hp
    rcases hp with hp | hp <;> cases hp
  | destroy hj => exact h.destroyNext hj
  | destroySignal hd => exact h.destroySignal hd
  | orphan ho => exact h.orphan ho

end Seats

end Manwe.Signal
