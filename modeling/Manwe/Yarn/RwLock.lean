import Manwe.Transition.Tally
import Manwe.Yarn.ParkBase.Runs

/-!
# The reader/writer lock

`AsyncRwLock` keeps one integer, `state`: `-1` while a writer has the lock, otherwise the number
of readers. Readers and writers share one FIFO. A reader is let through at once only if no writer
has the lock **and nobody waits**; a release, and the withdrawal of a waiter, run `promoteLocked`,
which admits a writer at the head of the queue or the whole batch of readers there.

The lock is a `Resource` over the parking awaiters. Its accounts (`Balanced`) and the promise
that the head of the queue cannot be admitted (`Stuck`) are proved as invariants of the abstract
books, move by move; the order of admission is that of every such resource.

Whether a call is a writer is a fixed property of the call. The field `res` of the state is the
lock's `state`.
-/

namespace Manwe.RwLock

open List Option Set Bool

open ParkBase

variable {ι : Type*} (isWriter : ι → Bool)

/-- Drain the consecutive reader batch at the head of the queue. -/
@[simp] def drainReaders (state : Int) : List ι → Served Int ι
  | [] => ⟨state, [], []⟩
  | i :: ws =>
    if isWriter i then ⟨state, [], i :: ws⟩
    else
      let v := drainReaders (state + 1) ws
      { v with wake := i :: v.wake }

@[simp] def promoteLocked (state : Int) : List ι → Served Int ι
  | [] => ⟨state, [], []⟩
  | i :: ws =>
    if isWriter i then
      if state = 0 then ⟨-1, [i], ws⟩ else ⟨state, [], i :: ws⟩
    else if 0 ≤ state then drainReaders isWriter state (i :: ws)
    -- a writer has the lock
    else ⟨state, [], i :: ws⟩

def releaseReader (state : Int) (waiters : List ι) : Served Int ι :=
  if state - 1 = 0 then promoteLocked isWriter (state - 1) waiters else ⟨state - 1, [], waiters⟩

def releaseWriter (waiters : List ι) : Served Int ι := promoteLocked isWriter 0 waiters

/-- The fast path of `AsyncRwReadAwaiter`. -/
def tryRead (state : Int) (waiters : List ι) : Option Int :=
  if state < 0 ∨ waiters ≠ [] then none else some (state + 1)

/-- The fast path of `AsyncRwWriteAwaiter`. -/
def tryWrite (state : Int) (waiters : List ι) : Option Int :=
  if state ≠ 0 ∨ waiters ≠ [] then none else some (-1)

/-! ### What a promotion does -/

section Promote

variable {isWriter}

theorem drainReaders_split (isWriter : ι → Bool) (state : Int) (ws : List ι) :
    (drainReaders isWriter state ws).wake ++ (drainReaders isWriter state ws).waiters = ws := by
  induction ws generalizing state with
  | nil => rfl
  | cons i ws ih =>
    by_cases hi : isWriter i = true
    · simp [hi]
    · simp [hi, ih]

theorem drainReaders_res (state : Int) (ws : List ι) : (drainReaders isWriter state ws).res =
      state + ((drainReaders isWriter state ws).wake.length : ℕ) := by
  induction ws generalizing state with
  | nil => simp
  | cons i ws ih =>
    by_cases hi : isWriter i = true
    · simp [hi]
    · simp only [drainReaders, hi, false_eq_true, if_false, ih, length_cons]
      omega

theorem drainReaders_wake (state : Int) (ws : List ι) {j : ι}
    (hj : j ∈ (drainReaders isWriter state ws).wake) : isWriter j = false := by
  induction ws generalizing state with
  | nil => simp at hj
  | cons i ws ih =>
    by_cases hi : isWriter i = true
    · simp [hi] at hj
    · simp only [drainReaders, hi, false_eq_true, if_false, mem_cons] at hj
      rcases hj with rfl | hj
      · simpa using hi
      · exact ih _ hj

theorem drainReaders_head (state : Int) (ws : List ι) {j : ι}
    (hj : (drainReaders isWriter state ws).waiters.head? = some j) : isWriter j = true := by
  induction ws generalizing state with
  | nil => simp at hj
  | cons i ws ih =>
    by_cases hi : isWriter i = true
    · simp only [drainReaders, hi, if_true, head?_cons, some.injEq] at hj
      exact hj ▸ hi
    · simp only [drainReaders, hi, false_eq_true, if_false] at hj
      exact ih _ hj

/-- The head of the queue cannot be admitted. -/
def Stuck (isWriter : ι → Bool) (state : Int) (waiters : List ι) : Prop :=
  ∀ i, waiters.head? = some i → (isWriter i = true ∧ state ≠ 0) ∨ (isWriter i = false ∧ state < 0)

/-- **The three outcomes of a promotion**: nobody can be admitted, the writer at the head is, or
the readers at the head are. -/
theorem promoteLocked_cases (isWriter : ι → Bool) (state : Int) (ws : List ι) :
    (promoteLocked isWriter state ws = ⟨state, [], ws⟩ ∧ Stuck isWriter state ws) ∨
    (state = 0 ∧ ∃ i rest, ws = i :: rest ∧ isWriter i = true ∧
      promoteLocked isWriter state ws = ⟨-1, [i], rest⟩) ∨
    (0 ≤ state ∧ promoteLocked isWriter state ws = drainReaders isWriter state ws ∧
      (drainReaders isWriter state ws).wake ≠ []) := by
  cases ws with
  | nil => exact .inl ⟨rfl, by simp [Stuck]⟩
  | cons i ws =>
    by_cases hi : isWriter i = true
    · by_cases h0 : state = 0
      · exact .inr (.inl ⟨h0, i, ws, rfl, hi, by simp [hi, h0]⟩)
      · exact .inl ⟨by simp [hi, h0], by simp [Stuck, hi, h0]⟩
    · by_cases h0 : 0 ≤ state
      · exact .inr (.inr ⟨h0, by simp [hi, h0], by simp [hi]⟩)
      · refine .inl ⟨by simp [hi, h0], ?_⟩
        simp only [Stuck, head?_cons, some.injEq]
        rintro j rfl
        exact .inr ⟨by simpa using hi, by omega⟩

theorem promoteLocked_split (state : Int) (ws : List ι) :
    (promoteLocked isWriter state ws).wake ++ (promoteLocked isWriter state ws).waiters = ws := by
  rcases promoteLocked_cases isWriter state ws with
    ⟨h, -⟩ | ⟨-, i, rest, rfl, -, h⟩ | ⟨-, h, -⟩
  · rw [h]; rfl
  · rw [h]; rfl
  · rw [h]; exact drainReaders_split isWriter state ws

end Promote

/-- The lock as a first-come-first-served resource. -/
def resource : Resource Int ι where
  tryNow i := if isWriter i then tryWrite else tryRead
  fixup := promoteLocked isWriter
  giveBack i state ws :=
    if isWriter i then releaseWriter isWriter ws else releaseReader isWriter state ws
  fixup_split := promoteLocked_split
  giveBack_split i state ws := by
    split
    · exact promoteLocked_split 0 ws
    · unfold releaseReader
      split
      · exact promoteLocked_split _ ws
      · rfl

abbrev State (ι : Type*) := ParkBase.State Int ι

def init : State ι := { res := 0 }

inductive Event (ι : Type*)
  | await (e : ParkBase.Event ι)
  /-- a guard is released -/
  | unlock (i : ι)

section Step

variable [DecidableEq ι]

def act (s : State ι) : Event ι → Option (Act Int ι)
  | .await e => ParkBase.act (resource isWriter) s e
  | .unlock i =>
    if (s.calls i).pc = .holding then
      some (giveBack (resource isWriter) s i { s.calls i with pc := .finished })
    else none

def step : State ι → Event ι → Option (State ι) := stepOf (act isWriter)

variable {isWriter}

variable {s : State ι} {e : Event ι} {a : Act Int ι}

variable (h : Inv s) (ha : act isWriter s e = some a)

include h ha

theorem act_refines : Refines (resource isWriter) s a := by
  cases e with
  | await => exact ParkBase.act_refines h ha
  | unlock i =>
    obtain ⟨hpc, rfl⟩ := of_guard ha
    have hq := h.not_queued (i := i) (by simp [hpc])
    exact refines_giveBack h (by simp [Call.granted, hpc]) hq rfl rfl

theorem act_tracks : Tracks s a := by
  cases e with
  | await => exact ParkBase.act_tracks h ha
  | unlock =>
    obtain ⟨hpc, rfl⟩ := of_guard ha
    exact tracks_giveBack h (by simp [Call.granted, hpc])
      (h.not_queued (by simp [hpc])) rfl rfl fun hs => ⟨rfl, hs.queued, hs.cancelled, by simp⟩

end Step

/-! ### The accounts -/

/-- The readers among `g`. -/
@[simp] def Reads (g : Set ι) (i : ι) : Prop := i ∈ g ∧ isWriter i = false

/-- The writers among `g`. -/
@[simp] def Writes (g : Set ι) (i : ι) : Prop := i ∈ g ∧ isWriter i = true

/-- `state` counts the granted readers, or says that one writer is all there is. -/
def Balanced (state : Int) (g : Set ι) : Prop :=
  (∃ n : ℕ, state = n ∧ Tally (Reads isWriter g) n ∧ Tally (Writes isWriter g) 0) ∨
    (state = -1 ∧ Tally (Reads isWriter g) 0 ∧ Tally (Writes isWriter g) 1)

namespace Balanced

variable {isWriter} {state : Int} {g : Set ι}

theorem nonneg (h : Balanced isWriter state g) (h0 : 0 ≤ state) :
    ∃ n : ℕ, state = n ∧ Tally (Reads isWriter g) n ∧ Tally (Writes isWriter g) 0 := by
  rcases h with h | ⟨hs, -⟩
  · exact h
  · omega

/-- Several readers are admitted. -/
theorem addReaders (h : Balanced isWriter state g) (h0 : 0 ≤ state) {l : List ι} (hl : l.Nodup)
    (hd : ∀ j ∈ l, j ∉ g) (hread : ∀ j ∈ l, isWriter j = false) :
    Balanced isWriter (state + (l.length : ℕ)) (g ∪ {j | j ∈ l}) := by
  obtain ⟨n, rfl, hr, hw⟩ := h.nonneg h0
  refine .inl ⟨n + l.length, by push_cast; rfl, ?_, hw.congr fun k => ?_⟩
  · refine hr.insertAll hl (fun k hk hkr => hd k hk hkr.1) fun k => ?_
    by_cases hk : k ∈ l
    · simp [hk, hread k hk]
    · simp [hk]
  · by_cases hk : k ∈ l
    · simp [hk, hread k hk]
    · simp [hk]

variable {i : ι}

/-- A writer is admitted to a free lock. -/
theorem addWriter (h : Balanced isWriter 0 g) (hi : i ∉ g) (hw : isWriter i = true) :
    Balanced isWriter (-1) (insert i g) := by
  obtain ⟨n, hn, hr, hz⟩ := h.nonneg le_rfl
  obtain rfl : n = 0 := by omega
  refine .inr ⟨rfl, hr.congr fun k => ?_, hz.insert (fun hk => hi hk.1) fun k => ?_⟩
  · by_cases hk : k = i
    · simp [hk, hw]
    · simp [hk]
  · by_cases hk : k = i
    · simp [hk, hw]
    · simp [hk]

variable (h : Balanced isWriter state g)

include h

/-- A reader leaves. -/
theorem dropReader (hi : i ∈ g) (hread : isWriter i = false) :
    1 ≤ state ∧ Balanced isWriter (state - 1) (g \ {i}) := by
  have hri : Reads isWriter g i := ⟨hi, hread⟩
  rcases h with ⟨n, rfl, hr, hw⟩ | ⟨-, hr, -⟩
  · have hpos := hr.pos hri
    refine ⟨by omega, .inl ⟨n - 1, by omega, hr.erase hri fun k => ?_, hw.congr fun k => ?_⟩⟩
    · simp only [Reads, mem_sdiff, mem_singleton_iff]
      tauto
    · by_cases hk : k = i
      · simp [hk, hread]
      · simp [hk]
  · exact absurd hri (hr.none_of_zero i)

/-- The writer leaves. -/
theorem dropWriter (hi : i ∈ g) (hwrite : isWriter i = true) : Balanced isWriter 0 (g \ {i}) := by
  have hwi : Writes isWriter g i := ⟨hi, hwrite⟩
  rcases h with ⟨n, -, -, hw⟩ | ⟨-, hr, hw⟩
  · exact absurd hwi (hw.none_of_zero i)
  · refine .inl ⟨0, rfl, hr.congr fun k => ?_, hw.erase hwi fun k => ?_⟩
    · by_cases hk : k = i
      · simp [hk, hwrite]
      · simp [hk]
    · simp only [Writes, mem_sdiff, mem_singleton_iff]
      tauto

/-- A promotion keeps the accounts, and afterwards the head of the queue is stuck. -/
theorem promote {ws : List ι} (hws : ws.Nodup) (hd : ∀ j ∈ ws, j ∉ g) :
    Balanced isWriter (promoteLocked isWriter state ws).res
        (g ∪ {j | j ∈ (promoteLocked isWriter state ws).wake}) ∧
      Stuck isWriter (promoteLocked isWriter state ws).res
        (promoteLocked isWriter state ws).waiters := by
  rcases promoteLocked_cases isWriter state ws with
    ⟨hv, hstuck⟩ | ⟨rfl, i, rest, rfl, hw, hv⟩ | ⟨h0, hv, hne⟩
  · rw [hv]
    exact ⟨by simpa using h, hstuck⟩
  · rw [hv]
    refine ⟨?_, fun j _ => ?_⟩
    · have := h.addWriter (hd i (by simp)) hw
      simpa [union_singleton] using this
    · cases hj : isWriter j <;> simp
  · rw [hv]
    have hsplit := drainReaders_split isWriter state ws
    have hsub : ∀ j ∈ (drainReaders isWriter state ws).wake, j ∈ ws :=
      fun j hj => hsplit ▸ mem_append_left _ hj
    have hnd : (drainReaders isWriter state ws).wake.Nodup := by
      rw [← hsplit] at hws
      exact hws.of_append_left
    have hpos : 0 < (drainReaders isWriter state ws).wake.length := length_pos_iff.mpr hne
    rw [drainReaders_res]
    refine ⟨h.addReaders h0 hnd (fun j hj => hd j (hsub j hj))
      fun j hj => drainReaders_wake state ws hj, fun j hj => ?_⟩
    exact .inl ⟨drainReaders_head state ws hj, by omega⟩

/-- A writer overlaps nobody. -/
theorem exclusive {j : ι} (hi : Writes isWriter g i) (hj : j ∈ g) : j = i := by
  rcases h with ⟨n, -, -, hw⟩ | ⟨-, hr, hw⟩
  · exact absurd hi (hw.none_of_zero i)
  · cases hjw : isWriter j with
    | true => exact hw.eq_of_one ⟨hj, hjw⟩ hi
    | false => exact absurd ⟨hj, hjw⟩ (hr.none_of_zero j)

theorem writer_iff : state = -1 ↔ Tally (Writes isWriter g) 1 ∧ Tally (Reads isWriter g) 0 := by
  rcases h with ⟨n, rfl, -, hw⟩ | ⟨rfl, hr, hw⟩
  · refine ⟨fun h => by omega, fun h => ?_⟩
    have := h.1.unique hw
    omega
  · exact ⟨fun _ => ⟨hw, hr⟩, fun _ => rfl⟩

theorem readers_iff (n : ℕ) :
    state = n ↔ Tally (Reads isWriter g) n ∧ Tally (Writes isWriter g) 0 := by
  rcases h with ⟨m, rfl, hr, hw⟩ | ⟨rfl, hr, hw⟩
  · refine ⟨fun h => ?_, fun h => ?_⟩
    · obtain rfl : m = n := by omega
      exact ⟨hr, hw⟩
    · rw [hr.unique h.1]
  · refine ⟨fun h => by omega, fun h => ?_⟩
    have := h.2.unique hw
    omega

end Balanced

/-- The invariant of the books. -/
structure Safe (b : Books Int ι) : Prop where
  balanced : Balanced isWriter b.res b.granted
  stuck : Stuck isWriter b.res b.waiters

variable {isWriter}

/-- A call that has to wait does not make the head of the queue admissible. -/
theorem stuck_append {state : Int} {ws : List ι} {i : ι} (h : Stuck isWriter state ws)
    (ht : (resource isWriter).tryNow i state ws = none) : Stuck isWriter state (ws ++ [i]) := by
  cases ws with
  | cons => exact h
  | nil =>
    intro j hj
    obtain rfl : i = j := by simpa using hj
    cases hi : isWriter i with
    | true => exact .inl ⟨rfl, by simpa [resource, hi, tryWrite] using ht⟩
    | false => exact .inr ⟨rfl, by simpa [resource, hi, tryRead] using ht⟩

/-- The fast paths succeed only over an empty queue. -/
theorem tryNow_empty {state r : Int} {ws : List ι} {i : ι}
    (ht : (resource isWriter).tryNow i state ws = some r) : ws = [] := by
  by_contra hne
  cases hi : isWriter i <;> simp [resource, hi, tryRead, tryWrite, hne] at ht

theorem safe_init : Safe isWriter (init : State ι).books :=
  ⟨.inl ⟨0, rfl, .zero fun k => by simp [init, State.books, Call.granted],
    .zero fun k => by simp [init, State.books, Call.granted]⟩,
    by simp [Stuck, init, State.books]⟩

variable [DecidableEq ι]

theorem safe_move {b b' : Books Int ι} {arr adm : List ι} (hok : b.Ok) (h : Safe isWriter b)
    (hm : Move (resource isWriter) b arr adm b') : Safe isWriter b' := by
  cases hm with
  | idle => exact h
  | @take i r _ hg ht =>
    have hempty := tryNow_empty ht
    refine ⟨?_, by simp [Stuck, hempty]⟩
    cases hi : isWriter i with
    | true =>
      simp only [resource, hi, if_true, tryWrite, hempty, ite_none_left_eq_some] at ht
      obtain ⟨h0, ht⟩ := ht
      cases ht
      have h0 : b.res = 0 := by simpa using h0
      exact (h0 ▸ h.balanced).addWriter hg hi
    | false =>
      simp only [resource, hi, false_eq_true, if_false, tryRead, hempty,
        ite_none_left_eq_some] at ht
      obtain ⟨h0, ht⟩ := ht
      cases ht
      have h0 : 0 ≤ b.res := by simpa using h0
      have := h.balanced.addReaders h0 (nodup_singleton i) (by simpa using hg) (by simpa using hi)
      simpa [union_singleton] using this
  | enqueue _ _ ht => exact ⟨h.balanced, stuck_append h.stuck ht⟩
  | @withdraw i v _ hv =>
    subst hv
    have := h.balanced.promote (hok.nodup.erase i) fun j hj => hok.disjoint (mem_of_mem_erase hj)
    exact ⟨this.1, this.2⟩
  | @giveBack i v hi hv =>
    subst hv
    have hd : ∀ j ∈ b.waiters, j ∉ b.granted \ {i} := fun j hj hjg => hok.disjoint hj hjg.1
    cases hw : isWriter i with
    | true =>
      have := (h.balanced.dropWriter hi hw).promote hok.nodup hd
      simp only [resource, hw, if_true, releaseWriter]
      exact ⟨this.1, this.2⟩
    | false =>
      obtain ⟨hpos, hbal⟩ := h.balanced.dropReader hi hw
      simp only [resource, hw, false_eq_true, if_false, releaseReader]
      split_ifs with h1
      · have := hbal.promote hok.nodup hd
        exact ⟨this.1, this.2⟩
      · refine ⟨by simpa using hbal, fun j hj => ?_⟩
        -- a reader at the head would have had to find a writer inside
        rcases h.stuck j hj with ⟨hjw, -⟩ | ⟨-, hneg⟩
        · exact .inl ⟨hjw, h1⟩
        · omega

/-- What the lock promises after the run `tr` to `s`. -/
structure Promise (isWriter : ι → Bool) (tr : List (State ι × Event ι)) (s : State ι) : Prop where
  /-- `state = -1` means one writer and no reader -/
  writer : s.res = -1 ↔ Tally (Writes isWriter s.books.granted) 1 ∧
    Tally (Reads isWriter s.books.granted) 0
  /-- `state = n ≥ 0` means `n` readers and no writer -/
  readers : ∀ n : ℕ, s.res = n ↔ Tally (Reads isWriter s.books.granted) n ∧
    Tally (Writes isWriter s.books.granted) 0
  /-- a waiter that could be admitted is not left at the head of the queue -/
  stuck : Stuck isWriter s.res s.waiters
  /-- a writer overlaps nobody -/
  exclusive : ∀ {i j}, Writes isWriter s.books.granted i → j ∈ s.books.granted → j = i
  /-- calls are admitted in the order in which they came to the lock -/
  order : (admissions (act isWriter) tr ++ s.waiters).Sublist (arrivals (act isWriter) tr)
  /-- a reader that came after a writer that still waits has not got the lock -/
  noOvertaking : ∀ {w r}, w ∈ s.waiters → isWriter w = true → isWriter r = false →
    [w, r].Sublist (arrivals (act isWriter) tr) → (s.calls r).granted = false

/-- **The lock keeps its promise** in every reachable state, whatever is cancelled or destroyed
on the way. -/
theorem lock_safe (isWriter : ι → Bool) {tr : List (State ι × Event ι)} {s : State ι}
    (hr : Run (step isWriter) init tr s) : Promise isWriter tr s := by
  obtain ⟨-, hsafe⟩ := books_invariant act_refines hr (inv_init 0) safe_init safe_move
  have horder := admissions_fifo act_refines hr (inv_init 0) safe_init rfl
    safe_move fun _ ht => tryNow_empty ht
  obtain ⟨-, hnodup, -⟩ := arrivals_nodup hr (inv_init 0) act_tracks
  obtain ⟨-, hadm, -⟩ := tracked hr (inv_init 0) act_tracks
    (by simp [State.books, Call.granted, init])
  refine ⟨hsafe.balanced.writer_iff, hsafe.balanced.readers_iff, hsafe.stuck,
    hsafe.balanced.exclusive, horder, fun {w r} hw _ _ hsub => ?_⟩
  by_contra hg
  exact not_overtaken horder hnodup (hadm (by simpa using hg)) hw hsub

/-- Readers `1` and `3` are behind writer `2`, which is behind reader `0`. The writer is
cancelled, which admits reader `1`; its frame is destroyed before it wakes. -/
def cancelledWriter : List (Event ℕ) :=
  [.await (.park 0 none), .await (.resume 0), .await (.park 2 (some false)), .await (.retry 2),
    .await (.park 1 none), .await (.park 3 none), .await (.cancel 2), .await (.destroy 1),
    .await (.revoke 1), .await (.wake 3), .await (.resume 3)]

theorem lock_safe_cancelledWriter : ∃ tr s, Run (step (· == 2)) (init : State ℕ) tr s ∧
    s.res = 2 ∧ admissions (act (· == 2)) tr = [0, 1, 3] ∧ Promise (· == 2) tr s := by
  have hr := Run.of_exec
    (show exec (step (· == 2)) (init : State ℕ) cancelledWriter = some _ from rfl)
  exact ⟨_, _, hr, rfl, rfl, lock_safe (· == 2) hr⟩

end Manwe.RwLock
