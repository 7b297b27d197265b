import Manwe.Transition.Tally
import Manwe.Yarn.TimedWait

/-!
# The semaphore

`AsyncSemaphore` is a count of free permits and a FIFO of suspended `acquire()` calls. `release`
hands a permit to the head of the queue without touching the count, or puts it back. It may be
called by anybody: a permit is not tied to the call that took it, so `release` is an operation of
its own, and a call that took a permit stays at `holding` for good. A grant that reaches a dead
frame goes through the same `release`, which is then not a user's.

**Conservation** is stated over whole runs. The permits there were at the start and those the
users released are, in every reachable state, the free ones, those taken by callers and those on
their way to one.
-/

namespace Manwe.AsyncSemaphore

open ParkBase TimedWait Option

variable {ι : Type*}

/-- The fast path of `AsyncSemAcquireAwaiter`, and of `tryAcquire`. -/
def take (count : ℕ) : Option ℕ := if count = 0 then none else some (count - 1)

@[simp] def release (count : ℕ) : List ι → Served ℕ ι
  -- the permit transfers to the woken waiter; the count is unchanged
  | i :: ws => ⟨count, [i], ws⟩
  | [] => ⟨count + 1, [], []⟩

theorem release_split (count : ℕ) (ws : List ι) :
    (release count ws).wake ++ (release count ws).waiters = ws := by
  cases ws <;> rfl

def resource : Resource ℕ ι where
  tryNow _ count _ := take count
  fixup count ws := ⟨count, [], ws⟩
  giveBack _ count ws := release count ws
  fixup_split _ _ := rfl
  giveBack_split _ count ws := release_split count ws

inductive Event (ι : Type*)
  | await (e : ParkBase.Event ι)
  | tryAcquire (i : ι)
  | release

section Step

variable [DecidableEq ι]

def tryAcquire (s : ParkBase.State ℕ ι) (i : ι) : Act ℕ ι := attempt resource s i

def act (s : ParkBase.State ℕ ι) : Event ι → Option (Act ℕ ι)
  | .await e => ParkBase.act resource s e
  | .tryAcquire i => if (s.calls i).pc = .idle then some (tryAcquire s i) else none
  | .release =>
    let v := release s.res s.waiters
    some { next := s.serve v, admits := v.wake }

/-- The call that a step begins. -/
def starts : Event ι → Option ι
  | .await e => begins e
  | .tryAcquire i => some i
  | .release => none

/-- The semaphore with its timed calls. -/
abbrev State (ι : Type*) := TimedWait.State ℕ ι

def init (initial : ℕ) : State ι := { base := { res := initial } }

def step : State ι → TimedWait.Event ι (Event ι) → Option (State ι) := TimedWait.step act starts

def isRelease : Event ι → Bool
  | .release => true
  | .await _ | .tryAcquire _ => false

/-- How often the users called `release()`. -/
def releases (tr : List (ParkBase.State ℕ ι × Event ι)) : ℕ := tr.countP fun p => isRelease p.2

variable {s : ParkBase.State ℕ ι} {e : Event ι} {a : Act ℕ ι}

theorem act_tracks (h : Inv s) (ha : act s e = some a) : Tracks s a := by
  cases e with
  | await => exact ParkBase.act_tracks h ha
  | tryAcquire =>
    obtain ⟨hpc, rfl⟩ := of_guard ha
    exact tracks_attempt h (by simp [Call.arrived, hpc])
  | release =>
    cases ha
    exact tracks_serve h (release_split s.res s.waiters)

theorem act_keeps (ha : act s e = some a) : Keeps starts s e a.next := by
  cases e with
  | await => exact ParkBase.act_keeps ha
  | tryAcquire =>
    obtain ⟨hpc, rfl⟩ := of_guard ha
    exact keeps_attempt (by simp [hpc, Pc.settled]) fun _ => rfl
  | release =>
    cases ha
    exact fun j => .inl (pc_serve _ _ j)

end Step

/-! ### The accounts -/

/-- The invariant of the books: `total` permits are free or granted, and nobody waits while one is
free. -/
structure Safe (total : ℕ) (b : Books ℕ ι) : Prop where
  balanced : ∃ n, Tally (· ∈ b.granted) n ∧ total = b.res + n
  empty : 0 < b.res → b.waiters = []

theorem safe_init (initial : ℕ) : Safe initial (init initial : State ι).base.books :=
  ⟨⟨0, .zero fun k => by simp [init, State.books, Call.granted], rfl⟩, fun _ => rfl⟩

variable {total : ℕ}

/-- **`release` adds one permit**: to the count, or to those granted. -/
theorem Safe.release {count : ℕ} {ws : List ι} {g : Set ι} (h : Safe total ⟨count, ws, g⟩)
    (hd : ∀ j ∈ ws, j ∉ g) : Safe (total + 1) ⟨(release count ws).res, (release count ws).waiters,
      g ∪ {j | j ∈ (release count ws).wake}⟩ := by
  obtain ⟨⟨n, hn, htotal⟩, hempty⟩ := h
  simp only at htotal hempty
  cases ws with
  | nil =>
    refine ⟨⟨n, by simpa using hn, ?_⟩, fun _ => rfl⟩
    simp only [AsyncSemaphore.release]
    omega
  | cons j =>
    refine ⟨⟨n + 1, hn.insert (hd j (by simp)) fun k => ?_, ?_⟩, fun hpos => ?_⟩
    · simp [or_comm]
    · simp only [AsyncSemaphore.release]
      omega
    · exact absurd (hempty hpos) (by simp)

variable [DecidableEq ι]

theorem safe_move {b b' : Books ℕ ι} {arr adm : List ι} (hok : b.Ok) (h : Safe total b)
    (hm : Move resource b arr adm b') : Safe total b' := by
  obtain ⟨count, waiters, granted⟩ := b
  have h' := h
  obtain ⟨⟨n, hn, htotal⟩, hempty⟩ := h'
  simp only at hn htotal hempty
  cases hm with
  | idle => exact h
  | @take i r _ hg ht =>
    simp only [resource, AsyncSemaphore.take, ite_none_left_eq_some, some.injEq] at ht
    obtain ⟨hpos, rfl⟩ := ht
    refine ⟨⟨n + 1, hn.insert hg fun k => by simp [or_comm], ?_⟩, fun _ => hempty (by omega)⟩
    change total = count - 1 + (n + 1)
    omega
  | enqueue _ _ ht =>
    have hzero : count = 0 := by simpa [resource, AsyncSemaphore.take] using ht
    exact ⟨⟨n, hn, htotal⟩, fun hpos => absurd hzero (by simpa using hpos.ne')⟩
  | @withdraw i v _ hv =>
    subst hv
    refine ⟨⟨n, by simpa [resource] using hn, htotal⟩, fun hpos => ?_⟩
    have hnil := hempty hpos
    simp [resource, hnil]
  | @giveBack i v hi hv =>
    subst hv
    have hpos := hn.pos hi
    -- without the grant of `i` there is a permit less, which `release` makes up for
    have hless : Safe (total - 1) ⟨count, waiters, granted \ {i}⟩ :=
      ⟨⟨n - 1, hn.erase hi fun k => by simp, by simp only; omega⟩, hempty⟩
    have hrel := hless.release fun j hj hjg => hok.disjoint hj hjg.1
    rwa [Nat.sub_add_cancel (by omega)] at hrel

theorem safe_act {s : ParkBase.State ℕ ι} {e : Event ι} {a : Act ℕ ι}
    (hI : Inv s) (h : Safe total s.books) (ha : act s e = some a) :
    Safe (total + (isRelease e).toNat) a.next.books := by
  cases e with
  | await => exact safe_move hI.booksOk h (act_refines hI ha).move
  | tryAcquire =>
    obtain ⟨hpc, rfl⟩ := of_guard ha
    exact safe_move hI.booksOk h (refines_attempt hI (by simp [Call.arrived, hpc])).move
  | release =>
    cases ha
    rw [hI.books_serve (release_split s.res s.waiters)]
    exact Safe.release h fun j hj => hI.booksOk.disjoint hj

/-- **Conservation over a run** of the semaphore. -/
theorem safe_run {initial : ℕ} {s₀ s : ParkBase.State ℕ ι}
    {tr : List (ParkBase.State ℕ ι × Event ι)}
    (hr : Run (stepOf act) s₀ tr s) (hI : Inv s₀) (h₀ : Safe initial s₀.books) :
    Inv s ∧ Safe (initial + releases tr) s.books := by
  induction hr with
  | start => exact ⟨hI, h₀⟩
  | @next tr s t e hr hs ih =>
    obtain ⟨a, ha, rfl⟩ := map_eq_some_iff.mp hs
    refine ⟨(act_tracks ih.1 ha).inv, ?_⟩
    have hcount : releases (tr ++ [(s, e)]) = releases tr + (isRelease e).toNat := by
      simp only [releases, List.countP_append, List.countP_singleton]
      cases isRelease e <;> rfl
    rw [hcount, ← Nat.add_assoc]
    exact safe_act ih.1 ih.2 ha

/-- What the semaphore promises after the run `tr` to `s`. -/
structure Promise (initial : ℕ) (tr : List (State ι × TimedWait.Event ι (Event ι))) (s : State ι) :
    Prop where
  /-- no permit is lost and none is made up -/
  conserved : ∃ held flying, Tally (fun i => (s.base.calls i).holds = true) held ∧
    Tally (fun i => (s.base.calls i).inFlight = true) flying ∧
    initial + releases (baseRun tr) = s.base.res + held + flying
  /-- nobody waits while a permit is free -/
  empty : 0 < s.base.res → s.base.waiters = []
  /-- `acquireFor` returns `true` exactly when its caller took a permit -/
  took : ∀ {i o}, s.ended i = some o → (o = .returned true ↔ (s.base.calls i).holds = true)
  /-- when it returns `false` or throws, its caller was never given one -/
  untaken : ∀ {i o}, s.ended i = some o → o ≠ .returned true → i ∉ admissions act (baseRun tr)

end Manwe.AsyncSemaphore
