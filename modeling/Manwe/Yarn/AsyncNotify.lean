import Manwe.Transition.Custody
import Manwe.Yarn.TimedWait

/-!
# Notifications and events

`AsyncNotify` has no state but its queue. `notified()` always parks, `notifyOne` wakes the head of
the queue and is forgotten if there is none, `notifyAll` wakes everybody. A wake that reaches a
dead frame is passed on by one more `notifyOne`.

Each notification is a **token**, issued to a waiter when it leaves the queue. The ledger `tokens`
follows who carries it, and the main result is that the ledger tells the truth about the code: the
carriers are exactly the calls whose wake is in flight or that have returned, one token each. A
token changes hands only when a dead frame passes it to the head of the queue, and is dropped
only if nobody waits then.

`AsyncEvent` is a latch: `set` latches it and wakes everybody in one section, and a wait that
finds it latched does not park.
-/

namespace Manwe

open List Option TimedWait

open ParkBase

variable {ι : Type*}

/-! ### Notifications -/

namespace AsyncNotify

def notifyOne : List ι → Served Unit ι
  | [] => ⟨(), [], []⟩
  | i :: ws => ⟨(), [i], ws⟩

def notifyAll (ws : List ι) : Served Unit ι := ⟨(), ws, []⟩

theorem notifyOne_split (ws : List ι) : (notifyOne ws).wake ++ (notifyOne ws).waiters = ws := by
  cases ws <;> rfl

theorem notifyOne_wake (ws : List ι) : (notifyOne ws).wake = ws.head?.toList := by
  cases ws <;> rfl

theorem notifyAll_split (ws : List ι) : (notifyAll ws).wake ++ (notifyAll ws).waiters = ws :=
  append_nil ws

def resource : Resource Unit ι where
  tryNow _ _ _ := none
  fixup _ ws := ⟨(), [], ws⟩
  giveBack _ _ ws := notifyOne ws
  fixup_split _ _ := rfl
  giveBack_split _ _ ws := notifyOne_split ws

inductive Event (ι : Type*)
  | await (e : ParkBase.Event ι)
  | notifyOne
  | notifyAll

/-- The call that a step begins. -/
def starts : Event ι → Option ι
  | .await e => begins e
  | .notifyOne | .notifyAll => none

section Step

variable [DecidableEq ι]

def act (s : ParkBase.State Unit ι) : Event ι → Option (Act Unit ι)
  | .await e => ParkBase.act resource s e
  | .notifyOne =>
    let v := notifyOne s.waiters
    some { next := s.serve v, admits := v.wake }
  | .notifyAll =>
    let v := notifyAll s.waiters
    some { next := s.serve v, admits := v.wake }

/-- The primitive with its timed calls. -/
abbrev State (ι : Type*) := TimedWait.State Unit ι

def init : State ι := { base := { res := () } }

def step : State ι → TimedWait.Event ι (Event ι) → Option (State ι) := TimedWait.step act starts

/-- What a step does to the ledger. -/
def custody (s : ParkBase.State Unit ι) : Event ι → List (Option ι) → List (Option ι)
  | .notifyOne, T => T ++ (notifyOne s.waiters).wake.map some
  | .notifyAll, T => T ++ (notifyAll s.waiters).wake.map some
  | .await (.revoke i), T => passOn i s.waiters.head? T
  | .await (.park ..), T | .await (.retry _), T | .await (.cancel _), T | .await (.wake _), T
  | .await (.resume _), T | .await (.destroy _), T => T

/-- Who carries the notifications of a run, in the order in which they were issued. -/
def tokens (tr : List (ParkBase.State Unit ι × Event ι)) : List (Option ι) :=
  tr.foldl (fun T p => custody p.1 p.2 T) []

@[simp] theorem tokens_snoc (tr : List (ParkBase.State Unit ι × Event ι))
    (p : ParkBase.State Unit ι × Event ι) : tokens (tr ++ [p]) = custody p.1 p.2 (tokens tr) := by
  simp [tokens]

variable {s : ParkBase.State Unit ι} {e : Event ι} {a : Act Unit ι}

theorem act_tracks (h : Inv s) (ha : act s e = some a) : Tracks s a := by
  cases e with
  | await => exact ParkBase.act_tracks h ha
  | notifyOne =>
    cases ha
    exact tracks_serve h (notifyOne_split s.waiters)
  | notifyAll =>
    cases ha
    exact tracks_serve h (notifyAll_split s.waiters)

theorem act_keeps (ha : act s e = some a) : Keeps starts s e a.next := by
  cases e with
  | await => exact ParkBase.act_keeps ha
  | notifyOne | notifyAll =>
    cases ha
    exact fun j => .inl (pc_serve _ _ j)

/-- Apart from giving a wake back, no step of the awaiters wakes anybody. -/
theorem admits_eq_nil {e : ParkBase.Event ι} (ha : ParkBase.act resource s e = some a)
    (he : ∀ i, e ≠ .revoke i) : a.admits = [] := by
  have hpark : ∀ i core armed, (park resource s i core armed).admits = [] := by
    intro i core armed
    rcases park_cases resource s i core armed with hp | ⟨r, ht, -⟩ | ⟨-, hp⟩ | hp
    · rw [hp]
    · simp [resource] at ht
    · rw [hp]
    · rw [hp]
  cases e with obtain ⟨-, rfl⟩ := of_guard ha
  | park | retry => exact hpark _ _ _
  | cancel =>
    dsimp only [cancelThunk]
    split <;> rfl
  | wake | resume => rfl
  | destroy =>
    dsimp only [abandon]
    split
    · rfl
    split <;> rfl
  | revoke i => exact absurd rfl (he i)

variable {T : List (Option ι)}

/-- A section run from outside issues tokens to those it wakes. -/
theorem custody_serve (h : Inv s) (hT : Custody T s.books.granted) {v : Served Unit ι}
    (hv : v.wake ++ v.waiters = s.waiters) :
    Custody (T ++ v.wake.map some) (s.serve v).books.granted := by
  have hsub : ∀ j ∈ v.wake, j ∈ s.waiters := fun j hj => hv ▸ mem_append_left _ hj
  have hnd : v.wake.Nodup := by
    have := h.nodup
    rw [← hv] at this
    exact this.of_append_left
  rw [h.books_serve hv]
  exact hT.issue hnd fun j hj => h.booksOk.disjoint (hsub j hj)

/-- **The ledger tells the truth**, step by step. -/
theorem custody_act (h : Inv s) (hT : Custody T s.books.granted)
    (ha : act s e = some a) : Custody (custody s e T) a.next.books.granted := by
  cases e with
  | notifyOne =>
    cases ha
    exact custody_serve h hT (notifyOne_split s.waiters)
  | notifyAll =>
    cases ha
    exact custody_serve h hT (notifyAll_split s.waiters)
  | await e =>
    by_cases he : ∃ i, e = .revoke i
    · obtain ⟨i, rfl⟩ := he
      obtain ⟨hpc, rfl⟩ := of_guard ha
      have hi : (s.calls i).granted = true := by simp [Call.granted, hpc]
      have hq : (s.calls i).queued = false := h.not_queued (by simp [hpc])
      rw [h.granted_giveBack hi (c := { s.calls i with pc := .destroyed }) hq rfl rfl]
      refine (hT.pass hi fun j hj => ?_).congr fun j => ?_
      · exact h.booksOk.disjoint (mem_of_head? hj)
      · simp [resource, notifyOne_wake]
    · have hne : ∀ i, e ≠ .revoke i := fun i hi => he ⟨i, hi⟩
      have hsame : custody s (.await e) T = T := by
        cases e with
        | revoke i => exact absurd rfl (hne i)
        | _ => rfl
      rw [hsame]
      refine hT.congr fun j => ⟨fun hj => ?_, fun hj => ?_⟩
      · have hor := (ParkBase.act_tracks h ha).granted j hj
        exact hor.resolve_right (by simp [admits_eq_nil ha hne])
      · exact act_granted h ha hj (hne j)

end Step

section Runs

variable [DecidableEq ι] {s : ParkBase.State Unit ι} {tr : List (ParkBase.State Unit ι × Event ι)}

theorem custody_run (hr : Run (stepOf act) { res := () } tr s) :
    Inv s ∧ Custody (tokens tr) s.books.granted := by
  induction hr with
  | start =>
    exact ⟨inv_init (), Custody.nil.congr fun i => by simp [State.books, Call.granted]⟩
  | @next tr s t e hr hs ih =>
    obtain ⟨a, ha, rfl⟩ := map_eq_some_iff.mp hs
    rw [tokens_snoc]
    exact ⟨(act_tracks ih.1 ha).inv, custody_act ih.1 ih.2 ha⟩

/-- A token changes hands in a step only if a dead frame passes it to the head of the queue. -/
def Passed (s : ParkBase.State Unit ι) (e : Event ι) (before after : Option ι) : Prop :=
  ∃ i, before = some i ∧ e = .await (.revoke i) ∧ (s.calls i).pc = .revoking ∧
    after = s.waiters.head?

variable {o : Option ι}

theorem custody_getElem? {e : Event ι} {a : Act Unit ι} (ha : act s e = some a)
    {T : List (Option ι)} {n : ℕ} (hn : T[n]? = some o) :
    ∃ o', (custody s e T)[n]? = some o' ∧ (o' = o ∨ Passed s e o o') := by
  have happend : ∀ l : List (Option ι), (T ++ l)[n]? = some o := by
    intro l
    have hlt := (List.getElem?_eq_some_iff.mp hn).1
    rw [getElem?_append_left hlt, hn]
  cases e with
  | notifyOne | notifyAll => exact ⟨o, happend _, .inl rfl⟩
  | await e =>
    cases e with
    | revoke i =>
      simp only [act, ParkBase.act, ite_none_right_eq_some, some.injEq] at ha
      refine ⟨if o = some i then s.waiters.head? else o, ?_, ?_⟩
      · simp only [custody, getElem?_passOn, hn, map_some]
      · split_ifs with hoi
        · exact .inr ⟨i, hoi, rfl, ha.1, rfl⟩
        · exact .inl rfl
    | park | retry | cancel | wake | resume | destroy => exact ⟨o, hn, .inl rfl⟩

/-- A token that has been issued stays in the ledger. -/
theorem tokens_issued {tr₁ tr₂ : List (ParkBase.State Unit ι × Event ι)}
    (hr : Run (stepOf act) { res := () } (tr₁ ++ tr₂) s) {n : ℕ}
    (hn : (tokens tr₁)[n]? = some o) : ∃ o', (tokens (tr₁ ++ tr₂))[n]? = some o' := by
  generalize htr : tr₁ ++ tr₂ = tr at hr
  induction hr generalizing tr₂ with
  | start =>
    obtain ⟨rfl, rfl⟩ := append_eq_nil_iff.mp htr
    exact ⟨o, hn⟩
  | @next tr s t e hr hs ih =>
    obtain ⟨a, ha, rfl⟩ := map_eq_some_iff.mp hs
    rcases eq_nil_or_concat tr₂ with rfl | ⟨tr₂, q, rfl⟩
    · rw [append_nil] at htr
      exact ⟨o, htr ▸ hn⟩
    · rw [concat_eq_append, ← append_assoc] at htr
      obtain ⟨o', ho'⟩ := ih (append_inj' htr rfl).1
      obtain ⟨o'', ho'', -⟩ := custody_getElem? ha ho'
      exact ⟨o'', by rwa [tokens_snoc]⟩

end Runs

/-- Where token `n` is: with a call that has returned, with a wake in flight, or nowhere. -/
inductive Fate (T : List (Option ι)) (s : ParkBase.State Unit ι) (n : ℕ) : Prop
  | returned {i : ι} : T[n]? = some (some i) → (s.calls i).holds = true → Fate T s n
  | carried {i : ι} : T[n]? = some (some i) → (s.calls i).inFlight = true → Fate T s n
  | dropped : T[n]? = some none → Fate T s n

variable [DecidableEq ι]

/-- What `AsyncNotify` promises after the run `tr` to `s`. -/
structure Promise (tr : List (State ι × TimedWait.Event ι (Event ι))) (s : State ι) : Prop where
  /-- a `notifyOne` that finds a waiter issues a token to it, whose fate is one of three -/
  issued : ∀ {tr₁ s' tr₂ i ws}, baseRun tr = tr₁ ++ (s', .notifyOne) :: tr₂ → s'.waiters = i :: ws →
    (tokens (tr₁ ++ [(s', .notifyOne)]))[(tokens tr₁).length]? = some (some i) ∧
      Fate (tokens (baseRun tr)) s.base (tokens tr₁).length
  /-- a token changes hands only from a dead frame to the head of the queue; it is dropped only
  if nobody is queued then, and a dropped token stays dropped -/
  passed : ∀ {tr₁ p tr₂ o} {n : ℕ}, baseRun tr = tr₁ ++ p :: tr₂ → (tokens tr₁)[n]? = some o →
    ∃ o', (tokens (tr₁ ++ [p]))[n]? = some o' ∧ (o' = o ∨ Passed p.1 p.2 o o')
  /-- nobody carries two tokens -/
  one : ∀ {n m : ℕ} {i}, (tokens (baseRun tr))[n]? = some (some i) →
    (tokens (baseRun tr))[m]? = some (some i) → n = m
  /-- a call that returns normally has a token, and one that throws has none -/
  returned : ∀ {i}, (s.base.calls i).holds = true →
    ∃ n : ℕ, (tokens (baseRun tr))[n]? = some (some i)
  threw : ∀ {i}, (s.base.calls i).pc = .threw → ¬ ∃ n : ℕ, (tokens (baseRun tr))[n]? = some (some i)
  /-- `notifiedFor` returns `true` exactly when it has consumed a notification -/
  timed : ∀ {i o}, s.ended i = some o →
    (o = .returned true ↔ ∃ n : ℕ, (tokens (baseRun tr))[n]? = some (some i))

theorem promise_of_run {tr : List (State ι × TimedWait.Event ι (Event ι))} {s : State ι}
    (hr : Run step init tr s) : Promise tr s := by
  have hbase := run_base hr
  obtain ⟨-, hT⟩ := custody_run hbase
  have hagrees : ∀ {i o}, s.ended i = some o → Agrees (s.base.calls i).pc o := by
    refine ended_agrees hr (fun _ => rfl) fun {s e t} hs => ?_
    obtain ⟨a, ha, rfl⟩ := map_eq_some_iff.mp hs
    exact act_keeps ha
  have hcarrier : ∀ {i}, (∃ n : ℕ, (tokens (baseRun tr))[n]? = some (some i)) ↔
      (s.base.calls i).granted = true := hT.mem
  refine ⟨fun {tr₁ s' tr₂ i ws} htr hws => ⟨?_, ?_⟩, fun {tr₁ p tr₂ o n} htr hn => ?_, hT.inj,
    fun {i} hi => ?_, fun {i} hi => ?_, fun {i o} ho => ?_⟩
  · simp [custody, hws, notifyOne]
  · have hfirst : (tokens (tr₁ ++ [(s', .notifyOne)]))[(tokens tr₁).length]? = some (some i) := by
      simp [custody, hws, notifyOne]
    have hcut : tr₁ ++ (s', .notifyOne) :: tr₂ = (tr₁ ++ [(s', .notifyOne)]) ++ tr₂ := by simp
    obtain ⟨o, ho⟩ := tokens_issued (by rw [← hcut, ← htr]; exact hbase) hfirst
    rw [← hcut, ← htr] at ho
    cases o with
    | none => exact .dropped ho
    | some j =>
      rcases (s.base.calls j).granted_iff.mp (hcarrier.mp ⟨_, ho⟩) with hj | hj
      · exact .returned ho hj
      · exact .carried ho hj
  · rw [htr] at hbase
    obtain ⟨t, ht⟩ := hbase.enabled
    obtain ⟨a, ha, -⟩ := map_eq_some_iff.mp ht
    simpa using custody_getElem? ha hn
  · exact hcarrier.mpr ((s.base.calls i).granted_iff.mpr (.inl hi))
  · simp [hcarrier, Call.granted, hi]
  · rw [hcarrier]
    match o, hagrees ho with
    | .returned true, h | .returned false, h =>
      simp [Call.granted, show (s.base.calls i).pc = _ from h]
    | .threw, .inl h | .threw, .inr h => simp [Call.granted, h]

end AsyncNotify

/-! ### Events -/

namespace AsyncEvent

/-- A wait that finds the event latched goes on; nothing is owed by a wake that is not used. -/
def resource : Resource Bool ι where
  tryNow _ latched _ := if latched then some latched else none
  fixup latched ws := ⟨latched, [], ws⟩
  giveBack _ latched ws := ⟨latched, [], ws⟩
  fixup_split _ := nil_append
  giveBack_split _ _ _ := rfl

/-- The field `res` is `latched`. -/
abbrev State (ι : Type*) := ParkBase.State Bool ι

def init : State ι := { res := false }

inductive Event (ι : Type*)
  | await (e : ParkBase.Event ι)
  /-- `await_ready` finds the event latched -/
  | ready (i : ι)
  | set

section Step

variable [DecidableEq ι]

def set (s : State ι) : Act Bool ι :=
  if s.res then { next := s } else { next := s.serve ⟨true, s.waiters, []⟩, admits := s.waiters }

def act (s : State ι) : Event ι → Option (Act Bool ι)
  | .await e => ParkBase.act resource s e
  | .ready i => if (s.calls i).pc = .idle ∧ s.res = true then some (attempt resource s i) else none
  | .set => some (set s)

def step : State ι → Event ι → Option (State ι) := stepOf act

end Step

/-- The invariant of the books: a latched event has no queue, and nobody is let through before. -/
structure Safe (b : Books Bool ι) : Prop where
  empty : b.res = true → b.waiters = []
  latched : ∀ {i}, i ∈ b.granted → b.res = true

variable [DecidableEq ι]

variable {s : State ι} {b b' : Books Bool ι} {arr adm : List ι} {tr : List (State ι × Event ι)}

theorem safe_move (h : Safe b) (hm : Move resource b arr adm b') : Safe b' := by
  obtain ⟨latched, waiters, granted⟩ := b
  obtain ⟨hempty, hlatched⟩ := h
  cases hm with
  | idle => exact ⟨hempty, hlatched⟩
  | take _ _ ht =>
    simp only [resource, ite_none_right_eq_some, some.injEq] at ht
    obtain ⟨hl, rfl⟩ := ht
    exact ⟨fun _ => hempty hl, fun _ => hl⟩
  | enqueue _ _ ht =>
    have hf : latched = false := by simpa [resource] using ht
    exact ⟨fun hl => by simp [hf] at hl, hlatched⟩
  | withdraw _ hv =>
    subst hv
    refine ⟨fun hl => ?_, fun {i} hi => hlatched (by simpa [resource] using hi)⟩
    have hnil : waiters = [] := hempty hl
    simp [resource, hnil]
  | giveBack _ hv =>
    subst hv
    refine ⟨hempty, fun {j} hj => hlatched (i := j) ?_⟩
    simp only [resource, Set.mem_union, Set.mem_sdiff, not_mem_nil, Set.ofPred_false,
      Set.mem_empty_iff_false, or_false] at hj
    exact hj.1

theorem safe_act {e : Event ι} {a : Act Bool ι} (hI : Inv s) (h : Safe s.books)
    (ha : act s e = some a) : Inv a.next ∧ Safe a.next.books := by
  cases e with
  | await =>
    have href := act_refines hI ha
    exact ⟨href.inv, safe_move h href.move⟩
  | ready i =>
    obtain ⟨⟨hpc, -⟩, rfl⟩ := of_guard ha
    have href := refines_attempt (R := resource) hI (i := i) (by simp [Call.arrived, hpc])
    exact ⟨href.inv, safe_move h href.move⟩
  | set =>
    cases ha
    unfold set
    split
    · exact ⟨hI, h⟩
    · have hsplit : s.waiters ++ [] = s.waiters := append_nil _
      refine ⟨hI.serve hsplit, ?_⟩
      exact ⟨fun _ => rfl, fun _ => rfl⟩

/-- No step of the awaiters changes the latch. -/
theorem res_of_move (hm : Move resource b arr adm b') : b'.res = b.res := by
  cases hm with
  | idle | enqueue => rfl
  | take _ _ ht =>
    simp only [resource, ite_none_right_eq_some, some.injEq] at ht
    exact ht.2.symm
  | withdraw _ hv | giveBack _ hv =>
    subst hv
    rfl

/-- What `AsyncEvent` promises after the run `tr` to `s`. -/
structure Promise (tr : List (State ι × Event ι)) (s : State ι) : Prop where
  /-- nobody is queued at a latched event -/
  empty : s.res = true → s.waiters = []
  /-- no wait returns before `set` -/
  notBefore : ∀ {i}, (s.calls i).holds = true → ∃ p ∈ tr, p.2 = .set

theorem safe_run (hr : Run step init tr s) :
    Inv s ∧ Safe s.books ∧ (s.res = true → ∃ p ∈ tr, p.2 = .set) := by
  induction hr with
  | start =>
    refine ⟨inv_init false, ⟨fun _ => rfl, fun hi => ?_⟩, fun hl => ?_⟩
    · simp [State.books, Call.granted, init] at hi
    · simp [init] at hl
  | @next tr s t e hr hs ih =>
    obtain ⟨hI, hsafe, hset⟩ := ih
    obtain ⟨a, ha, rfl⟩ := map_eq_some_iff.mp hs
    obtain ⟨hI', hsafe'⟩ := safe_act hI hsafe ha
    refine ⟨hI', hsafe', fun hl => ?_⟩
    have hold : s.res = true → ∃ p ∈ tr ++ [(s, e)], p.2 = .set := fun hl => by
      obtain ⟨p, hp, he⟩ := hset hl
      exact ⟨p, mem_append_left _ hp, he⟩
    cases e with
    | await => exact hold ((res_of_move (act_refines hI ha).move).symm.trans hl)
    | ready =>
      simp only [act, ite_none_right_eq_some] at ha
      exact hold ha.1.2
    | set => exact ⟨(s, .set), by simp, rfl⟩

theorem promise_of_run (hr : Run step init tr s) : Promise tr s := by
  obtain ⟨-, hsafe, hset⟩ := safe_run hr
  refine ⟨hsafe.empty, fun {i} hi => hset (hsafe.latched (i := i) ?_)⟩
  exact (s.calls i).granted_iff.mpr (.inl hi)

end AsyncEvent

/-- **No notification is swallowed and no waiter is stranded**: both primitives keep their
promises in every reachable state, whatever is cancelled, timed out or destroyed on the way. -/
theorem notify_event_safe [DecidableEq ι] :
    (∀ {tr s}, Run AsyncNotify.step (AsyncNotify.init : AsyncNotify.State ι) tr s →
      AsyncNotify.Promise tr s) ∧
    ∀ {tr s}, Run AsyncEvent.step (AsyncEvent.init : AsyncEvent.State ι) tr s →
      AsyncEvent.Promise tr s :=
  ⟨AsyncNotify.promise_of_run, AsyncEvent.promise_of_run⟩

/-- Calls `0`, `1` and `2` wait. The first notification reaches `0`, whose frame is destroyed, so
that it is passed on to `1`; `2` is withdrawn by its deadline. A second notification finds
nobody. -/
def AsyncNotify.passedOn : List (TimedWait.Event ℕ (AsyncNotify.Event ℕ)) :=
  [.base (.await (.park 0 none)), .base (.await (.park 1 (some false))),
    .base (.await (.retry 1)), .base (.await (.park 2 (some false))), .base (.await (.retry 2)),
    .base .notifyOne, .base (.await (.destroy 0)), .base (.await (.cancel 2)),
    .base (.await (.revoke 0)), .base (.await (.wake 2)), .base (.await (.resume 2)),
    .settle 2 false, .base (.await (.wake 1)), .base (.await (.resume 1)), .settle 1 false,
    .base .notifyOne]

/-- Call `0` waits for the event, call `1` comes after it. -/
def AsyncEvent.lateWait : List (AsyncEvent.Event ℕ) :=
  [.await (.park 0 none), .set, .ready 1, .await (.wake 0), .await (.resume 0)]

theorem notify_event_safe_passedOn :
    (∃ tr s, Run AsyncNotify.step (AsyncNotify.init : AsyncNotify.State ℕ) tr s ∧
      AsyncNotify.tokens (baseRun tr) = [some 1] ∧ s.ended 1 = some (.returned true) ∧
      s.ended 2 = some (.returned false) ∧ AsyncNotify.Promise tr s) ∧
    ∃ tr s, Run AsyncEvent.step (AsyncEvent.init : AsyncEvent.State ℕ) tr s ∧
      (s.calls 0).holds = true ∧ (s.calls 1).holds = true ∧ AsyncEvent.Promise tr s := by
  have hn := Run.of_exec (show exec AsyncNotify.step (AsyncNotify.init : AsyncNotify.State ℕ)
    AsyncNotify.passedOn = some _ from rfl)
  have he := Run.of_exec (show exec AsyncEvent.step (AsyncEvent.init : AsyncEvent.State ℕ)
    AsyncEvent.lateWait = some _ from rfl)
  exact ⟨⟨_, _, hn, rfl, rfl, rfl, notify_event_safe.1 hn⟩,
    ⟨_, _, he, rfl, rfl, notify_event_safe.2 he⟩⟩

end Manwe
