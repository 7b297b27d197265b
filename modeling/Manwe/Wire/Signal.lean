import Manwe.Transition.CopyOnWrite

/-!
# Signals

`Signal` is a typed multicast: `connect` and `disconnect` keep a list of handlers, `emit` and
`emitAsync` call them with the arguments, and `next` parks a coroutine until the next emission.

* **Handlers.** An emission takes a snapshot of the list under the lock and goes through it without
  the lock, so that handlers may connect, disconnect and emit themselves. The snapshot is the list
  itself; `active` counts the emissions that have one, and the writers copy the list unless the
  count is zero.
* **Waiters.** The snapshot also takes every parked `next()` out of the pending list; the emission
  then stores a copy of its arguments with each of them and hands it to the pool. A cancel callback
  and the destructor of the Signal take waiters out of the list in the same way.

One step is one section under the lock, one atomic access, or one iteration of a loop outside the
lock. Emissions and waiters are unbounded in number; that an emission is made inside a handler is
one of the interleavings. What the pool runs, it runs at any time, at once if it refuses the task.
The class notes forbid to destroy the Signal while an emission runs; such runs are not excluded
here, and the core then stays in memory.
-/

namespace Manwe.Signal

open Function

variable {η α χ : Type*}

inductive Mode
  | emit
  | emitAsync
  deriving DecidableEq

/-- Where an emission stands. -/
inductive EmitPc (α : Type*) (χ : Type*)
  | idle
  /-- `wake`: the waiters that are left; `list` is the snapshot -/
  | waking (m : Mode) (args : α) (list : Option ℕ) (waiters : List ℕ)
  /-- before handler `i`; `first` is the first exception -/
  | calling (m : Mode) (args : α) (list : ℕ) (i : ℕ) (first : Option χ)
  /-- handler `i` runs on the thread of the emission -/
  | running (m : Mode) (args : α) (list : ℕ) (i : ℕ) (first : Option χ)
  /-- `~Snapshot` has dropped the list: before the decrement of `active` -/
  | releasing (first : Option χ)
  /-- returned, or left with the exception -/
  | finished (first : Option χ)
  deriving DecidableEq

inductive NextPc (α : Type*)
  | idle
  /-- the cancel callback is being armed before the second look -/
  | arming
  | parked
  /-- the coroutine runs again and `await_resume` comes next -/
  | resuming
  /-- with the arguments, or with `CancelledException` -/
  | completed (r : Option α)
  | destroyed

/-- A `NextAwaiter` with its slot. -/
structure Next (α : Type*) where
  pc : NextPc α := .idle
  queued : Bool := false
  value : Option α := none
  gone : Bool := false
  earlyCancel : Bool := false
  cancelled : Bool := false
  /-- the cancel callback is armed -/
  bound : Bool := false
  /-- a cancel callback has unlinked the slot and has not resumed the handle yet -/
  took : Bool := false

/-- A handler dispatched to the pool: its emission, its slot id, the handler and the arguments. -/
structure HandlerTask (η : Type*) (α : Type*) where
  emission : ℕ
  id : ℕ
  handler : η
  args : α

structure State (η : Type*) (α : Type*) (χ : Type*) where
  nextId : ℕ := 1
  handlers : Cow (List (ℕ × η)) := { cells := fun _ => [] }
  active : ℕ := 0
  pending : List ℕ := []
  dead : Bool := false
  emits : ℕ → EmitPc α χ := fun _ => .idle
  nexts : ℕ → Next α := fun _ => {}
  /-- waiters that `~Signal` has not handed to the pool yet -/
  orphans : List ℕ := []
  /-- handles the pool is going to resume -/
  pool : List ℕ := []
  tasks : List (HandlerTask η α) := []

inductive Event (η : Type*) (α : Type*) (χ : Type*)
  /-- `ok` is false if memory runs out -/
  | connect (h : η) (ok : Bool)
  | disconnect (id : ℕ) (ok : Bool)
  /-- the snapshot of emission `k` -/
  | emit (k : ℕ) (m : Mode) (args : α)
  /-- one waiter; `ok` is false if the copy of the arguments throws -/
  | wake (k : ℕ) (ok : Bool)
  | enter (k : ℕ)
  /-- one iteration over the handlers; the pool may refuse a task -/
  | invoke (k : ℕ) (refused : Bool)
  | returned (k : ℕ) (thrown : Option χ)
  | release (k : ℕ)
  /-- the pool runs a task -/
  | runTask (i : ℕ)
  /-- first look of `await_suspend`, with the ambient cancellation context, if there is one, and
  whether cancellation has been requested on it -/
  | next (j : ℕ) (core : Option Bool)
  | retry (j : ℕ)
  | cancel (j : ℕ)
  | post (j : ℕ)
  | run (j : ℕ)
  | resume (j : ℕ)
  /-- the frame is destroyed while it is parked -/
  | destroy (j : ℕ)
  | destroySignal
  | orphan

namespace State

/-- The handlers that are connected. -/
def connected (s : State η α χ) : List (ℕ × η) := s.handlers.value []

@[simp] def putEmit (s : State η α χ) (k : ℕ) (p : EmitPc α χ) : State η α χ :=
  { s with emits := update s.emits k p }

def putNext (s : State η α χ) (j : ℕ) (n : Next α) : State η α χ :=
  { s with nexts := update s.nexts j n }

/-- `Core::connect`: the list is edited in place if no emission is running. -/
def connect (s : State η α χ) (h : η) (ok : Bool) : State η α χ :=
  { s with
    nextId := (s.nextId + 1) % 2 ^ 64
    handlers := if ok then s.handlers.put (s.connected ++ [(s.nextId, h)]) (s.active == 0)
      else s.handlers }

/-- `Core::disconnect`: only the copy needs memory. -/
def disconnect (s : State η α χ) (id : ℕ) (ok : Bool) : State η α χ :=
  if (s.connected.any fun p => p.1 == id) && (s.active == 0 || ok) then
    let rest := s.connected.eraseP fun p => p.1 == id
    { s with
      handlers := if rest.isEmpty then s.handlers.clear else s.handlers.put rest (s.active == 0) }
  else s

/-- `snapshot`: the list, if there is one, and the parked waiters. -/
@[simp] def snapshot (s : State η α χ) (k : ℕ) (m : Mode) (args : α) : State η α χ :=
  { s with
    active := if s.handlers.cur.isSome then s.active + 1 else s.active
    pending := []
    nexts := fun j => if j ∈ s.pending then { s.nexts j with queued := false } else s.nexts j
    emits := update s.emits k (.waking m args s.handlers.cur s.pending) }

/-- One round of the loop in `await_suspend`. -/
def park (s : State η α χ) (j : ℕ) (core : Option Bool) (armed : Bool) : State η α χ :=
  let n := s.nexts j
  if n.earlyCancel then s.putNext j { n with pc := .resuming, cancelled := true }
  else if s.dead then s.putNext j { n with pc := .resuming, gone := true }
  else if core = none ∨ armed then
    { s.putNext j { n with pc := .parked, queued := true } with pending := s.pending ++ [j] }
  else if core = some true then s.putNext j { n with pc := .resuming, cancelled := true }
  -- the lock is released to arm the callback, so there is a second look
  else s.putNext j { n with pc := .arming, bound := true }

/-- `unlinkLocked` -/
@[simp] def unlinkLocked (s : State η α χ) (j : ℕ) (n : Next α) : State η α χ :=
  { s.putNext j { n with queued := false } with pending := s.pending.erase j }

/-- `cancelThunk` up to the end of its locked section. -/
def cancelThunk (s : State η α χ) (j : ℕ) : State η α χ :=
  let n := s.nexts j
  if n.queued then s.unlinkLocked j { n with cancelled := true, took := true }
  else s.putNext j { n with earlyCancel := true }

/-- `~NextAwaiter` of a parked frame. The load before the lock and the one under it make one step:
once the flag is cleared it stays so. -/
def destroyNext (s : State η α χ) (j : ℕ) : State η α χ :=
  let n := s.nexts j
  if n.queued then s.unlinkLocked j { n with pc := .destroyed }
  else s.putNext j { n with pc := .destroyed }

/-- The locked section of `~Signal`. -/
def destroySignal (s : State η α χ) : State η α χ :=
  { s with
    orphans := s.pending
    pending := []
    nexts := fun j =>
      if j ∈ s.pending then { s.nexts j with queued := false, gone := true } else s.nexts j
    dead := true
    handlers := s.handlers.clear }

/-- `wake` for one waiter. -/
def hand (s : State η α χ) (j : ℕ) (args : Option α) : State η α χ :=
  match args with
  | some a => { s.putNext j { s.nexts j with value := some a } with pool := s.pool ++ [j] }
  | none => { s.putNext j { s.nexts j with gone := true } with pool := s.pool ++ [j] }

end State

/-- `await_resume` -/
def Next.awaitResume (n : Next α) : Option α :=
  if n.cancelled || n.gone then none else n.value

def step (s : State η α χ) : Event η α χ → Option (State η α χ)
  | .connect h ok => some (s.connect h ok)
  | .disconnect id ok => some (s.disconnect id ok)
  | .emit k m args =>
    match s.emits k with
    | .idle => some (s.snapshot k m args)
    | _ => none
  | .wake k ok =>
    match s.emits k with
    | .waking m args list (j :: waiters) =>
      some ((s.hand j (if ok then some args else none)).putEmit k (.waking m args list waiters))
    | _ => none
  | .enter k =>
    match s.emits k with
    | .waking _ _ none [] => some (s.putEmit k (.finished none))
    | .waking m args (some a) [] => some (s.putEmit k (.calling m args a 0 none))
    | _ => none
  | .invoke k refused =>
    match s.emits k with
    | .calling m args a i first =>
      match (s.handlers.cells a)[i]? with
      | none => some (s.putEmit k (.releasing first))
      | some (id, h) =>
        if m = .emitAsync ∧ refused = false then
          some { s.putEmit k (.calling m args a (i + 1) first) with
            tasks := s.tasks ++ [⟨k, id, h, args⟩] }
        else some (s.putEmit k (.running m args a i first))
    | _ => none
  | .returned k thrown =>
    match s.emits k with
    | .running .emit args a i first =>
      some (s.putEmit k (.calling .emit args a (i + 1) (first <|> thrown)))
    -- the exception goes to `reportDetachedException`
    | .running .emitAsync args a i first =>
      some (s.putEmit k (.calling .emitAsync args a (i + 1) first))
    | _ => none
  | .release k =>
    match s.emits k with
    | .releasing first => some { s.putEmit k (.finished first) with active := s.active - 1 }
    | _ => none
  | .runTask i => if i < s.tasks.length then some { s with tasks := s.tasks.eraseIdx i } else none
  | .next j core =>
    match (s.nexts j).pc with
    | .idle => some (s.park j core false)
    | _ => none
  | .retry j =>
    match (s.nexts j).pc with
    | .arming => some (s.park j (some false) true)
    | _ => none
  | .cancel j =>
    match (s.nexts j).pc with
    | .arming | .parked | .resuming => if (s.nexts j).bound then some (s.cancelThunk j) else none
    | _ => none
  | .post j =>
    if (s.nexts j).took then
      some { s.putNext j { s.nexts j with took := false } with pool := s.pool ++ [j] }
    else none
  | .run j =>
    if j ∈ s.pool then
      match (s.nexts j).pc with
      -- the proxy is killed
      | .destroyed => some { s with pool := s.pool.erase j }
      | _ => some { s.putNext j { s.nexts j with pc := .resuming } with pool := s.pool.erase j }
    else none
  | .resume j =>
    match (s.nexts j).pc with
    | .resuming => some (s.putNext j { s.nexts j with pc := .completed (s.nexts j).awaitResume })
    | _ => none
  | .destroy j =>
    match (s.nexts j).pc with
    -- `disarm` waits for a callback that is running
    | .parked => if (s.nexts j).took then none else some (s.destroyNext j)
    | _ => none
  | .destroySignal => if s.dead then none else some s.destroySignal
  | .orphan =>
    match s.orphans with
    | j :: rest => some { s with orphans := rest, pool := s.pool ++ [j] }
    | [] => none

/-! ### What a step can do -/

/-- The changes a step can make. -/
inductive Change (s : State η α χ) : Event η α χ → State η α χ → Prop
  | connect {h : η} {ok : Bool} : Change s (.connect h ok) (s.connect h ok)
  | disconnect {id : ℕ} {ok : Bool} : Change s (.disconnect id ok) (s.disconnect id ok)
  | emit {k : ℕ} {m : Mode} {args : α} (hk : s.emits k = .idle) :
      Change s (.emit k m args) (s.snapshot k m args)
  | wake {k : ℕ} {m : Mode} {args : α} {list : Option ℕ} {j : ℕ} {waiters : List ℕ} {ok : Bool}
      (hk : s.emits k = .waking m args list (j :: waiters)) :
      Change s (.wake k ok)
        ((s.hand j (if ok then some args else none)).putEmit k (.waking m args list waiters))
  | enterNone {k : ℕ} {m : Mode} {args : α} (hk : s.emits k = .waking m args none []) :
      Change s (.enter k) (s.putEmit k (.finished none))
  | enter {k : ℕ} {m : Mode} {args : α} {a : ℕ} (hk : s.emits k = .waking m args (some a) []) :
      Change s (.enter k) (s.putEmit k (.calling m args a 0 none))
  | invokeEnd {k : ℕ} {m : Mode} {args : α} {a i : ℕ} {first : Option χ} {refused : Bool}
      (hk : s.emits k = .calling m args a i first) (hi : (s.handlers.cells a)[i]? = none) :
      Change s (.invoke k refused) (s.putEmit k (.releasing first))
  | dispatch {k : ℕ} {args : α} {a i : ℕ} {first : Option χ} {id : ℕ} {h : η}
      (hk : s.emits k = .calling .emitAsync args a i first)
      (hi : (s.handlers.cells a)[i]? = some (id, h)) :
      Change s (.invoke k false)
        { s.putEmit k (.calling .emitAsync args a (i + 1) first) with
          tasks := s.tasks ++ [⟨k, id, h, args⟩] }
  | call {k : ℕ} {m : Mode} {args : α} {a i : ℕ} {first : Option χ} {id : ℕ} {h : η}
      {refused : Bool} (hk : s.emits k = .calling m args a i first)
      (hi : (s.handlers.cells a)[i]? = some (id, h)) (hm : ¬ (m = .emitAsync ∧ refused = false)) :
      Change s (.invoke k refused) (s.putEmit k (.running m args a i first))
  | returned {k : ℕ} {args : α} {a i : ℕ} {first thrown : Option χ}
      (hk : s.emits k = .running .emit args a i first) :
      Change s (.returned k thrown)
        (s.putEmit k (.calling .emit args a (i + 1) (first <|> thrown)))
  | returnedAsync {k : ℕ} {args : α} {a i : ℕ} {first thrown : Option χ}
      (hk : s.emits k = .running .emitAsync args a i first) :
      Change s (.returned k thrown) (s.putEmit k (.calling .emitAsync args a (i + 1) first))
  | release {k : ℕ} {first : Option χ} (hk : s.emits k = .releasing first) :
      Change s (.release k) { s.putEmit k (.finished first) with active := s.active - 1 }
  | runTask {i : ℕ} (hi : i < s.tasks.length) :
      Change s (.runTask i) { s with tasks := s.tasks.eraseIdx i }
  | next {j : ℕ} {core : Option Bool} (hj : (s.nexts j).pc = .idle) :
      Change s (.next j core) (s.park j core false)
  | retry {j : ℕ} (hj : (s.nexts j).pc = .arming) :
      Change s (.retry j) (s.park j (some false) true)
  | cancel {j : ℕ} (hb : (s.nexts j).bound = true) : Change s (.cancel j) (s.cancelThunk j)
  | post {j : ℕ} (ht : (s.nexts j).took = true) :
      Change s (.post j)
        { s.putNext j { s.nexts j with took := false } with pool := s.pool ++ [j] }
  | runKilled {j : ℕ} (hm : j ∈ s.pool) (hj : (s.nexts j).pc = .destroyed) :
      Change s (.run j) { s with pool := s.pool.erase j }
  | run {j : ℕ} (hm : j ∈ s.pool) (hj : (s.nexts j).pc ≠ .destroyed) :
      Change s (.run j)
        { s.putNext j { s.nexts j with pc := .resuming } with pool := s.pool.erase j }
  | resume {j : ℕ} (hj : (s.nexts j).pc = .resuming) :
      Change s (.resume j)
        (s.putNext j { s.nexts j with pc := .completed (s.nexts j).awaitResume })
  | destroy {j : ℕ} (hj : (s.nexts j).pc = .parked) (ht : (s.nexts j).took = false) :
      Change s (.destroy j) (s.destroyNext j)
  | destroySignal (hd : s.dead = false) : Change s .destroySignal s.destroySignal
  | orphan {j : ℕ} {rest : List ℕ} (ho : s.orphans = j :: rest) :
      Change s .orphan { s with orphans := rest, pool := s.pool ++ [j] }

theorem change_of_step {s t : State η α χ} {e : Event η α χ} (h : step s e = some t) :
    Change s e t := by
  cases e with (simp only [step] at h; repeat' first | cases h | split at h)
  | invoke =>
    first
    | exact .invokeEnd ‹_› ‹_›
    | exact .call ‹_› ‹_› ‹_›
    | rename_i hm
      obtain ⟨rfl, rfl⟩ := hm
      exact .dispatch ‹_› ‹_›
  | _ => constructor <;> first | assumption | simp_all

end Manwe.Signal
