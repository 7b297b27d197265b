import Manwe.Transition.Run

/-!
# The latch word of a join handle

A runner awaits the spawned task, stores its outcome in the shared state and exchanges the word for
`ready`. A joiner that is not served at once allocates a **proxy**, arms its cancel callback and
tries to put the proxy's address into the word by a compare-and-swap from `0`. The address leaves
the word again in one of four ways, each decided by one atomic step:

* the runner's exchange, which then resumes the proxy on the pool;
* the cancel callback, which marks the join cancelled and resumes the proxy on the pool;
* `await_suspend` itself, when after parking it finds the callback's latch set: it marks the join
  cancelled, frees the proxy and resumes its own coroutine;
* the awaiter's destructor.

The word is compared by **address**. A proxy lives until its two references are released, or until
its awaiter frees it, and from then on the allocator may hand its address to another proxy. The
thread that parked a joiner keeps the address in a local, and may still be about to look at the
latch when the join it was parking has long ended. So addresses, and the map from an address to the
proxy that lives there, are part of the state.

Joins are made one at a time: the next one begins when the awaiter of the one before is destroyed.
-/

namespace Manwe.JoinHandle

open Function

variable {α χ : Type*}

/-- The latch word. -/
inductive Word
  | zero
  /-- `kJoinReadyBit` -/
  | ready
  /-- the address of a parked joiner's proxy -/
  | proxy (a : ℕ)
  deriving DecidableEq

/-- The proxy's `state`. -/
inductive ProxyState
  | parked
  | resumed
  /-- its awaiter was destroyed first -/
  | killed
  deriving DecidableEq

/-- Where the thread stands that executes `await_suspend`. -/
inductive SuspendPc
  | idle
  /-- it looks whether the chain is cancelled already -/
  | starting
  | publishing
  | arming
  /-- before the compare-and-swap that parks -/
  | parking
  /-- parked: the callback's latch is looked at next -/
  | checking
  /-- the latch was set: before the compare-and-swap that takes the proxy back -/
  | unparking
  /-- it took the proxy back -/
  | unparked
  /-- the result was there: before `disarm` -/
  | failing
  | reclaiming
  | returned
  deriving DecidableEq

/-- The thread has published a proxy and still executes `await_suspend`. -/
@[simp] def SuspendPc.running : SuspendPc → Bool
  | .idle | .starting | .publishing | .returned => false
  | _ => true

/-- Where the joining coroutine stands. From `disarming` on its awaiter is being destroyed, `early`
if that was while it was parked. -/
inductive BodyPc
  | absent
  | looking
  | suspending
  | parked
  /-- before `await_resume` -/
  | resumed
  | disarming (early : Bool)
  | unlatching (early : Bool)
  | retiring (early removed : Bool)
  | gone
  deriving DecidableEq

/-- The coroutine's frame is being destroyed while parked. -/
def BodyPc.dying : BodyPc → Bool
  | .disarming true | .unlatching true | .retiring true _ => true
  | _ => false

/-- One join: the awaiter, its proxy, the callbacks in progress and the thread in
`await_suspend`. -/
structure Join where
  /-- the joining coroutine is a `Task`, so it has a cancellation context -/
  core : Bool := false
  /-- cancellation of that context was requested -/
  requested : Bool := false
  cancelled : Bool := false
  armed : Bool := false
  /-- the latch that is set before the callback runs -/
  watch : Bool := false
  /-- callbacks that have set the latch and not yet tried the word -/
  firing : ℕ := 0
  /-- callbacks that took the proxy out of the word and have not resumed it yet -/
  took : ℕ := 0
  /-- the awaiter holds its proxy -/
  proxy : Bool := false
  /-- the proxy's address -/
  addr : ℕ := 0
  state : ProxyState := .parked
  /-- the proxy's references, none when it does not exist -/
  refs : ℕ := 0
  suspend : SuspendPc := .idle
  body : BodyPc := .absent

inductive RunnerPc
  | working
  | publishing
  /-- it took the address out of the word -/
  | waking (a : ℕ)
  | ended
  deriving DecidableEq

structure State (α : Type*) (χ : Type*) where
  word : Word := .zero
  outcome : Option (Except χ α) := none
  runner : RunnerPc := .working
  joins : ℕ → Join := fun _ => {}
  /-- the join made last -/
  cur : ℕ := 0
  /-- the join whose proxy lives at an address -/
  home : ℕ → Option ℕ := fun _ => none
  /-- addresses posted to the pool, to be resumed -/
  pool : List ℕ := []

inductive Event (α : Type*) (χ : Type*)
  | join (core : Bool)
  | awaitReady (j : ℕ)
  | check (j : ℕ)
  /-- the proxy of join `j` is allocated at `a` -/
  | publish (j a : ℕ)
  | arm (j : ℕ)
  | park (j : ℕ)
  | look (j : ℕ)
  | unpark (j : ℕ)
  | settle (j : ℕ)
  | disarmFailed (j : ℕ)
  | reclaim (j : ℕ)
  | awaitResume (j : ℕ)
  /-- the frame of a parked joiner is destroyed -/
  | destroy (j : ℕ)
  | disarm (j : ℕ)
  | unlatch (j : ℕ)
  | retire (j : ℕ)
  | request (j : ℕ)
  /-- a cancel callback of join `j` starts and sets the latch -/
  | fire (j : ℕ)
  | onCancel (j : ℕ)
  | post (j : ℕ)
  /-- the task ends and its outcome is stored -/
  | finish (o : Except χ α)
  | publishReady
  | wake
  /-- the pool resumes the proxy at `a` -/
  | run (a : ℕ)

namespace Join

/-- `WaitProxy::reclaim`: the awaiter frees the proxy it holds. -/
def reclaim (jn : Join) : Join := if jn.proxy then { jn with proxy := false, refs := 0 } else jn

/-- A reference on the proxy is released. -/
def release (jn : Join) : Join := { jn with refs := jn.refs - 1 }

/-- `WaitProxy::kill`. -/
@[simp] def kill (jn : Join) : Join :=
  { jn with state := if jn.state = .parked then .killed else jn.state }

/-- The proxy runs: its target is resumed unless the awaiter was destroyed first. -/
def resume (jn : Join) : Join :=
  { jn with state := .resumed, body := if jn.state = .killed then jn.body else .resumed }

end Join

namespace State

@[simp] def put (s : State α χ) (j : ℕ) (jn : Join) : State α χ :=
  { s with joins := update s.joins j jn }

/-- The proxy at `a` is destroyed. -/
@[simp] def free (s : State α χ) (a : ℕ) : State α χ := { s with home := update s.home a none }

/-- The record of join `j` becomes `jn`, whose awaiter frees its proxy. -/
def reclaim (s : State α χ) (j : ℕ) (jn : Join) : State α χ :=
  if jn.proxy then (s.put j jn.reclaim).free jn.addr else s.put j jn.reclaim

/-- The record of join `j` becomes `jn`, and a reference on its proxy is released; with the last one
the proxy is destroyed. -/
def release (s : State α χ) (j : ℕ) (jn : Join) : State α χ :=
  if jn.refs = 1 then (s.put j jn.release).free jn.addr else s.put j jn.release

end State

/-- The pool resumes the handle with address `a`. With no proxy there it resumes freed memory, which
the model lets pass as a step that does nothing else. A frame is destroyed only while it is parked:
no resume reaches it between the beginning of its destruction and the moment its proxy is
retired. -/
def State.run (s : State α χ) (a : ℕ) : Option (State α χ) := if a ∈ s.pool then
    match s.home a with
    | none => some { s with pool := s.pool.erase a }
    | some j =>
      if (s.joins j).body.dying then none
      else some ({ s with pool := s.pool.erase a }.release j (s.joins j).resume)
  else none

/-- **One step** of a handle with its runner, its joins, their callbacks and the pool. -/
def step (s : State α χ) : Event α χ → Option (State α χ)
  | .join core =>
    match (s.joins s.cur).body with
    | .absent => some (s.put s.cur { s.joins s.cur with core := core, body := .looking })
    | .gone =>
      some ({ s with cur := s.cur + 1 }.put (s.cur + 1)
        { s.joins (s.cur + 1) with core := core, body := .looking })
    | _ => none
  | .awaitReady j =>
    match (s.joins j).body with
    | .looking =>
      if s.word = .ready then some (s.put j { s.joins j with body := .resumed })
      else some (s.put j { s.joins j with suspend := .starting, body := .suspending })
    | _ => none
  -- the steps of `await_suspend`
  | .check j =>
    match (s.joins j).suspend with
    | .starting =>
      if (s.joins j).core && (s.joins j).requested then
        some (s.put j { s.joins j with cancelled := true, suspend := .returned, body := .resumed })
      else some (s.put j { s.joins j with suspend := .publishing })
    | _ => none
  | .publish j a =>
    match (s.joins j).suspend with
    | .publishing =>
      if s.home a = none then
        some { s.put j { s.joins j with
            proxy := true, addr := a, state := .parked, refs := 2, suspend := .arming } with
          home := update s.home a (some j) }
      else none
    | _ => none
  | .arm j =>
    match (s.joins j).suspend with
    | .arming => some (s.put j { s.joins j with armed := (s.joins j).core, suspend := .parking })
    | _ => none
  | .park j =>
    match (s.joins j).suspend with
    | .parking =>
      if s.word = .zero then
        some { s.put j { s.joins j with suspend := .checking, body := .parked } with
          word := .proxy (s.joins j).addr }
      else some (s.put j { s.joins j with suspend := .failing })
    | _ => none
  | .look j =>
    match (s.joins j).suspend with
    | .checking =>
      if (s.joins j).watch then some (s.put j { s.joins j with suspend := .unparking })
      else some (s.put j { s.joins j with suspend := .returned })
    | _ => none
  | .unpark j =>
    match (s.joins j).suspend with
    | .unparking =>
      if s.word = .proxy (s.joins j).addr then
        some { s.put j { s.joins j with suspend := .unparked } with word := .zero }
      else some (s.put j { s.joins j with suspend := .returned })
    | _ => none
  | .settle j =>
    match (s.joins j).suspend with
    | .unparked =>
      some (s.reclaim j
        { s.joins j with cancelled := true, suspend := .returned, body := .resumed })
    | _ => none
  | .disarmFailed j =>
    match (s.joins j).suspend with
    | .failing =>
      -- `disarm` waits for the callbacks that run
      if (s.joins j).firing = 0 ∧ (s.joins j).took = 0 then
        some (s.put j { s.joins j with armed := false, suspend := .reclaiming })
      else none
    | _ => none
  | .reclaim j =>
    match (s.joins j).suspend with
    | .reclaiming => some (s.reclaim j { s.joins j with suspend := .returned, body := .resumed })
    | _ => none
  -- the coroutine goes on, or is destroyed, and then the awaiter's destructor runs
  | .awaitResume j =>
    match (s.joins j).body with
    | .resumed => some (s.put j { s.joins j with body := .disarming false })
    | _ => none
  | .destroy j =>
    match (s.joins j).body with
    | .parked => some (s.put j { s.joins j with body := .disarming true })
    | _ => none
  | .disarm j =>
    match (s.joins j).body with
    | .disarming early =>
      if (s.joins j).firing = 0 ∧ (s.joins j).took = 0 then
        if (s.joins j).proxy then
          some (s.put j { s.joins j with armed := false, body := .unlatching early })
        else some (s.put j { s.joins j with armed := false, body := .gone })
      else none
    | _ => none
  | .unlatch j =>
    match (s.joins j).body with
    | .unlatching early =>
      if s.word = .proxy (s.joins j).addr then
        some { s.put j { s.joins j with body := .retiring early true } with word := .zero }
      else some (s.put j { s.joins j with body := .retiring early false })
    | _ => none
  | .retire j =>
    match (s.joins j).body with
    | .retiring _ true => some (s.reclaim j { s.joins j with body := .gone })
    | .retiring _ false =>
      some (s.release j { (s.joins j).kill with proxy := false, body := .gone })
    | _ => none
  -- cancellation; `encoded` is the proxy's address whenever a callback can run
  | .request j => some (s.put j { s.joins j with requested := true })
  | .fire j =>
    if (s.joins j).armed && (s.joins j).requested then
      some (s.put j { s.joins j with watch := true, firing := (s.joins j).firing + 1 })
    else none
  | .onCancel j =>
    if (s.joins j).firing = 0 then none
    else if s.word = .proxy (s.joins j).addr then
      some { s.put j { s.joins j with
          firing := (s.joins j).firing - 1, took := (s.joins j).took + 1 } with word := .zero }
    else some (s.put j { s.joins j with firing := (s.joins j).firing - 1 })
  | .post j =>
    if (s.joins j).took = 0 then none
    else some { s.put j { s.joins j with took := (s.joins j).took - 1, cancelled := true } with
      pool := (s.joins j).addr :: s.pool }
  -- `joinRunner` and `publishJoinReady`
  | .finish o =>
    match s.runner with
    | .working => some { s with outcome := some o, runner := .publishing }
    | _ => none
  | .publishReady =>
    match s.runner with
    | .publishing =>
      match s.word with
      | .proxy a => some { s with word := .ready, runner := .waking a }
      | _ => some { s with word := .ready, runner := .ended }
    | _ => none
  | .wake =>
    match s.runner with
    | .waking a => some { s with pool := a :: s.pool, runner := .ended }
    | _ => none
  | .run a => s.run a

/-! ### What a step can do -/

/-- The changes a step can make, one for each way an atomic step can go. -/
inductive Change (s : State α χ) : Event α χ → State α χ → Prop
  | joinFirst {core : Bool} (hb : (s.joins s.cur).body = .absent) :
      Change s (.join core) (s.put s.cur { s.joins s.cur with core := core, body := .looking })
  | joinNext {core : Bool} (hb : (s.joins s.cur).body = .gone) :
      Change s (.join core) ({ s with cur := s.cur + 1 }.put (s.cur + 1)
        { s.joins (s.cur + 1) with core := core, body := .looking })
  | ready {j : ℕ} (hb : (s.joins j).body = .looking) (hw : s.word = .ready) :
      Change s (.awaitReady j) (s.put j { s.joins j with body := .resumed })
  | notReady {j : ℕ} (hb : (s.joins j).body = .looking) : Change s (.awaitReady j)
        (s.put j { s.joins j with suspend := .starting, body := .suspending })
  | checkCancelled {j : ℕ} (hs : (s.joins j).suspend = .starting)
      (hr : (s.joins j).requested = true) :
      Change s (.check j)
        (s.put j { s.joins j with cancelled := true, suspend := .returned, body := .resumed })
  | check {j : ℕ} (hs : (s.joins j).suspend = .starting) :
      Change s (.check j) (s.put j { s.joins j with suspend := .publishing })
  | publish {j a : ℕ} (hs : (s.joins j).suspend = .publishing) (ha : s.home a = none) :
      Change s (.publish j a) { s.put j { s.joins j with
            proxy := true, addr := a, state := .parked, refs := 2, suspend := .arming } with
          home := update s.home a (some j) }
  | arm {j : ℕ} (hs : (s.joins j).suspend = .arming) : Change s (.arm j)
        (s.put j { s.joins j with armed := (s.joins j).core, suspend := .parking })
  | park {j : ℕ} (hs : (s.joins j).suspend = .parking) (hw : s.word = .zero) : Change s (.park j)
        { s.put j { s.joins j with suspend := .checking, body := .parked } with
          word := .proxy (s.joins j).addr }
  | parkFail {j : ℕ} (hs : (s.joins j).suspend = .parking) (hw : s.word ≠ .zero) :
      Change s (.park j) (s.put j { s.joins j with suspend := .failing })
  | lookSet {j : ℕ} (hs : (s.joins j).suspend = .checking) (hw : (s.joins j).watch = true) :
      Change s (.look j) (s.put j { s.joins j with suspend := .unparking })
  | look {j : ℕ} (hs : (s.joins j).suspend = .checking) (hw : (s.joins j).watch = false) :
      Change s (.look j) (s.put j { s.joins j with suspend := .returned })
  | unpark {j : ℕ} (hs : (s.joins j).suspend = .unparking) (hw : s.word = .proxy (s.joins j).addr) :
      Change s (.unpark j) { s.put j { s.joins j with suspend := .unparked } with word := .zero }
  | unparkFail {j : ℕ} (hs : (s.joins j).suspend = .unparking)
      (hw : s.word ≠ .proxy (s.joins j).addr) :
      Change s (.unpark j) (s.put j { s.joins j with suspend := .returned })
  | settle {j : ℕ} (hs : (s.joins j).suspend = .unparked) : Change s (.settle j)
        (s.reclaim j { s.joins j with cancelled := true, suspend := .returned, body := .resumed })
  | disarmFailed {j : ℕ} (hs : (s.joins j).suspend = .failing)
      (hq : (s.joins j).firing = 0 ∧ (s.joins j).took = 0) :
      Change s (.disarmFailed j) (s.put j { s.joins j with armed := false, suspend := .reclaiming })
  | reclaim {j : ℕ} (hs : (s.joins j).suspend = .reclaiming) : Change s (.reclaim j)
        (s.reclaim j { s.joins j with suspend := .returned, body := .resumed })
  | awaitResume {j : ℕ} (hb : (s.joins j).body = .resumed) :
      Change s (.awaitResume j) (s.put j { s.joins j with body := .disarming false })
  | destroy {j : ℕ} (hb : (s.joins j).body = .parked) :
      Change s (.destroy j) (s.put j { s.joins j with body := .disarming true })
  | disarm {j : ℕ} {early : Bool} (hb : (s.joins j).body = .disarming early)
      (hq : (s.joins j).firing = 0 ∧ (s.joins j).took = 0) (hp : (s.joins j).proxy = true) :
      Change s (.disarm j) (s.put j { s.joins j with armed := false, body := .unlatching early })
  | disarmBare {j : ℕ} {early : Bool} (hb : (s.joins j).body = .disarming early)
      (hq : (s.joins j).firing = 0 ∧ (s.joins j).took = 0) (hp : (s.joins j).proxy = false) :
      Change s (.disarm j) (s.put j { s.joins j with armed := false, body := .gone })
  | unlatch {j : ℕ} {early : Bool} (hb : (s.joins j).body = .unlatching early)
      (hw : s.word = .proxy (s.joins j).addr) :
      Change s (.unlatch j)
        { s.put j { s.joins j with body := .retiring early true } with word := .zero }
  | unlatchFail {j : ℕ} {early : Bool} (hb : (s.joins j).body = .unlatching early)
      (hw : s.word ≠ .proxy (s.joins j).addr) :
      Change s (.unlatch j) (s.put j { s.joins j with body := .retiring early false })
  | retire {j : ℕ} {early : Bool} (hb : (s.joins j).body = .retiring early true) :
      Change s (.retire j) (s.reclaim j { s.joins j with body := .gone })
  | retireKill {j : ℕ} {early : Bool} (hb : (s.joins j).body = .retiring early false) :
      Change s (.retire j) (s.release j { (s.joins j).kill with proxy := false, body := .gone })
  | request {j : ℕ} : Change s (.request j) (s.put j { s.joins j with requested := true })
  | fire {j : ℕ} (ha : (s.joins j).armed = true) (hr : (s.joins j).requested = true) :
      Change s (.fire j)
        (s.put j { s.joins j with watch := true, firing := (s.joins j).firing + 1 })
  | onCancel {j : ℕ} (hf : (s.joins j).firing ≠ 0) (hw : s.word = .proxy (s.joins j).addr) :
      Change s (.onCancel j) { s.put j { s.joins j with
            firing := (s.joins j).firing - 1, took := (s.joins j).took + 1 } with word := .zero }
  | onCancelFail {j : ℕ} (hf : (s.joins j).firing ≠ 0) (hw : s.word ≠ .proxy (s.joins j).addr) :
      Change s (.onCancel j) (s.put j { s.joins j with firing := (s.joins j).firing - 1 })
  | post {j : ℕ} (ht : (s.joins j).took ≠ 0) : Change s (.post j)
        { s.put j { s.joins j with took := (s.joins j).took - 1, cancelled := true } with
          pool := (s.joins j).addr :: s.pool }
  | finish {o : Except χ α} (hr : s.runner = .working) :
      Change s (.finish o) { s with outcome := some o, runner := .publishing }
  | publishWaking {a : ℕ} (hr : s.runner = .publishing) (hw : s.word = .proxy a) :
      Change s .publishReady { s with word := .ready, runner := .waking a }
  | publishReady (hr : s.runner = .publishing) (hw : ∀ a, s.word ≠ .proxy a) :
      Change s .publishReady { s with word := .ready, runner := .ended }
  | wake {a : ℕ} (hr : s.runner = .waking a) :
      Change s .wake { s with pool := a :: s.pool, runner := .ended }
  | runFreed {a : ℕ} (ha : a ∈ s.pool) (hh : s.home a = none) :
      Change s (.run a) { s with pool := s.pool.erase a }
  | run {a j : ℕ} (ha : a ∈ s.pool) (hh : s.home a = some j) (hd : (s.joins j).body.dying = false) :
      Change s (.run a) ({ s with pool := s.pool.erase a }.release j (s.joins j).resume)

theorem change_of_step {s t : State α χ} {e : Event α χ} (h : step s e = some t) :
    Change s e t := by
  cases e with (simp only [step, State.run] at h; repeat' first | cases h | split at h)
  | _ => constructor <;> first | assumption | simp_all

end Manwe.JoinHandle
