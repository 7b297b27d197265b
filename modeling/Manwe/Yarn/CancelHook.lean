import Manwe.Transition.Forest
import Manwe.Transition.Run

/-!
# Chain cancellation

`Task::requestCancel` on a task has to wake every await parked at or below it. An await registers a
**hook** with the root of its `co_await` chain; a request sets the flag of its task, takes the hooks
at or below the task out of the root's list, and runs their callbacks. Three handshakes keep the
parties apart:

* **flag and list.** A requester stores the flag before it scans the list, an armer links its hook
  before it reads the flags from its leaf up to the root. So one of the two sees the other, and a
  hook that was linked too late for the scan has its callback run by the armer itself.
* **firing.** A hook taken out is marked `firing` with the thread that took it. A disarm that finds
  it so waits for the end of the callback, unless it is that thread itself, called from inside a
  callback: then it marks the slot the requester keeps for the hook, and the requester does not
  touch the hook any more.
* **pins.** A requester pins its task, and walks the chain only if the task is not finishing; a task
  that has reached its final suspend sets `finishing` and waits until nobody pins it.

Requesters, hooks, tasks and threads are unbounded in number, and a thread may be inside any number
of calls at once, as it is when a callback resumes a coroutine that requests another cancellation.
-/

namespace Manwe.CancelHook

open Function

variable {τ ι ρ θ : Type*}

/-- Where `armCancelHook` stands, with the thread that called it. -/
inductive ArmPc (τ : Type*) (θ : Type*)
  | idle
  | linking (t : θ)
  /-- `isCancellationRequested`: the tasks whose flags are still to be read -/
  | walking (t : θ) (rest : List τ)
  /-- the callback runs inline -/
  | inline (t : θ)
  | returned

/-- Where `disarmCancelHook` stands, with the thread that called it. -/
inductive DisarmPc (τ : Type*) (θ : Type*)
  | idle
  /-- it has seen the hook linked under this root: before the lock -/
  | locking (t : θ) (root : τ)
  /-- before the load of `firing` -/
  | checking (t : θ)
  /-- it waits for the callback on another thread -/
  | spinning (t : θ)
  | returned (t : θ)

/-- A hook, with the calls of its owner. `abandoned` points to the slot that a requester keeps for
the hook. -/
structure Hook (τ : Type*) (ρ : Type*) (θ : Type*) where
  leaf : Option τ := none
  root : Option τ := none
  firing : Bool := false
  firer : Option θ := none
  abandoned : Option ρ := none
  arm : ArmPc τ θ := .idle
  disarm : DisarmPc τ θ := .idle

/-- Where `requestChainCancel` stands: the thread that called it, the task it is for and, once the
list was scanned, the hooks it has taken. -/
inductive RequestPc (τ : Type*) (ι : Type*) (θ : Type*)
  | idle
  /-- the flag is stored -/
  | flagged (t : θ) (task : τ)
  | pinned (t : θ) (task : τ)
  /-- the task is not finishing: `takeChainHooks` walks its chain -/
  | walking (t : θ) (task : τ)
  | unpinning (t : θ) (task : τ) (taken : List ι)
  /-- `runTakenHooks`: hooks without a slot yet, the slots with their marks, and whether the
  callback of the first slot runs -/
  | firing (t : θ) (task : τ) (taken : List ι) (slots : List (ι × Bool)) (running : Bool)

structure State (τ : Type*) (ι : Type*) (ρ : Type*) (θ : Type*) where
  cancelled : τ → Bool := fun _ => false
  finishing : τ → Bool := fun _ => false
  /-- the task is past the handshake of its final suspend -/
  passed : τ → Bool := fun _ => false
  pins : τ → ℕ := fun _ => 0
  /-- the hooks linked under a root -/
  registry : τ → List ι := fun _ => []
  hooks : ι → Hook τ ρ θ := fun _ => {}
  requests : ρ → RequestPc τ ι θ := fun _ => .idle

inductive Event (τ : Type*) (ι : Type*) (ρ : Type*) (θ : Type*)
  | arm (h : ι) (t : θ) (leaf : τ)
  | link (h : ι)
  /-- the armer reads the flag of the next task, and whether its scope is stopped -/
  | read (h : ι) (stopped : Bool)
  /-- the inline callback ends -/
  | armed (h : ι)
  | disarm (h : ι) (t : θ)
  | unlink (h : ι)
  | check (h : ι)
  | spin (h : ι)
  | request (r : ρ) (t : θ) (task : τ)
  | pin (r : ρ)
  | load (r : ρ)
  | take (r : ρ)
  | unpin (r : ρ)
  /-- slots for the taken hooks; the allocation of more than sixteen may fail -/
  | aim (r : ρ) (fails : Bool)
  | fire (r : ρ)
  /-- the callback ends -/
  | fired (r : ρ)
  | finish (task : τ)
  | pass (task : τ)

/-- `kInline` -/
def inlineSlots : ℕ := 16

/-- A same-thread disarm marks the slot of `h`. -/
def RequestPc.mark [DecidableEq ι] (h : ι) : RequestPc τ ι θ → RequestPc τ ι θ
  | .firing t task taken slots running =>
    .firing t task taken (slots.map fun p => if p.1 = h then (h, true) else p) running
  | pc => pc

namespace Hook

/-- `inChainOf`: the task is at or above the hook's leaf. -/
def under [DecidableEq τ] (F : Forest τ) (task : τ) (k : Hook τ ρ θ) : Bool := match k.leaf with
  | none => false
  | some l => decide (task ∈ F.chain l)

/-- What `takeChainHooks` does to a hook that it takes. -/
def take (t : θ) (k : Hook τ ρ θ) : Hook τ ρ θ :=
  { k with firer := some t, abandoned := none, firing := true, root := none }

end Hook

namespace State

variable [DecidableEq τ] [DecidableEq ι] [DecidableEq ρ]

@[simp] def putHook (s : State τ ι ρ θ) (h : ι) (k : Hook τ ρ θ) : State τ ι ρ θ :=
  { s with hooks := update s.hooks h k }

@[simp] def putRequest (s : State τ ι ρ θ) (r : ρ) (pc : RequestPc τ ι θ) : State τ ι ρ θ :=
  { s with requests := update s.requests r pc }

/-- The hooks at or below `task`, in the order in which `takeChainHooks` returns them. -/
def taken (F : Forest τ) (s : State τ ι ρ θ) (task : τ) : List ι :=
  ((s.registry (F.root task)).filter fun h => (s.hooks h).under F task).reverse

/-- The locked section of `takeChainHooks`. -/
@[simp] def takeChainHooks (F : Forest τ) (s : State τ ι ρ θ) (t : θ) (task : τ) : State τ ι ρ θ :=
  { s with
    registry := update s.registry (F.root task)
      ((s.registry (F.root task)).filter fun h => !(s.hooks h).under F task)
    hooks := fun h => if h ∈ s.taken F task then (s.hooks h).take t else s.hooks h }

/-- The slots of requester `r` are aimed at. -/
def aimHooks (s : State τ ι ρ θ) (r : ρ) (l : List ι) : State τ ι ρ θ := { s with
    hooks := fun h => if h ∈ l then { s.hooks h with abandoned := some r } else s.hooks h }

/-- The mark a same-thread disarm leaves. -/
def markSlot (s : State τ ι ρ θ) (h : ι) : State τ ι ρ θ := match (s.hooks h).abandoned with
  | none => s
  | some r => s.putRequest r ((s.requests r).mark h)

end State

variable [DecidableEq τ] [DecidableEq ι] [DecidableEq ρ] [DecidableEq θ]

/-- **One step**: an access to an atomic variable, or a section under the chain's lock. -/
def step (F : Forest τ) (s : State τ ι ρ θ) : Event τ ι ρ θ → Option (State τ ι ρ θ)
  | .arm h t leaf =>
    match (s.hooks h).arm with
    | .idle => some (s.putHook h { s.hooks h with leaf := some leaf, arm := .linking t })
    | _ => none
  | .link h =>
    match (s.hooks h).arm, (s.hooks h).leaf with
    | .linking t, some l =>
      some { s.putHook h { s.hooks h with
          root := some (F.root l), arm := .walking t (F.chain l) } with
        registry := update s.registry (F.root l) (h :: s.registry (F.root l)) }
    | _, _ => none
  | .read h stopped =>
    match (s.hooks h).arm with
    | .walking _ [] => some (s.putHook h { s.hooks h with arm := .returned })
    | .walking t (y :: rest) =>
      if s.cancelled y || stopped then some (s.putHook h { s.hooks h with arm := .inline t })
      else some (s.putHook h { s.hooks h with arm := .walking t rest })
    | _ => none
  | .armed h =>
    match (s.hooks h).arm with
    | .inline _ => some (s.putHook h { s.hooks h with arm := .returned })
    | _ => none
  | .disarm h t =>
    match (s.hooks h).disarm with
    | .idle | .returned _ =>
      match (s.hooks h).root with
      | some q => some (s.putHook h { s.hooks h with disarm := .locking t q })
      | none => some (s.putHook h { s.hooks h with disarm := .checking t })
    | _ => none
  | .unlink h =>
    match (s.hooks h).disarm with
    | .locking t q =>
      if (s.hooks h).root = some q then
        some { s.putHook h { s.hooks h with root := none, disarm := .returned t } with
          registry := update s.registry q ((s.registry q).erase h) }
      else some (s.putHook h { s.hooks h with disarm := .checking t })
    | _ => none
  | .check h =>
    match (s.hooks h).disarm with
    | .checking t =>
      if (s.hooks h).firing then
        if (s.hooks h).firer = some t then
          some ((s.markSlot h).putHook h { s.hooks h with disarm := .returned t })
        else some (s.putHook h { s.hooks h with disarm := .spinning t })
      else some (s.putHook h { s.hooks h with disarm := .returned t })
    | _ => none
  | .spin h =>
    match (s.hooks h).disarm with
    | .spinning t =>
      if (s.hooks h).firing then none
      else some (s.putHook h { s.hooks h with disarm := .returned t })
    | _ => none
  | .request r t task =>
    match s.requests r with
    | .idle =>
      some { s.putRequest r (.flagged t task) with
        cancelled := update s.cancelled task true }
    | _ => none
  | .pin r =>
    match s.requests r with
    | .flagged t task =>
      some { s.putRequest r (.pinned t task) with
        pins := update s.pins task (s.pins task + 1) }
    | _ => none
  | .load r =>
    match s.requests r with
    | .pinned t task =>
      if s.finishing task then some (s.putRequest r (.unpinning t task []))
      else some (s.putRequest r (.walking t task))
    | _ => none
  | .take r =>
    match s.requests r with
    | .walking t task =>
      some ((s.takeChainHooks F t task).putRequest r (.unpinning t task (s.taken F task)))
    | _ => none
  | .unpin r =>
    match s.requests r with
    | .unpinning t task taken =>
      some { s.putRequest r (.firing t task taken [] false) with
        pins := update s.pins task (s.pins task - 1) }
    | _ => none
  | .aim r fails =>
    match s.requests r with
    | .firing t task (h :: taken) [] false =>
      let n := if inlineSlots < (h :: taken).length ∧ fails then inlineSlots
        else (h :: taken).length
      some ((s.aimHooks r ((h :: taken).take n)).putRequest r
        (.firing t task ((h :: taken).drop n) (((h :: taken).take n).map (·, false)) false))
    | _ => none
  | .fire r =>
    match s.requests r with
    | .firing t task taken ((_, true) :: slots) false =>
      some (s.putRequest r (.firing t task taken slots false))
    | .firing t task taken ((h, false) :: slots) false =>
      some (s.putRequest r (.firing t task taken ((h, false) :: slots) true))
    | _ => none
  | .fired r =>
    match s.requests r with
    | .firing t task taken ((_, true) :: slots) true =>
      some (s.putRequest r (.firing t task taken slots false))
    | .firing t task taken ((h, false) :: slots) true =>
      some ((s.putHook h { s.hooks h with firing := false }).putRequest r
        (.firing t task taken slots false))
    | _ => none
  | .finish task =>
    if s.finishing task then none
    else some { s with finishing := update s.finishing task true }
  | .pass task =>
    if s.finishing task ∧ s.pins task = 0 then
      some { s with passed := update s.passed task true }
    else none

/-! ### What a step can do -/

/-- The changes a step can make, one for each way an atomic step can go. -/
inductive Change (F : Forest τ) (s : State τ ι ρ θ) : Event τ ι ρ θ → State τ ι ρ θ → Prop
  | arm {h : ι} {t : θ} {l : τ} (ha : (s.hooks h).arm = .idle) :
      Change F s (.arm h t l) (s.putHook h { s.hooks h with leaf := some l, arm := .linking t })
  | link {h : ι} {t : θ} {l : τ} (ha : (s.hooks h).arm = .linking t)
      (hl : (s.hooks h).leaf = some l) :
      Change F s (.link h) { s.putHook h { s.hooks h with
            root := some (F.root l), arm := .walking t (F.chain l) } with
          registry := update s.registry (F.root l) (h :: s.registry (F.root l)) }
  | readEnd {h : ι} {t : θ} {stopped : Bool} (ha : (s.hooks h).arm = .walking t []) :
      Change F s (.read h stopped) (s.putHook h { s.hooks h with arm := .returned })
  | readSet {h : ι} {t : θ} {y : τ} {rest : List τ} {stopped : Bool}
      (ha : (s.hooks h).arm = .walking t (y :: rest)) (hc : (s.cancelled y || stopped) = true) :
      Change F s (.read h stopped) (s.putHook h { s.hooks h with arm := .inline t })
  | read {h : ι} {t : θ} {y : τ} {rest : List τ} {stopped : Bool}
      (ha : (s.hooks h).arm = .walking t (y :: rest)) (hc : s.cancelled y = false) :
      Change F s (.read h stopped) (s.putHook h { s.hooks h with arm := .walking t rest })
  | armed {h : ι} {t : θ} (ha : (s.hooks h).arm = .inline t) :
      Change F s (.armed h) (s.putHook h { s.hooks h with arm := .returned })
  | disarmLinked {h : ι} {t : θ} {q : τ} (hr : (s.hooks h).root = some q) :
      Change F s (.disarm h t) (s.putHook h { s.hooks h with disarm := .locking t q })
  | disarm {h : ι} {t : θ} (hr : (s.hooks h).root = none) :
      Change F s (.disarm h t) (s.putHook h { s.hooks h with disarm := .checking t })
  | unlink {h : ι} {t : θ} {q : τ} (hd : (s.hooks h).disarm = .locking t q)
      (hr : (s.hooks h).root = some q) :
      Change F s (.unlink h)
        { s.putHook h { s.hooks h with root := none, disarm := .returned t } with
          registry := update s.registry q ((s.registry q).erase h) }
  | unlinkGone {h : ι} {t : θ} {q : τ} (hd : (s.hooks h).disarm = .locking t q)
      (hr : (s.hooks h).root ≠ some q) :
      Change F s (.unlink h) (s.putHook h { s.hooks h with disarm := .checking t })
  | checkMark {h : ι} {t : θ} (hd : (s.hooks h).disarm = .checking t)
      (hf : (s.hooks h).firing = true) (ht : (s.hooks h).firer = some t) :
      Change F s (.check h) ((s.markSlot h).putHook h { s.hooks h with disarm := .returned t })
  | checkSpin {h : ι} {t : θ} (hd : (s.hooks h).disarm = .checking t)
      (hf : (s.hooks h).firing = true) :
      Change F s (.check h) (s.putHook h { s.hooks h with disarm := .spinning t })
  | check {h : ι} {t : θ} (hd : (s.hooks h).disarm = .checking t)
      (hf : (s.hooks h).firing = false) :
      Change F s (.check h) (s.putHook h { s.hooks h with disarm := .returned t })
  | spin {h : ι} {t : θ} (hd : (s.hooks h).disarm = .spinning t) (hf : (s.hooks h).firing = false) :
      Change F s (.spin h) (s.putHook h { s.hooks h with disarm := .returned t })
  | request {r : ρ} {t : θ} {x : τ} (hr : s.requests r = .idle) : Change F s (.request r t x)
        { s.putRequest r (.flagged t x) with cancelled := update s.cancelled x true }
  | pin {r : ρ} {t : θ} {x : τ} (hr : s.requests r = .flagged t x) : Change F s (.pin r)
        { s.putRequest r (.pinned t x) with pins := update s.pins x (s.pins x + 1) }
  | loadFinishing {r : ρ} {t : θ} {x : τ} (hr : s.requests r = .pinned t x)
      (hf : s.finishing x = true) :
      Change F s (.load r) (s.putRequest r (.unpinning t x []))
  | load {r : ρ} {t : θ} {x : τ} (hr : s.requests r = .pinned t x) (hf : s.finishing x = false) :
      Change F s (.load r) (s.putRequest r (.walking t x))
  | take {r : ρ} {t : θ} {x : τ} (hr : s.requests r = .walking t x) : Change F s (.take r)
        ((s.takeChainHooks F t x).putRequest r (.unpinning t x (s.taken F x)))
  | unpin {r : ρ} {t : θ} {x : τ} {taken : List ι} (hr : s.requests r = .unpinning t x taken) :
      Change F s (.unpin r) { s.putRequest r (.firing t x taken [] false) with
          pins := update s.pins x (s.pins x - 1) }
  | aim {r : ρ} {t : θ} {x : τ} {taken : List ι} {fails : Bool} (n : ℕ)
      (hr : s.requests r = .firing t x taken [] false) (hpos : 0 < n) (hne : taken ≠ [])
      (hn : n < taken.length → inlineSlots < taken.length ∧ fails = true) :
      Change F s (.aim r fails) ((s.aimHooks r (taken.take n)).putRequest r
          (.firing t x (taken.drop n) ((taken.take n).map (·, false)) false))
  | skip {r : ρ} {t : θ} {x : τ} {taken : List ι} {h : ι} {slots : List (ι × Bool)}
      {running : Bool} {e : Event τ ι ρ θ} (he : e = .fire r ∨ e = .fired r)
      (hr : s.requests r = .firing t x taken ((h, true) :: slots) running) :
      Change F s e (s.putRequest r (.firing t x taken slots false))
  | fire {r : ρ} {t : θ} {x : τ} {taken : List ι} {h : ι} {slots : List (ι × Bool)}
      (hr : s.requests r = .firing t x taken ((h, false) :: slots) false) :
      Change F s (.fire r) (s.putRequest r (.firing t x taken ((h, false) :: slots) true))
  | fired {r : ρ} {t : θ} {x : τ} {taken : List ι} {h : ι} {slots : List (ι × Bool)}
      (hr : s.requests r = .firing t x taken ((h, false) :: slots) true) :
      Change F s (.fired r) ((s.putHook h { s.hooks h with firing := false }).putRequest r
          (.firing t x taken slots false))
  | finish {x : τ} (hf : s.finishing x = false) :
      Change F s (.finish x) { s with finishing := update s.finishing x true }
  | pass {x : τ} (hf : s.finishing x = true) (hp : s.pins x = 0) :
      Change F s (.pass x) { s with passed := update s.passed x true }

theorem change_of_step {F : Forest τ} {s t : State τ ι ρ θ} {e : Event τ ι ρ θ}
    (h : step F s e = some t) : Change F s e t := by
  cases e with (simp only [step] at h; repeat' first | cases h | split at h)
  | aim =>
    refine .aim _ ‹_› ?_ (List.cons_ne_nil _ _) fun hn => ?_
    · split
      · decide
      · exact Nat.succ_pos _
    · split at hn
      · assumption
      · exact absurd hn (Nat.lt_irrefl _)
  | _ => constructor <;> first | assumption | simp_all

end Manwe.CancelHook
