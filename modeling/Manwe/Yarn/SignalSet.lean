import Mathlib
import Manwe.Transition.Tally

/-!
# Signal sets

`manwe_signal_handler` walks a table of slots and writes the number of its signal to the pipe of
every set whose mask has it. It reads a slot in **two steps**, first the descriptor and then the
mask. A set that goes empties its slot and waits until no handler is in flight before it closes its
pipe, so a descriptor that was loaded stays that of its set. But in between the slot may be given
to **another set**, and then the mask is that set's. Where this does not happen (`steady`), `next`
returns only signals that its set was made for.

There is one process, and any signal may be delivered at any time, whatever the dispositions are.
-/

namespace Manwe.SignalSet

open Function List Nat

def kMaxSets : ℕ := 64

def kMaxSignal : ℕ := 64

/-- The mask that the constructor computes. -/
def maskOf (signals : List ℕ) : ℕ := signals.foldl (fun mask sig => mask ||| 1 <<< (sig - 1)) 0

/-- The bit that the handler looks for. -/
def bitOf (sig : ℕ) : ℕ := if 1 ≤ sig ∧ sig ≤ kMaxSignal then 1 <<< (sig - 1) else 0

structure Slot where
  /-- the write end plus one; `0` for a free slot -/
  fd : ℕ := 0
  mask : ℕ := 0
  deriving DecidableEq

/-- What a set is constructed with, and the number `pipe2` gives it; numbers are used again. -/
structure Plan where
  signals : ℕ → List ℕ
  writeFd : ℕ → ℕ

/-- Where a set stands. -/
inductive Phase
  | absent
  /-- has its pipe -/
  | piped
  | published (k : ℕ)
  /-- in `teardown`: the slot is empty, and the handlers are waited for -/
  | draining
  /-- before `close(writeFd)` -/
  | drained
  /-- before `closed` is set -/
  | shut
  | closed
  deriving DecidableEq

/-- The write end is open. -/
def Phase.isOpen : Phase → Bool
  | .piped | .published _ | .draining | .drained => true
  | .absent | .shut | .closed => false

inductive HandlerPc
  | idle
  /-- before the look at slot `k` -/
  | looking (sig k : ℕ)
  /-- has loaded `fd`, before the load of the mask -/
  | loaded (sig k fd : ℕ)
  /-- before the write -/
  | writing (sig k fd : ℕ)
  deriving DecidableEq

/-- A call of `next`. -/
inductive NextPc
  | idle
  /-- before the load of `closed` -/
  | checking (i : ℕ)
  | reading (i : ℕ)
  | returned (i : ℕ) (b : ℕ)
  | threw
  deriving DecidableEq

structure State where
  slots : ℕ → Slot := fun _ => {}
  /-- `g_handlersInFlight` -/
  inFlight : ℕ := 0
  phase : ℕ → Phase := fun _ => .absent
  /-- whose write end a number is -/
  owner : ℕ → Option ℕ := fun _ => none
  pipe : ℕ → List ℕ := fun _ => []
  handlers : ℕ → HandlerPc := fun _ => .idle
  calls : ℕ → NextPc := fun _ => .idle

inductive Event
  /-- the constructor up to its pipe -/
  | pipe (i : ℕ)
  /-- its locked section -/
  | publish (i : ℕ) (k : ℕ)
  /-- there is no slot left: it throws -/
  | tooMany (i : ℕ)
  /-- the locked section of `teardown` -/
  | unpublish (i : ℕ)
  | drain (i : ℕ)
  | closeWrite (i : ℕ)
  | close (i : ℕ)
  | signal (h : ℕ) (sig : ℕ)
  | loadFd (h : ℕ)
  | loadMask (h : ℕ)
  | write (h : ℕ) (ok : Bool)
  | finish (h : ℕ)
  | next (j : ℕ) (i : ℕ)
  | check (j : ℕ)
  | read (j : ℕ)

def State.move (s : State) (i : ℕ) (p : Phase) : State := { s with phase := update s.phase i p }

def State.turn (s : State) (h : ℕ) (pc : HandlerPc) : State :=
  { s with handlers := update s.handlers h pc }

def State.call (s : State) (j : ℕ) (pc : NextPc) : State := { s with calls := update s.calls j pc }

/-- `write(fd, &b, 1)`. -/
def State.put (s : State) (fd b : ℕ) : State := match s.owner fd with
  | some i => { s with pipe := update s.pipe i (s.pipe i ++ [b]) }
  | none => s

def step (c : Plan) (s : State) : Event → Option State
  | .pipe i =>
    if s.phase i = .absent ∧ s.owner (c.writeFd i) = none ∧
        ∀ sig ∈ c.signals i, 1 ≤ sig ∧ sig ≤ kMaxSignal then
      some { s.move i .piped with owner := update s.owner (c.writeFd i) (some i) }
    else none
  | .publish i k =>
    if s.phase i = .piped ∧ k < kMaxSets ∧ (s.slots k).fd = 0 ∧ ∀ j < k, (s.slots j).fd ≠ 0 then
      some { s.move i (.published k) with
        slots := update s.slots k ⟨c.writeFd i + 1, maskOf (c.signals i)⟩ }
    else none
  | .tooMany i =>
    if s.phase i = .piped ∧ ∀ j < kMaxSets, (s.slots j).fd ≠ 0 then some (s.move i .drained)
    else none
  | .unpublish i =>
    match s.phase i with
    | .published k => some { s.move i .draining with slots := update s.slots k {} }
    | _ => none
  | .drain i => if s.phase i = .draining ∧ s.inFlight = 0 then some (s.move i .drained) else none
  | .closeWrite i =>
    if s.phase i = .drained then
      some { s.move i .shut with owner := update s.owner (c.writeFd i) none }
    else none
  | .close i => if s.phase i = .shut then some (s.move i .closed) else none
  | .signal h sig =>
    if s.handlers h = .idle then
      some { s.turn h (.looking sig 0) with inFlight := s.inFlight + 1 }
    else none
  | .loadFd h =>
    match s.handlers h with
    | .looking sig k =>
      if k < kMaxSets then
        some (s.turn h (if (s.slots k).fd = 0 then .looking sig (k + 1)
          else .loaded sig k (s.slots k).fd))
      else none
    | _ => none
  | .loadMask h =>
    match s.handlers h with
    | .loaded sig k fd =>
      some (s.turn h (if (s.slots k).mask &&& bitOf sig = 0 then .looking sig (k + 1)
        else .writing sig k fd))
    | _ => none
  | .write h ok =>
    match s.handlers h with
    | .writing sig k fd =>
      let s := s.turn h (.looking sig (k + 1))
      some (if ok then s.put (fd - 1) (sig % 256) else s)
    | _ => none
  | .finish h =>
    match s.handlers h with
    | .looking _ k =>
      if k = kMaxSets then some { s.turn h .idle with inFlight := s.inFlight - 1 } else none
    | _ => none
  | .next j i =>
    match s.calls j, s.phase i with
    | .idle, .published _ => some (s.call j (.checking i))
    | _, _ => none
  | .check j =>
    match s.calls j with
    | .checking i => some (s.call j (if s.phase i = .closed then .threw else .reading i))
    | _ => none
  | .read j =>
    match s.calls j with
    | .reading i =>
      match s.pipe i with
      | b :: rest => some { s.call j (.returned i b) with pipe := update s.pipe i rest }
      | [] => some (s.call j (if (s.phase i).isOpen then .checking i else .threw))
    | _ => none

/-- A slot whose mask is loaded has not been given to another set since its descriptor was. -/
def steady (s : State) : Event → Bool
  | .loadMask h =>
    match s.handlers h with
    | .loaded _ k fd => (s.slots k).fd == 0 || (s.slots k).fd == fd
    | _ => true
  | _ => true

/-! ### Masks -/

theorem testBit_maskOf {l : List ℕ} {m n : ℕ} :
    (l.foldl (fun mask sig => mask ||| 1 <<< (sig - 1)) m).testBit n =
      (m.testBit n || l.any fun sig => sig - 1 = n) := by
  induction l generalizing m with
  | nil => simp
  | cons x l ih =>
    rw [foldl_cons, ih, any_cons, testBit_or, one_shiftLeft, testBit_two_pow, Bool.or_assoc]

theorem mem_of_mask {l : List ℕ} {sig : ℕ} (hl : ∀ x ∈ l, 1 ≤ x ∧ x ≤ kMaxSignal)
    (h : maskOf l &&& bitOf sig ≠ 0) : sig % 256 ∈ l := by
  unfold bitOf at h
  split at h
  · next hsig =>
    rw [one_shiftLeft, and_two_pow] at h
    have hbit : (maskOf l).testBit (sig - 1) = true := by
      by_contra hn
      simp [hn] at h
    rw [maskOf, testBit_maskOf, zero_testBit, Bool.false_or, any_eq_true] at hbit
    obtain ⟨x, hx, hn⟩ := hbit
    have := hl x hx
    simp only [kMaxSignal, decide_eq_true_eq] at hsig hn this
    rwa [mod_eq_of_lt (by omega), show sig = x by omega]
  · simp at h

/-! ### What a handler has loaded -/

/-- The descriptor of slot `k` that was loaded as `fd` is that of the set `i`, and open. -/
def Holds (c : Plan) (s : State) (k fd i : ℕ) : Prop :=
  fd = c.writeFd i + 1 ∧ (s.phase i = .published k ∨ s.phase i = .draining)

@[grind cases]
structure Inv (c : Plan) (s : State) : Prop where
  flying : Tally (fun h => s.handlers h ≠ .idle) s.inFlight
  valid : ∀ i, s.phase i ≠ .absent → ∀ sig ∈ c.signals i, 1 ≤ sig ∧ sig ≤ kMaxSignal
  taken : ∀ k, (s.slots k).fd ≠ 0 → ∃ i, s.phase i = .published k
  free : ∀ k, (s.slots k).fd = 0 → (s.slots k).mask = 0
  published : ∀ i k, s.phase i = .published k → s.slots k = ⟨c.writeFd i + 1, maskOf (c.signals i)⟩
  owner : ∀ i, (s.phase i).isOpen = true → s.owner (c.writeFd i) = some i
  loaded : ∀ h sig k fd, s.handlers h = .loaded sig k fd → ∃ i, Holds c s k fd i
  writing : ∀ h sig k fd, s.handlers h = .writing sig k fd →
    ∃ i, Holds c s k fd i ∧ sig % 256 ∈ c.signals i
  pipes : ∀ i, ∀ b ∈ s.pipe i, b ∈ c.signals i
  returned : ∀ j i b, s.calls j = .returned i b → b ∈ c.signals i

variable {c : Plan} {s t : State} {e : Event} {h : ℕ}

theorem inv_init : Inv c {} := by
  refine ⟨.zero fun _ => by simp, ?_, ?_, ?_, ?_, ?_, ?_, ?_, ?_, ?_⟩ <;> simp [Phase.isOpen]

variable (hi : Inv c s)

include hi

/-- A handler goes on. -/
theorem Inv.turn {pc : HandlerPc} (hh : s.handlers h ≠ .idle) (hpc : pc ≠ .idle)
    (hl : ∀ sig k fd, pc = .loaded sig k fd → ∃ i, Holds c s k fd i)
    (hw : ∀ sig k fd, pc = .writing sig k fd → ∃ i, Holds c s k fd i ∧ sig % 256 ∈ c.signals i) :
    Inv c (s.turn h pc) := by
  have hf := hi.flying.update (R := (· ≠ HandlerPc.idle)) (iff_of_true hpc hh)
  refine { hi with flying := hf, loaded := fun h' => ?_, writing := fun h' => ?_ }
  all_goals
    simp only [State.turn, update_apply]
    split
  exacts [hl, hi.loaded h', hw, hi.writing h']

theorem Inv.put {fd b : ℕ} (hb : ∀ i, s.owner fd = some i → b ∈ c.signals i) :
    Inv c (s.put fd b) := by
  rw [State.put]
  split
  · next i ho =>
    refine { hi with pipes := fun j x hx => ?_ }
    simp only [update_apply] at hx
    split at hx
    · next hj =>
      subst hj
      exact (mem_append.1 hx).elim (hi.pipes j x) fun hx => mem_singleton.1 hx ▸ hb j ho
    · exact hi.pipes j x hx
  · exact hi

theorem Inv.call {j : ℕ} {pc : NextPc} (hpc : ∀ i b, pc = .returned i b → b ∈ c.signals i) :
    Inv c (s.call j pc) := by
  refine { hi with returned := fun j' i b => ?_ }
  simp only [State.call, update_apply]
  split
  · exact hpc i b
  · exact hi.returned j' i b

/-- The mask of a steady slot is that of the set whose descriptor was loaded. -/
theorem Inv.mem_of_loaded {sig k fd : ℕ} (hl : s.handlers h = .loaded sig k fd)
    (hok : steady s (.loadMask h) = true) (hm : (s.slots k).mask &&& bitOf sig ≠ 0) :
    ∃ i, Holds c s k fd i ∧ sig % 256 ∈ c.signals i := by
  have hne : (s.slots k).fd ≠ 0 := fun h0 => by simp [hi.free k h0] at hm
  obtain ⟨i, hp⟩ := hi.taken k hne
  have hslot := hi.published i k hp
  simp only [steady, hl, Bool.or_eq_true, beq_iff_eq, hne, false_or] at hok
  rw [hslot] at hok hm
  exact ⟨i, ⟨hok.symm, .inl hp⟩, mem_of_mask (hi.valid i (by simp [hp])) hm⟩

theorem inv_step (hok : steady s e = true) (hs : step c s e = some t) : Inv c t := by
  cases e with (simp only [step] at hs; split at hs <;> try cases hs)
  | pipe | publish | tooMany | unpublish | closeWrite | close =>
    -- a set moves: no other set has its number or its slot, and only a drained one closes its pipe
    constructor <;> simp only [State.move, Holds, update_apply] <;>
      grind -ring -linarith [Phase.isOpen, Holds]
  | drain =>
    -- with nobody in flight, nobody has the descriptor in hand
    next hd =>
    have hidle : ∀ h, s.handlers h = .idle := fun h => not_not.1 ((hd.2 ▸ hi.flying).none_of_zero h)
    constructor <;> simp only [State.move, Holds, update_apply] <;>
      grind -ring -linarith [Phase.isOpen, Holds]
  | signal h sig =>
    next hh =>
    have hf := hi.flying.update_enter (R := (· ≠ HandlerPc.idle)) (x := .looking sig 0)
      (not_not.2 hh) nofun
    constructor <;> simp only [State.turn, Holds, update_apply] at hf ⊢ <;> grind [Holds]
  | finish =>
    next sig k hh =>
    split at hs <;> cases hs
    have hf := hi.flying.update_leave (R := (· ≠ HandlerPc.idle))
      (by rw [hh]; nofun) (not_not.2 rfl)
    constructor <;> simp only [State.turn, Holds, update_apply] at hf ⊢ <;> grind [Holds]
  | loadFd =>
    next sig k hh =>
    split at hs <;> cases hs
    refine hi.turn (by simp [hh]) (by split <;> nofun) (fun sig' k' fd' hpc => ?_) ?_
    · split at hpc <;> cases hpc
      next hne =>
      obtain ⟨i, hp⟩ := hi.taken k hne
      exact ⟨i, by rw [hi.published i k hp], .inl hp⟩
    · split <;> nofun
  | loadMask =>
    next sig k fd hh =>
    refine hi.turn (by simp [hh]) (by split <;> nofun) ?_ fun sig' k' fd' hpc => ?_
    · split <;> nofun
    · split at hpc <;> cases hpc
      exact hi.mem_of_loaded hh hok ‹_›
  | write h =>
    next sig k fd hh =>
    -- the number is still that of the set it was loaded from
    obtain ⟨i, ⟨rfl, hp⟩, hm⟩ := hi.writing h sig k fd hh
    have hown : s.owner (c.writeFd i) = some i :=
      hi.owner i (by rcases hp with hp | hp <;> rw [hp] <;> rfl)
    have hgo : Inv c (s.turn h (.looking sig (k + 1))) :=
      hi.turn (by simp [hh]) nofun nofun nofun
    split
    · exact hgo.put fun j hj => Option.some.inj (hown.symm.trans hj) ▸ hm
    · exact hgo
  | next | check => exact hi.call (by grind)
  | read j =>
    next i hj =>
    split at hs <;> cases hs
    · next b rest hb =>
      have hmem : ∀ x ∈ b :: rest, x ∈ c.signals i := hb ▸ hi.pipes i
      have hcall : Inv c (s.call j (.returned i b)) := hi.call fun i' b' he => by
        obtain ⟨rfl, rfl⟩ := he
        exact hmem b mem_cons_self
      refine { hcall with pipes := fun i' x hx => ?_ }
      simp only [update_apply] at hx
      split at hx
      · next hi' => exact hi' ▸ hmem x (mem_cons_of_mem b hx)
      · exact hi.pipes i' x hx
    · exact hi.call (by grind)

omit hi

/-- Two sets, for `SIGINT` and for `SIGTERM`. -/
def pair : Plan := ⟨fun i => if i = 0 then [2] else [15], fun i => if i = 0 then 4 else 6⟩

/-- The slot is used again, by the time the handler of `SIGTERM` looks. -/
def reused : List Event :=
  [.pipe 0, .publish 0 0, .unpublish 0, .pipe 1, .publish 1 0, .next 0 1, .check 0,
    .signal 0 15, .loadFd 0, .loadMask 0, .write 0 true, .read 0]

end Manwe.SignalSet
