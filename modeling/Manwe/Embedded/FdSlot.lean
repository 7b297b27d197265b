import Mathlib
import Manwe.Transition.Tally

/-!
# The descriptor slot of the embedded drivers

`Embedded::detail::FdSlot` owns one descriptor. A `Guard` counts itself in `inflight` before it
loads the descriptor; `close` takes the descriptor out of the slot, files it in `pending`, and
leaves the `::close` to whoever drops the count to zero, or does it itself if nothing is in flight.

Every atomic operation is one step, and `release`, the exchange of `pending` with the `::close` that
follows, is one too. An **activity** is one `Guard`, from its constructor to the end of its
destructor, or one call to `close`.

The decrement that finds itself last and the `release` after it are two steps. In between another
Guard may be taken and the descriptor filed, and then `release` closes it under that Guard
(`release_closes_under_guard`). It takes a `close` that files the descriptor just then: if none does
(`Settled`), a descriptor is closed when no Guard has it.
-/

namespace Manwe.FdSlot

open Function List

variable {ι : Type*}

/-- Where an activity stands between its atomic operations. -/
inductive Op
  | idle
  /-- counted in, the descriptor not loaded yet -/
  | counted
  /-- a live `Guard` -/
  | held (fd : Int)
  /-- before the exchange in `release` -/
  | releasing
  /-- `close` has taken the descriptor out of the slot -/
  | took (fd : Int)
  /-- `close` has filed it: before the load of `inflight` -/
  | filed
  | finished
  deriving DecidableEq

/-- The activity counts in `inflight`. -/
def Op.counts : Op → Prop
  | .counted | .held _ => True
  | _ => False

structure State (ι : Type*) where
  fd : Int
  pending : Int := -1
  inflight : ℕ := 0
  ops : ι → Op := fun _ => .idle

inductive Event (ι : Type*)
  /-- the increment in the constructor of `Guard` -/
  | enter (k : ι)
  | load (k : ι)
  | leave (k : ι)
  | release (k : ι)
  /-- the exchange in `close` -/
  | close (k : ι)
  | file (k : ι)
  | check (k : ι)

variable [DecidableEq ι]

def State.set (s : State ι) (k : ι) (op : Op) : State ι := { s with ops := update s.ops k op }

def step (s : State ι) : Event ι → Option (State ι)
  | .enter k =>
    match s.ops k with
    | .idle => some { s.set k .counted with inflight := s.inflight + 1 }
    | _ => none
  | .load k =>
    match s.ops k with
    | .counted => some (s.set k (.held s.fd))
    | _ => none
  | .leave k =>
    match s.ops k with
    | .held _ =>
      some { s.set k (if s.inflight = 1 then .releasing else .finished) with
        inflight := s.inflight - 1 }
    | _ => none
  | .release k =>
    match s.ops k with
    | .releasing => some { s.set k .finished with pending := -1 }
    | _ => none
  | .close k =>
    match s.ops k with
    | .idle => some { s.set k (if s.fd < 0 then .finished else .took s.fd) with fd := -1 }
    | _ => none
  | .file k =>
    match s.ops k with
    | .took f => some { s.set k .filed with pending := f }
    | _ => none
  | .check k =>
    match s.ops k with
    | .filed => some (s.set k (if s.inflight = 0 then .releasing else .finished))
    | _ => none

/-- The descriptor that a step passes to `::close`. -/
def closesAt (s : State ι) : Event ι → List Int
  | .release _ => if 0 ≤ s.pending then [s.pending] else []
  | _ => []

/-- When `close` files the descriptor, nobody is between the decrement that made the count zero and
its `release`, or no Guard is in flight. -/
def Settled (s : State ι) : Event ι → Prop
  | .file _ => s.inflight = 0 ∨ ∀ k, s.ops k ≠ .releasing
  | _ => True

instance [Fintype ι] (s : State ι) (e : Event ι) : Decidable (Settled s e) := match e with
  | .file _ => inferInstanceAs (Decidable (_ ∨ ∀ k, s.ops k ≠ .releasing))
  | .enter _ | .load _ | .leave _ | .release _ | .close _ | .check _ => isTrue trivial

/-! ### What a step can do -/

inductive Change (s : State ι) : Event ι → State ι → Prop
  | enter {k : ι} (hk : s.ops k = .idle) :
      Change s (.enter k) { s.set k .counted with inflight := s.inflight + 1 }
  | load {k : ι} (hk : s.ops k = .counted) : Change s (.load k) (s.set k (.held s.fd))
  | leaveLast {k : ι} {d : Int} (hk : s.ops k = .held d) (hn : s.inflight = 1) :
      Change s (.leave k) { s.set k .releasing with inflight := s.inflight - 1 }
  | leave {k : ι} {d : Int} (hk : s.ops k = .held d) (hn : s.inflight ≠ 1) :
      Change s (.leave k) { s.set k .finished with inflight := s.inflight - 1 }
  | release {k : ι} (hk : s.ops k = .releasing) :
      Change s (.release k) { s.set k .finished with pending := -1 }
  | closeAgain {k : ι} (hk : s.ops k = .idle) (hd : s.fd < 0) :
      Change s (.close k) { s.set k .finished with fd := -1 }
  | close {k : ι} (hk : s.ops k = .idle) (hd : 0 ≤ s.fd) :
      Change s (.close k) { s.set k (.took s.fd) with fd := -1 }
  | file {k : ι} {d : Int} (hk : s.ops k = .took d) :
      Change s (.file k) { s.set k .filed with pending := d }
  | checkNone {k : ι} (hk : s.ops k = .filed) (hn : s.inflight = 0) :
      Change s (.check k) (s.set k .releasing)
  | check {k : ι} (hk : s.ops k = .filed) (hn : s.inflight ≠ 0) :
      Change s (.check k) (s.set k .finished)

theorem change_of_step {s t : State ι} {e : Event ι} (h : step s e = some t) : Change s e t := by
  cases e with (simp only [step] at h; split at h <;> try cases h)
  | leave | close | check =>
    split <;> constructor <;> first | assumption | exact Int.not_lt.mp ‹_›
  | _ =>
    constructor
    assumption

/-! ### Where the descriptor is -/

/-- `close` has the descriptor in its hands. -/
def Op.carries : Op → Prop
  | .took _ => True
  | _ => False

/-- A descriptor or nothing. -/
def one (d : Int) : ℕ := if 0 ≤ d then 1 else 0

theorem not_descriptor : ¬ (0 : Int) ≤ -1 := by decide

/-- **What holds in every state** of a slot made for `d` after `n` calls of `::close`: the
descriptor is in the slot, in the hands of a `close`, filed, or closed; and if it is filed, somebody
is going to call `release`. -/
structure Inv (d : Int) (n : ℕ) (s : State ι) : Prop where
  count : Tally (fun k => (s.ops k).counts) s.inflight
  fd : 0 ≤ s.fd → s.fd = d
  took : ∀ k f, s.ops k = .took f → f = d ∧ 0 ≤ f
  pending : 0 ≤ s.pending → s.pending = d
  place : ∃ m, Tally (fun k => (s.ops k).carries) m ∧ m + one s.fd + one s.pending + n = one d
  due : 0 ≤ s.pending → 0 < s.inflight ∨ ∃ k, s.ops k = .filed ∨ s.ops k = .releasing

omit [DecidableEq ι] in
theorem inv_init (d : Int) : Inv d 0 ({ fd := d } : State ι) where
  count := .zero fun _ => id
  fd _ := rfl
  took _ _ := nofun
  pending h := absurd h not_descriptor
  place := ⟨0, .zero fun _ => id, by simp [one]⟩
  due h := absurd h not_descriptor

variable {d : Int} {n : ℕ} {s t : State ι} {e : Event ι}

/-- An activity moves between control points at which it has no descriptor. -/
theorem tally_plain {R : Op → Prop} {m : ℕ} (h : Tally (fun k => R (s.ops k)) m) {k : ι} {op : Op}
    (hs : ¬ R (s.ops k)) (ht : ¬ R op) : Tally (fun j => R (update s.ops k op j)) m :=
  h.update R (iff_of_false ht hs)

theorem count_step (h : Tally (fun k => (s.ops k).counts) s.inflight) (hc : Change s e t) :
    Tally (fun k => (t.ops k).counts) t.inflight := by
  cases hc with
  | enter hk => exact h.update_enter Op.counts (by rw [hk]; exact id) trivial
  | load hk => exact h.update Op.counts (by rw [hk]; exact Iff.rfl)
  | leaveLast hk | leave hk => exact h.update_leave Op.counts (by rw [hk]; trivial) id
  | release hk | closeAgain hk | close hk | file hk | checkNone hk | check hk =>
    exact tally_plain h (by rw [hk]; exact id) id

variable (h : Inv d n s)

include h

theorem place_step (hc : Change s e t) : ∃ m, Tally (fun k => (t.ops k).carries) m ∧
      m + one t.fd + one t.pending + (n + (closesAt s e).length) = one d := by
  obtain ⟨m, hm, hsum⟩ := h.place
  cases hc with
  | enter hk | load hk | leaveLast hk | leave hk | checkNone hk | check hk =>
    exact ⟨m, tally_plain hm (by rw [hk]; exact id) id, hsum⟩
  | closeAgain hk =>
    refine ⟨m, tally_plain hm (by rw [hk]; exact id) id, ?_⟩
    have hfd : one s.fd = 0 := if_neg (by omega)
    rw [hfd] at hsum
    exact hsum
  | close hk hd =>
    refine ⟨m + 1, hm.update_enter Op.carries (by rw [hk]; exact id) trivial, ?_⟩
    have hfd : one s.fd = 1 := if_pos hd
    have hnone : one (-1) = 0 := rfl
    simp only [State.set, closesAt, length_nil, hnone]
    omega
  | @file k f hk =>
    refine ⟨m - 1, hm.update_leave Op.carries (by rw [hk]; trivial) id, ?_⟩
    have hpos : 0 < m := hm.pos (by rw [hk]; trivial)
    have hf : one f = 1 := if_pos (h.took k f hk).2
    have hd : one d ≤ 1 := by
      unfold one
      split <;> omega
    simp only [State.set, closesAt, length_nil, hf]
    omega
  | @release k hk =>
    refine ⟨m, tally_plain hm (by rw [hk]; exact id) id, ?_⟩
    have hlen : (closesAt s (.release k)).length = one s.pending := by
      simp only [closesAt, one]
      split <;> rfl
    have hnone : one (-1) = 0 := rfl
    simp only [State.set, hlen, hnone]
    omega

theorem due_step (hc : Change s e t) (hp : 0 ≤ t.pending) :
    0 < t.inflight ∨ ∃ k, t.ops k = .filed ∨ t.ops k = .releasing := by
  have hkeep {k : ι} {op : Op} (hk : s.ops k ≠ .filed ∧ s.ops k ≠ .releasing)
      (hs : ∃ k, s.ops k = .filed ∨ s.ops k = .releasing) :
      ∃ j, update s.ops k op j = .filed ∨ update s.ops k op j = .releasing := by
    obtain ⟨j, hj⟩ := hs
    have hjk : j ≠ k := by
      rintro rfl
      exact hj.elim hk.1 hk.2
    exact ⟨j, by rwa [update_of_ne hjk]⟩
  cases hc with
  | enter _ => exact .inl (Nat.succ_pos _)
  | load hk | closeAgain hk | close hk =>
    exact (h.due hp).imp_right (hkeep (by rw [hk]; exact ⟨nofun, nofun⟩))
  | @leaveLast k | @checkNone k => exact .inr ⟨k, .inr (update_self ..)⟩
  | @leave k _ hk =>
    have hpos : 0 < s.inflight := h.count.pos (by rw [hk]; trivial)
    exact .inl (show 0 < s.inflight - 1 by omega)
  | release => exact absurd hp not_descriptor
  | @file k => exact .inr ⟨k, .inl (update_self ..)⟩
  | check _ hn => exact .inl (Nat.pos_of_ne_zero hn)

theorem inv_step (hc : Change s e t) : Inv d (n + (closesAt s e).length) t where
  count := count_step h.count hc
  fd hfd := by
    cases hc with
    | closeAgain | close => exact absurd hfd not_descriptor
    | _ => exact h.fd hfd
  took k f hk := by
    have hput {j : ι} {op : Op} (hk : update s.ops j op k = .took f)
        (hop : op = .took f → f = d ∧ 0 ≤ f) : f = d ∧ 0 ≤ f := by
      exact (of_update hk).elim (fun hk => hop hk.2) fun hk => h.took k f hk.2
    cases hc with
    | close _ hd =>
      refine hput hk fun hop => ?_
      cases hop
      exact ⟨h.fd hd, hd⟩
    | _ => exact hput hk nofun
  pending hp := by
    cases hc with
    | release => exact absurd hp not_descriptor
    | file hk => exact (h.took _ _ hk).1
    | _ => exact h.pending hp
  place := place_step h hc
  due := due_step h hc

/-! ### Guards -/

/-- While the descriptor is filed and somebody is about to release it, no Guard has it. -/
def Unused (d : Int) (s : State ι) : Prop :=
  0 ≤ s.pending → (∃ j, s.ops j = .releasing) → ∀ k, s.ops k ≠ .held d

omit [DecidableEq ι] in
theorem Inv.not_held_of_zero (hn : s.inflight = 0) (k : ι) (f : Int) : s.ops k ≠ .held f := by
  intro hk
  exact (hn ▸ h.count).none_of_zero k (by rw [hk]; trivial)

omit [DecidableEq ι] in
/-- A descriptor that is filed is not in the slot. -/
theorem Inv.fd_of_pending (hp : 0 ≤ s.pending) : s.fd ≠ d := by
  obtain ⟨m, -, hsum⟩ := h.place
  have hd := h.pending hp
  rw [hd] at hp hsum
  intro hfd
  rw [hfd] at hsum
  have hone : one d = 1 := if_pos hp
  omega

theorem unused_step (hu : Unused d s) (hs : Settled s e) (hc : Change s e t) : Unused d t := by
  intro hp hrel k hk
  have hput {j : ι} {op : Op} (hrel : ∃ i, update s.ops j op i = .releasing)
      (hop : op ≠ .releasing) : ∃ i, s.ops i = .releasing := by
    obtain ⟨i, hi⟩ := hrel
    exact (of_update hi).elim (fun hi => absurd hi.2 hop) fun hi => ⟨i, hi.2⟩
  have hheld {j : ι} {op : Op} (hk : update s.ops j op k = .held d)
      (hop : op ≠ .held d) : s.ops k = .held d := by
    exact (of_update hk).elim (fun hk => absurd hk.2 hop) And.right
  cases hc with
  | enter | leave | closeAgain | close | check =>
    exact hu hp (hput hrel nofun) k (hheld hk nofun)
  | load _ =>
    refine hu hp (hput hrel nofun) k (hheld hk fun hop => ?_)
    injection hop with hop
    exact h.fd_of_pending hp hop
  | release => exact absurd hp not_descriptor
  | @leaveLast j f hj hn =>
    -- the Guard that leaves was the only one
    have hjk := (hn ▸ h.count).eq_of_one (by rw [hj]; trivial) (by rw [hheld hk nofun]; trivial)
    subst hjk
    simp [State.set] at hk
  | file =>
    rcases hs with hn | hno
    · exact h.not_held_of_zero hn k d (hheld hk nofun)
    · obtain ⟨i, hi⟩ := hput hrel nofun
      exact hno i hi
  | checkNone _ hn => exact h.not_held_of_zero hn k d (hheld hk nofun)

/-! ### Runs -/

variable {tr : List (State ι × Event ι)}

omit h

theorem inv_run (hr : Run step { fd := d } tr s) : Inv d (logOf closesAt tr).length s := by
  induction hr with
  | start => exact inv_init d
  | next _ hs ih =>
    rw [logOf_snoc, length_append]
    exact inv_step ih (change_of_step hs)

theorem unused_run (hr : Run step { fd := d } tr s) (hs : ∀ p ∈ tr, Settled p.1 p.2) :
    Unused d s := by
  refine hr.induct Settled hs (fun hp => absurd hp not_descriptor) fun hr _ ih he hst => ?_
  exact unused_step (inv_run hr) ih he (change_of_step hst)

/-- **The slot closes its descriptor once, when nobody uses it.** -/
structure Promise (d : Int) (tr : List (State ι × Event ι)) (s : State ι) : Prop where
  /-- No step closes a descriptor that a live Guard has loaded. -/
  unused : ∀ p ∈ tr, ∀ f ∈ closesAt p.1 p.2, ∀ k, p.1.ops k ≠ .held f
  /-- There is at most one `::close`, and it is of the slot's descriptor. -/
  once : ∀ f ∈ logOf closesAt tr, f = d
  atMost : (logOf closesAt tr).length ≤ 1
  /-- When `close` was called and no activity is under way, a slot that had a descriptor has closed
  it. -/
  closed : (∃ p ∈ tr, ∃ k, p.2 = .close k) → (∀ k, s.ops k = .idle ∨ s.ops k = .finished) →
    (logOf closesAt tr).length = one d

/-- After a call of `close` the slot is empty. -/
theorem fd_run (hr : Run step { fd := d } tr s) (hc : ∃ p ∈ tr, ∃ k, p.2 = .close k) :
    s.fd < 0 := by
  induction hr with
  | start => simp at hc
  | @next tr s t e _ hst ih =>
    have hnone : (-1 : Int) < 0 := by decide
    have hold (he : ∀ k, e ≠ .close k) : s.fd < 0 := by
      obtain ⟨p, hp, k, hk⟩ := hc
      rcases mem_append.mp hp with hp | hp
      · exact ih ⟨p, hp, k, hk⟩
      · rw [mem_singleton] at hp
        subst hp
        exact absurd hk (he k)
    cases change_of_step hst with
    | closeAgain | close => exact hnone
    | enter _ | load _ | leaveLast _ _ | leave _ _ | release _ | file _ | checkNone _ _
    | check => exact hold nofun

omit [DecidableEq ι] in
theorem Inv.closed (h : Inv d n s) (hfd : s.fd < 0)
    (hops : ∀ k, s.ops k = .idle ∨ s.ops k = .finished) : n = one d := by
  have hquiet {R : Op → Prop} (hi : ¬ R .idle) (hf : ¬ R .finished) (k : ι) : ¬ R (s.ops k) := by
    rcases hops k with hk | hk <;> rwa [hk]
  obtain ⟨m, hm, hsum⟩ := h.place
  have hm0 : m = 0 := hm.unique (.zero (hquiet id id))
  have hn0 : s.inflight = 0 := h.count.unique (.zero (hquiet id id))
  have hp : one s.pending = 0 := by
    refine if_neg fun hp => ?_
    rcases h.due hp with hpos | ⟨k, hk⟩
    · omega
    · rcases hops k with hk' | hk' <;> rw [hk'] at hk <;> rcases hk with hk | hk <;> cases hk
  have hfd0 : one s.fd = 0 := if_neg (by omega)
  omega

/-- What a step closes. -/
theorem closesAt_of_step (h : Inv d n s) (hu : Unused d s) (hc : Change s e t) {f : Int}
    (hf : f ∈ closesAt s e) : f = d ∧ ∀ k, s.ops k ≠ .held f := by
  cases hc with
  | @release k hk =>
    simp only [closesAt] at hf
    split_ifs at hf with hp
    · rw [mem_singleton] at hf
      rw [hf, h.pending hp]
      exact ⟨rfl, hu hp ⟨k, hk⟩⟩
    · cases hf
  | _ => cases hf

/-- **Safety of the slot** in every run in which no `close` files the descriptor between the
decrement that made the count zero and its `release`, unless no Guard is in flight. -/
theorem closes_once_unused {tr : List (State ι × Event ι)} (hr : Run step { fd := d } tr s)
    (hs : ∀ p ∈ tr, Settled p.1 p.2) : Promise d tr s := by
  have h := inv_run hr
  have hstep : ∀ p ∈ tr, ∀ f ∈ closesAt p.1 p.2, f = d ∧ ∀ k, p.1.ops k ≠ .held f := by
    intro p hp f hf
    obtain ⟨tr', t, hr', hst, hpre⟩ := hr.before hp
    exact closesAt_of_step (inv_run hr') (unused_run hr' fun q hq => hs q (hpre.subset hq))
      (change_of_step hst) hf
  refine ⟨fun p hp f hf => (hstep p hp f hf).2, fun f hf => ?_, ?_, fun hc hops => ?_⟩
  · obtain ⟨p, hp, hf⟩ := mem_flatMap.mp hf
    exact (hstep p hp f hf).1
  · obtain ⟨m, -, hsum⟩ := h.place
    have hd : one d ≤ 1 := by
      unfold one
      split <;> omega
    omega
  · exact h.closed (fd_run hr hc) hops

/-- Two Guards, a `close` between them, and another `close`. -/
def closedUnderGuards : List (Event (Fin 4)) :=
  [.enter 0, .load 0, .enter 1, .load 1, .leave 0, .close 2, .file 2, .check 2, .close 3, .leave 1,
    .release 1]

theorem closes_once_unused_closedUnderGuards : ∃ tr s,
    Run step ({ fd := 7 } : State (Fin 4)) tr s ∧ (∀ p ∈ tr, Settled p.1 p.2) ∧
    logOf closesAt tr = [7] ∧ Promise 7 tr s := by
  have hr : Run step ({ fd := 7 } : State (Fin 4)) _ _ :=
    .follow closedUnderGuards (by decide +kernel)
  exact ⟨_, _, hr, by decide +kernel, by decide +kernel, closes_once_unused hr (by decide +kernel)⟩

/-- Guard `0` has made the count zero; before its `release` Guard `1` is taken and the descriptor
filed. -/
def lateRelease : List (Event (Fin 3)) :=
  [.enter 0, .load 0, .leave 0, .enter 1, .load 1, .close 2, .file 2, .check 2]

/-- **A descriptor is closed under a Guard.** -/
theorem release_closes_under_guard : ∃ tr s, Run step ({ fd := 7 } : State (Fin 3)) tr s ∧
    s.ops 1 = .held 7 ∧ closesAt s (.release 0) = [7] ∧ (step s (.release 0)).isSome = true := by
  refine Run.exists_of_exec lateRelease ?_
  decide +kernel

end Manwe.FdSlot
