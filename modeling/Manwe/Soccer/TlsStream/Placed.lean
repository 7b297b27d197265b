import Manwe.Soccer.TlsStream.Steps
import Manwe.Transition.Tally

/-!
# Where the descriptor of a TLS stream is

The descriptor is in one place at a time: in the `Impl`, in the hand of the `close` that took it
out, in `retiredFd`, in the hand of the party that is about to pass it to `closeSocket`, or closed.
`Placed` ties **where it is** to every field and every party, and to the count of the waiters: while
it is retired somebody waits, and once it is about to be closed nobody does, nor ever will again,
since a ticket is only taken while the context is there.
-/

namespace Manwe.TlsStream

open Function

variable {ι : Type} [DecidableEq ι]

/-- Where the descriptor is. -/
inductive Loc (ι : Type) where
  | slot
  | hand (i : ι)
  | retired
  /-- with a `close` that is going to close it -/
  | shutting (i : ι)
  /-- with the last waiter -/
  | dropping (i : ι)
  | closed

namespace Loc

/-- The context, the descriptor and `retiredFd` of the `Impl`. -/
@[simp] def shared (d : Int) : Loc ι → Bool × Int × Int
  | .slot => (true, d, -1)
  | .retired => (false, -1, d)
  | _ => (false, -1, -1)

@[simp] def care (d : Int) : Loc ι → ι → Care
  | .hand k, i => if i = k then .hand d else .none
  | .shutting k, i => if i = k then .shuts d else .none
  | .dropping k, i => if i = k then .drops d else .none
  | _, _ => .none

def log (d : Int) : Loc ι → List Int
  | .closed => [d]
  | _ => []

/-- Who has taken it out. -/
def Taken : Loc ι → List ι → Prop
  | .slot, l => l = []
  | .hand k, l | .shutting k, l => l = [k]
  | _, l => ∃ k, l = [k]

/-- How many wait. -/
def Waits : Loc ι → Int → Prop
  | .slot, _ | .hand _, _ => True
  | .retired, w => w ≠ 0
  | _, w => w = 0

end Loc

/-- The descriptor `d` is at `loc`, after it has been taken out by `taken` and `closed` has been
passed to `closeSocket`. -/
structure Placed (d : Int) (loc : Loc ι) (c : Shared) (v : ι → View) (taken : List ι)
    (closed : List Int) : Prop where
  shared : (c.ctx, c.fd, c.retiredFd) = loc.shared d
  care : ∀ i, (v i).care = loc.care d i
  log : closed = loc.log d
  taken : loc.Taken taken
  waits : loc.Waits c.waiters

/-- `waiters` counts the tickets. -/
def Counted (c : Shared) (v : ι → View) : Prop :=
  ∃ n : ℕ, c.waiters = n ∧ Tally (fun i => (v i).ticket = true) n

section Step

variable {d : Int} {loc loc' : Loc ι} {c c' : Shared} {v : ι → View} {w : View} {i : ι} {l : Label}
  {taken taken' : List ι} {closed closed' : List Int}

theorem Counted.step (h : Counted c v) (ht : Touch c (v i) l c' w) : Counted c' (update v i w) := by
  obtain ⟨n, hn, ht'⟩ := h
  have hstay : w.ticket = (v i).ticket → c'.waiters = c.waiters →
      Counted c' (update v i w) := fun hw hc =>
    ⟨n, hc.trans hn, ht'.update (fun v : View => v.ticket = true) (by rw [hw])⟩
  generalize hv : v i = u at ht
  have hticket : (v i).ticket = u.ticket := by rw [hv]
  rw [hticket] at hstay
  cases ht with
  | enter =>
    refine ⟨n + 1, by push_cast; rw [← hn], ht'.update_enter (fun v : View =>
      v.ticket = true) ?_ rfl⟩
    rw [hticket]
    exact Bool.false_ne_true
  | leave | leaveLast =>
    have hpos := ht'.pos hticket
    refine ⟨n - 1, ?_, ht'.update_leave (fun v : View =>
      v.ticket = true) hticket Bool.false_ne_true⟩
    dsimp only
    omega
  | _ => exact hstay rfl rfl

variable (h : Placed d loc c v taken closed)

include h

/-- A step of `i` that takes the descriptor from `loc` to `loc'`. -/
theorem Placed.move (hshared : (c'.ctx, c'.fd, c'.retiredFd) = loc'.shared d)
    (hi : w.care = loc'.care d i) (hne : ∀ j, j ≠ i → loc.care d j = loc'.care d j)
    (hlog : closed' = loc'.log d) (htaken : loc'.Taken taken') (hwaits : loc'.Waits c'.waiters) :
    Placed d loc' c' (update v i w) taken' closed' where
  shared := hshared
  care j := by
    obtain rfl | hj := eq_or_ne j i
    · rw [update_self, hi]
    · rw [update_of_ne hj, h.care, hne j hj]
  log := hlog
  taken := htaken
  waits := hwaits

/-- A step that leaves the descriptor where it is. -/
theorem Placed.stay (hshared : (c'.ctx, c'.fd, c'.retiredFd) = (c.ctx, c.fd, c.retiredFd))
    (hi : w.care = (v i).care) (hwaits : loc.Waits c'.waiters) :
    Placed d loc c' (update v i w) taken closed :=
  h.move (hshared.trans h.shared) (hi.trans (h.care i)) (fun _ _ => rfl) h.log h.taken hwaits

/-- Whoever takes care of the descriptor is where it is. -/
theorem Placed.of_care : (∀ fd, (v i).care = .hand fd → loc = .hand i ∧ fd = d) ∧
    (∀ fd, (v i).care = .shuts fd → loc = .shutting i ∧ fd = d) ∧
    ∀ fd, (v i).care = .drops fd → loc = .dropping i ∧ fd = d := by
  rw [h.care i]
  cases loc with
  | hand k | shutting k | dropping k =>
    obtain rfl | hk := eq_or_ne i k
    · simp [eq_comm]
    · simp [hk]
  | _ => simp

/-- While somebody has a ticket, the descriptor is neither closed nor about to be. -/
theorem Placed.held (hn : Counted c v) (hi : (v i).ticket = true) :
    loc = .slot ∨ (∃ k, loc = .hand k) ∨ loc = .retired := by
  obtain ⟨n, hc, ht⟩ := hn
  have hpos := ht.pos hi
  have hne : c.waiters ≠ 0 := by omega
  cases loc with
  | slot => exact .inl rfl
  | hand k => exact .inr (.inl ⟨k, rfl⟩)
  | retired => exact .inr (.inr rfl)
  | _ => exact absurd h.waits hne

/-- The `Impl` has the context and the descriptor, or neither. -/
theorem Placed.slot_iff : (c.ctx = true ∨ 0 ≤ c.fd) ↔ loc = .slot := by
  have hs := h.shared
  cases loc with
  | slot => simp_all
  | _ => simp_all

omit h

theorem Placed.retired_iff (hd : 0 ≤ d) (h : Placed d loc c v taken closed) :
    0 ≤ c.retiredFd ↔ loc = .retired := by
  have hs := h.shared
  cases loc with
  | retired => simp_all
  | _ => simp_all

theorem Placed.unlogged (h : Placed d loc c v taken closed) :
    Placed d loc c v (taken ++ Label.none.taken i) (closed ++ Label.none.closed) := by
  simpa [Label.taken, Label.closed] using h

/-- **The step lemma.** -/
theorem Placed.step (hd : 0 ≤ d) (hn : Counted c v) (h : Placed d loc c v taken closed)
    (ht : Touch c (v i) l c' w) : ∃ loc', Placed d loc' c' (update v i w)
      (taken ++ l.taken i) (closed ++ l.closed) := by
  generalize hv : v i = u at ht
  have hcare : (v i).care = u.care := by rw [hv]
  have hheld := fun hi : u.ticket = true => h.held hn (by rw [hv, hi])
  obtain ⟨hhand, hshuts, hdrops⟩ := h.of_care
  rw [hcare] at hhand hshuts hdrops
  cases ht with
  | quiet => exact ⟨loc, .unlogged <| h.stay rfl hcare.symm h.waits⟩
  | enter hctx =>
    obtain rfl := h.slot_iff.1 (.inl hctx)
    exact ⟨.slot, .unlogged <| h.stay rfl hcare.symm trivial⟩
  | leave hlast =>
    -- the descriptor may be retired, but then this is not the last ticket
    have hret : c.waiters - 1 = 0 → loc ≠ .retired := fun h0 hloc =>
      absurd ((h.retired_iff hd).2 hloc) (Int.not_le.2 (hlast h0))
    refine ⟨loc, .unlogged <| h.stay ?_ hcare.symm ?_⟩
    · have hs := h.shared
      split
      · next h0 =>
        cases loc <;> simp_all
      · rfl
    · obtain rfl | ⟨k, rfl⟩ | rfl := hheld rfl
      · trivial
      · trivial
      · exact fun h0 => hret h0 rfl
  | leaveLast h0 hret =>
    obtain rfl := (h.retired_iff hd).1 hret
    obtain ⟨hctx, hfd, hr⟩ : c.ctx = false ∧ c.fd = -1 ∧ c.retiredFd = d := by simpa using h.shared
    exact ⟨.dropping i, .unlogged <| h.move (by simp [hctx, hfd]) (by simp [hr])
      (fun j hj => (if_neg hj).symm) h.log h.taken h0⟩
  | take hc =>
    obtain rfl := h.slot_iff.1 hc
    obtain ⟨-, hfd, hret⟩ : c.ctx = true ∧ c.fd = d ∧ c.retiredFd = -1 := by simpa using h.shared
    refine ⟨.hand i, h.move (by simp [hret]) (by simp [hfd])
      (fun j hj => (if_neg hj).symm) (by rw [h.log]; rfl) ?_ trivial⟩
    rw [show taken = [] from h.taken]
    rfl
  | takeNone hctx =>
    have hfd : c.fd = -1 := by
      have hs := h.shared
      cases loc <;> simp_all
    exact ⟨loc, .unlogged <| h.stay (by rw [hctx, hfd]) hcare.symm h.waits⟩
  | free =>
    obtain ⟨-, rfl⟩ := hhand _ rfl
    omega
  | keep h0 =>
    obtain ⟨rfl, rfl⟩ := hhand _ rfl
    exact ⟨.shutting i, .unlogged <| h.move h.shared (if_pos rfl).symm
      (fun j hj => (if_neg hj).trans (if_neg hj).symm) h.log h.taken h0⟩
  | retire h0 =>
    obtain ⟨rfl, rfl⟩ := hhand _ rfl
    obtain ⟨hctx, hfd, -⟩ : c.ctx = false ∧ c.fd = -1 ∧ c.retiredFd = -1 := by simpa using h.shared
    exact ⟨.retired, .unlogged <| h.move (by simp [hctx, hfd]) rfl (fun j hj => if_neg hj) h.log
      ⟨i, h.taken⟩ h0⟩
  | shut =>
    obtain ⟨rfl, rfl⟩ := hshuts _ rfl
    exact ⟨.closed, h.move h.shared rfl (fun j hj => if_neg hj) (by rw [h.log]; rfl)
      ⟨i, by rw [show taken = [i] from h.taken]; rfl⟩ h.waits⟩
  | drop =>
    obtain ⟨rfl, rfl⟩ := hdrops _ rfl
    obtain ⟨k, hk⟩ := h.taken
    exact ⟨.closed, h.move h.shared rfl (fun j hj => if_neg hj) (by rw [h.log]; rfl)
      ⟨k, by rw [hk]; rfl⟩ h.waits⟩

end Step

/-! ### Runs -/

section Runs

variable {d : Int} {pending : Bool} {s : State ι} {tr : List (State ι × Event ι)}

/-- A stream around the descriptor `d`, whose handshake may be pending. -/
def adopted (ι : Type) (d : Int) (pending : Bool) : State ι := { fd := d, hsPending := pending }

theorem placed_run (hd : 0 ≤ d) (h : Run step (adopted ι d pending) tr s) :
    Counted s.shared s.view ∧
      ∃ loc, Placed d loc s.shared s.view (logOf takesAt tr) (logOf closesAt tr) := by
  induction h with
  | start =>
    exact ⟨⟨0, rfl, .zero fun _ => Bool.false_ne_true⟩, .slot, rfl, fun _ => rfl, rfl, rfl, trivial⟩
  | @next tr s t e _ hs ih =>
    obtain ⟨hn, loc, hp⟩ := ih
    obtain ⟨l, ht, hclosed, htaken⟩ := touches_of_step hs
    have hview : t.view = update s.view e.actor (t.view e.actor) := by
      funext j
      by_cases hj : j = e.actor
      · rw [hj, update_self]
      · rw [update_of_ne hj, State.view, ht.others j hj, State.view]
    rw [logOf_snoc, logOf_snoc, hclosed, htaken, hview]
    exact ⟨hn.step ht.touch, hp.step hd hn ht.touch⟩

end Runs

end Manwe.TlsStream
