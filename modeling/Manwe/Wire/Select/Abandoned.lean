import Manwe.Wire.Select.Lossless

/-!
# Abandoned selects

The destructor of a parked caller stops the pulls but does not decide the select. A pull that has
been given a value may thus still win, and its value stays behind in a `result` that nobody reads
(`abandoned_swallows`). Values are swallowed in no other way: if every pull that comes with a value
finds the select decided, all of them are pushed back (`abandoned_pushes_back`).
-/

namespace Manwe.Select

open Mailbox Channel Ids Option

variable {σ ι α η γ : Type*}

/-- Pull `0` is parked and is given `5`. The caller's frame is destroyed and stops the select, but
the pull is past cancelling: it decides the select, and `5` stays behind in `result`. -/
def decidedAfterDrop : List (Event (ℕ ⊕ ℕ) ℕ ℕ ℕ) :=
  [.start 0, .spawn, .look, .suspend, .chan 0 (.receive (.inr 0) false),
    .chan 0 (.suspend (.inr 0) (some false)), .chan 0 (.retry (.inr 0)), .chan 0 (.send 5),
    .destroy, .dropStop, .chan 0 (.cancel (.inr 0)), .chan 0 (.wake (.inr 0)),
    .chan 0 (.resume (.inr 0) false), .decide 0, .stopAll 0, .finish 0]

/-- **An abandoned select can swallow a value.** The frame is gone, the only pull has finished, and
the value it obtained is in no channel. -/
theorem abandoned_swallows : ∃ tr s,
    Run (step (fun _ => side 0) sum [0]) opened tr s ∧ s.caller = .destroyed ∧
      (∀ i, s.pull i ≠ .idle → s.pull i = .finished) ∧
      s.got sum [0] 0 = .returned (some 5) ∧
      pushedBack (fun _ => side 0) sum [0] tr = [] ∧
      (s.chan 0).stock.buffer = [] ∧ (s.chan 0).stock.closed = false := by
  have hr := Run.of_exec
    (show exec (step (fun _ => side 0) sum [0]) opened decidedAfterDrop = some _
      from rfl)
  have h := inv_run (fun _ => lawful 0) (fun _ => inv_start trivial) (fun _ _ => rfl) hr
  exact ⟨_, _, hr, rfl, fun i hi => h.counts.finished rfl hi, rfl, rfl, rfl, rfl⟩

/-- A pull that comes to its first section with a value finds the select decided. -/
def beaten (ids : Ids ι) (channels : List γ) (s : State σ ι α γ) : Event ι α η γ → Bool
  | .decide i =>
    match s.got ids channels i with
    | .returned (some _) => s.st.decided
    | _ => true
  | _ => true

section Abandoned

variable [DecidableEq ι] [DecidableEq γ] {S : γ → Side σ η α} {Ok : γ → σ → Prop} {ids : Ids ι}
  {channels : List γ} {tr : List (State σ ι α γ × Event ι α η γ)} {s : State σ ι α γ}

/-- A pull that is beaten does not set the result. -/
theorem result_of_beaten {e : Event ι α η γ} {a : Act σ ι α γ} (hs : s.st.result = none)
    (hb : beaten ids channels s e = true) (ha : act S ids channels s e = some a) :
    a.next.st.result = none := by
  cases e with simp only [act] at ha
  | decide i =>
    split at ha
    · rename_i c hi hc
      obtain ⟨g, hg, rfl⟩ := map_eq_some_iff.mp ha
      rw [← got_eq hc] at hg
      dsimp only [SelectState.decide]
      split
      · exact hs
      · rename_i hd
        simp only [beaten] at hb
        split
        · split
          · exact hs
          · rfl
        · -- only this branch would set it
          rename_i v
          have hgot : s.got ids channels i = .returned (some v) := by
            revert hg
            cases s.got ids channels i <;> simp [outcome]
          rw [hgot] at hb
          exact absurd hb hd
        · rfl
    · cases ha
  | finish =>
    split at ha <;> cases ha
    dsimp only [SelectState.finish]
    split <;> exact hs
  | refuse =>
    split at ha <;> cases ha
    dsimp only [SelectState.failSelect]
    split <;> split <;> exact hs
  | _ =>
    (repeat' split at ha) <;>
      first
      | obtain rfl := some.inj ha
        exact hs
      | obtain ⟨m, -, rfl⟩ := map_eq_some_iff.mp ha
        exact hs
      | cases ha

/-- **An abandoned select swallows nothing if its pulls are beaten**: once they have finished, every
value that one of them obtained has been pushed back. -/
theorem abandoned_pushes_back {chan : γ → Mailbox.State σ ι α} (L : ∀ c, Lawful (S c) (Ok c))
    (hchan : ∀ c, Mailbox.Inv (S c) (Ok c) (chan c)) (hnew : ∀ c i, (chan c).recv (ids.pull i) = {})
    (hr : Run (step S ids channels) { chan := chan } tr s)
    (hbeaten : ∀ p ∈ tr, beaten ids channels p.1 p.2 = true)
    (hfin : ∀ i, s.pull i ≠ .idle → s.pull i = .finished) {i : ℕ} {v : α}
    (hv : s.got ids channels i = .returned (some v)) : (i, v) ∈ pushedBack S ids channels tr := by
  have hres : s.st.result = none := by
    refine hr.invariant (I := fun t => t.st.result = none)
      (fun t e => beaten ids channels t e = true) hbeaten rfl ?_
    intro t e u ht hb hs
    obtain ⟨a, ha, rfl⟩ := map_eq_some_iff.mp hs
    exact result_of_beaten ht hb ha
  refine (account_run L hchan hnew hr hfin hv).resolve_left fun h0 => ?_
  rw [hres] at h0
  cases h0.2

end Abandoned

/-- Both pulls are parked when `6` is handed to pull `1` and the caller's frame is destroyed. Pull
`0` is cancelled and decides, so pull `1` puts `6` back. -/
def cancelledFirst : List (Event (ℕ ⊕ ℕ) ℕ ℕ ℕ) :=
  [.start 0, .spawn, .spawn, .look, .suspend, .chan 0 (.receive (.inr 0) false),
    .chan 0 (.suspend (.inr 0) (some false)), .chan 0 (.retry (.inr 0)),
    .chan 1 (.receive (.inr 1) false), .chan 1 (.suspend (.inr 1) (some false)),
    .chan 1 (.retry (.inr 1)), .chan 1 (.send 6), .destroy, .dropStop, .chan 0 (.cancel (.inr 0)),
    .chan 0 (.wake (.inr 0)), .chan 0 (.resume (.inr 0) false), .decide 0, .stopAll 0,
    .chan 1 (.wake (.inr 1)), .chan 1 (.resume (.inr 1) false), .decide 1, .pushBack 1, .finish 0,
    .finish 1]

theorem abandoned_pushes_back_cancelledFirst : ∃ tr s,
    Run (step (fun _ => side 0) sum [0, 1]) opened tr s ∧ s.caller = .destroyed ∧
      (∀ p ∈ tr, beaten sum [0, 1] p.1 p.2 = true) ∧
      s.got sum [0, 1] 1 = .returned (some 6) ∧ (s.chan 1).stock.buffer = [6] ∧
      (1, 6) ∈ pushedBack (fun _ => side 0) sum [0, 1] tr := by
  have hr := Run.of_exec
    (show exec (step (fun _ => side 0) sum [0, 1]) opened cancelledFirst = some _
      from rfl)
  have h := inv_run (fun _ => lawful 0) (fun _ => inv_start trivial) (fun _ _ => rfl) hr
  exact ⟨_, _, hr, rfl, by decide, rfl, rfl,
    abandoned_pushes_back (fun _ => lawful 0) (fun _ => inv_start trivial)
      (fun _ _ => rfl) hr (by decide) (fun i hi => h.counts.finished rfl hi) rfl⟩

end Manwe.Select
