import Manwe.Wire.Mailbox.Runs

/-!
# The unbounded channel

`Channel` never makes a sender wait: `send` hands the value to the oldest parked receiver, or
buffers it, or refuses it because the channel is closed or its soft cap `maxBuffered` is reached
(zero meaning no cap). `pushFront` ignores the cap.

With the receive side of `Mailbox` this is the whole class. The results are the general ones,
read in terms of what `send` returned.
-/

namespace Manwe.Channel

open Mailbox Option

variable {ι α : Type*}

/-- The fields under the channel's mutex, apart from the waiters. -/
structure Core (α : Type*) where
  buffer : List α := []
  closed : Bool := false

/-- `send`, with the value it returns. -/
def send (maxBuffered : ℕ) (waiting : Bool) (c : Core α) (value : α) : Bool × Deal (Core α) α :=
  if c.closed then (false, { stock := c })
  else if waiting then (true, { stock := c, hand := some value, accepts := [value] })
  else if maxBuffered ≠ 0 ∧ maxBuffered ≤ c.buffer.length then (false, { stock := c })
  else (true, { stock := { c with buffer := c.buffer ++ [value] }, accepts := [value] })

/-- The class, apart from its receive side. -/
def side (maxBuffered : ℕ) : Side (Core α) α α where
  take c := match c.buffer with
    | [] => none
    | v :: rest => some (v, { c with buffer := rest }, [])
  pushFront v c := { c with buffer := v :: c.buffer }
  close c := { c with closed := true }
  closed := Core.closed
  buffer := Core.buffer
  act waiting c v := some (send maxBuffered waiting c v).2

abbrev State (ι : Type*) (α : Type*) := Mailbox.State (Core α) ι α

abbrev Event (ι : Type*) (α : Type*) := Mailbox.Event ι α α

def init : State ι α := { stock := {} }

theorem take_eq_none (maxBuffered : ℕ) {c : Core α} :
    (side maxBuffered).take c = none ↔ c.buffer = [] := by
  cases hb : c.buffer <;> simp [side, hb]

theorem lawful (maxBuffered : ℕ) : Lawful (side maxBuffered) fun _ : Core α => True where
  take_none _ h := (take_eq_none maxBuffered).mp h
  take_some := by
    intro c v c' acc _ h
    simp only [side] at h
    split at h
    · cases h
    · rename_i w rest hb
      obtain ⟨rfl, rfl, rfl⟩ : w = v ∧ _ = c' ∧ [] = acc := by simpa using h
      simp [side, hb]
  pushFront _ _ := ⟨trivial, rfl, rfl⟩
  close _ _ := ⟨trivial, rfl, rfl, fun h => by
    rw [take_eq_none] at h ⊢
    exact h⟩
  act := by
    intro w c v d _ hw h
    cases h
    cases w with
    | true =>
      obtain ⟨htake, hopen⟩ := hw rfl
      have hsend : send maxBuffered true c v = (true, ⟨c, some v, [v]⟩) := by
        simp [send, show c.closed = false from hopen]
      simp [hsend, htake]
    | false =>
      unfold send
      repeat' split
      all_goals simp_all [side]

/-! ### What senders are told -/

/-- The values for which `send` returned true, in order. -/
def sent (maxBuffered : ℕ) : List (State ι α × Event ι α) → List α :=
  logOf fun s e => e.sends.toList.filter fun v =>
    (send maxBuffered (!s.receivers.isEmpty) s.stock v).1

/-- The values given to `send` and `pushFront`. -/
def offers : List (State ι α × Event ι α) → List α := logOf fun _ e => e.sends.toList ++ e.fronts

/-- `send` accepts exactly what it returns true for. -/
theorem accepts_send (maxBuffered : ℕ) (w : Bool) (c : Core α) (v : α) :
    (send maxBuffered w c v).2.accepts = [v].filter fun v => (send maxBuffered w c v).1 := by
  unfold send
  repeat' split
  all_goals simp_all

theorem accepts_eq {maxBuffered : ℕ} {w p : Bool} {c c' : Core α} {x : Option α} {acc : List α}
    (h : StockStep (side maxBuffered) w c p x acc c') :
    acc = x.toList.filter fun v => (send maxBuffered w c v).1 := by
  cases h with
  | same | front | close => rfl
  | take h =>
    simp only [side] at h
    split at h
    · cases h
    · simp only [some.injEq, Prod.mk.injEq] at h
      exact h.2.2.symm
  | @act _ v d h =>
    cases h
    exact accepts_send maxBuffered w c v

section Runs

variable [DecidableEq ι] {maxBuffered : ℕ} {tr : List (State ι α × Event ι α)} {s : State ι α}
  (hr : Run (step (side maxBuffered)) init tr s)

include hr

theorem inv_of_run : Inv (side maxBuffered) (fun _ => True) s :=
  inv_run (lawful maxBuffered) trivial hr

theorem accepted_eq_sent : accepted (side maxBuffered) tr = sent maxBuffered tr := by
  induction hr with
  | start => rfl
  | @next tr s t e hr hs ih =>
    obtain ⟨a, ha, rfl⟩ := map_eq_some_iff.mp hs
    have h := accepts_eq (act_stock (inv_of_run hr) ha).1
    simp only [accepted, sent, logOf_snoc, ha, map_some, getD_some] at ih ⊢
    rw [ih, h]

/-- What flows in is what was sent successfully or pushed. -/
theorem mem_inflow {v : α} :
    v ∈ inflow (side maxBuffered) tr ↔ v ∈ sent maxBuffered tr ∨ v ∈ pushed tr := by
  rw [← accepted_eq_sent hr, (inflow_run (lawful maxBuffered) trivial hr).mem_iff, List.mem_append]

theorem inflow_sublist : (inflow (side maxBuffered) tr).Sublist (offers tr) := by
  induction hr with
  | start => exact List.Sublist.refl _
  | @next tr s t e hr hs ih =>
    obtain ⟨a, ha, rfl⟩ := map_eq_some_iff.mp hs
    obtain ⟨hstock, hfronts⟩ := act_stock (inv_of_run hr) ha
    simp only [inflow, offers, logOf_snoc, ha, map_some, getD_some] at ih ⊢
    rw [accepts_eq hstock, hfronts]
    exact ih.append (List.filter_sublist.append (List.Sublist.refl _))

/-- **`Channel` conserves values and strands no receiver.** -/
theorem channel_conserves (hdistinct : (offers tr).Nodup) :
    (s.receivers ≠ [] → s.stock.buffer = [] ∧ s.stock.closed = false) ∧
    (∀ v, v ∈ sent maxBuffered tr ∨ v ∈ pushed tr → ∃! p, At (side maxBuffered) s p v) ∧
    (∀ i x, (s.recv i).pc = .threw x → ∀ v, (i, v) ∉ taken (side maxBuffered) tr) ∧
    ((∀ p ∈ tr, p.2.forward = true) →
      (taken (side maxBuffered) tr).map Prod.snd ++ s.stock.buffer = sent maxBuffered tr) := by
  have L := lawful (α := α) maxBuffered
  have hinv := inv_of_run hr
  have hacc := accounts_run L trivial hr rfl ((inflow_sublist hr).nodup hdistinct)
  refine ⟨fun hne => ?_, fun v hv => ?_, fun i x hi v => ?_, fun hfwd => ?_⟩
  · obtain ⟨htake, hopen⟩ := hinv.waiting hne
    exact ⟨(take_eq_none maxBuffered).mp htake, hopen⟩
  · exact hinv.existsUnique_at hacc ((mem_inflow hr).mpr hv)
  · exact not_taken_of_threw L trivial hr hi v
  · rw [← accepted_eq_sent hr]
    exact fifo_run L trivial hr rfl hfwd

end Runs

/-- Receiver `0` parks and is given `5`, but its frame is destroyed before it wakes: `5` goes to
receiver `1`, parked behind it. Receiver `2` times out. A soft cap of one refuses `8`. -/
def orphanedValue : List (Event ℕ ℕ) :=
  [.receive 0 false, .suspend 0 none, .receive 1 false, .suspend 1 none, .send 5, .destroy 0,
    .putBack 0, .wake 1, .resume 1 false, .receive 2 true, .suspend 2 (some false), .retry 2,
    .cancel 2, .wake 2, .resume 2 true, .send 7, .send 8, .pushFront 6]

theorem channel_conserves_orphanedValue : ∃ tr s,
    Run (step (side 1)) (init : State ℕ ℕ) tr s ∧ (offers tr).Nodup ∧
      (s.recv 1).pc = .returned (some 5) ∧ (s.recv 2).pc = .threw .timeout ∧
      s.stock.buffer = [6, 7] ∧ sent 1 tr = [5, 7] ∧
      ∀ v, v ∈ sent 1 tr ∨ v ∈ pushed tr → ∃! p, At (side 1) s p v := by
  have hr := Run.of_exec
    (show exec (step (side 1)) (init : State ℕ ℕ) orphanedValue = some _ from rfl)
  exact ⟨_, _, hr, by decide, rfl, rfl, rfl, rfl, (channel_conserves hr (by decide)).2.1⟩

end Manwe.Channel
