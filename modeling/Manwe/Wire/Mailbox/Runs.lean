import Manwe.Wire.Mailbox.Calls

/-!
# Whole runs of a channel

What flows into a channel is in exactly one place afterwards (`accounts_run`), is given away in
the order of acceptance as long as nothing is sent back (`fifo_run`), and is not taken by a call
that throws (`not_taken_of_threw`). The fields of the class see a run as a sequence of their own
operations (`StockStep`).
-/

namespace Manwe.Mailbox

open Option List

variable {σ ι α η : Type*}
  {S : Side σ η α} {Ok : σ → Prop} {s : State σ ι α} [DecidableEq ι]

/-! ### The fields of the class -/

/-- What the step asks of the senders. -/
def Event.sends : Event ι η α → Option η
  | .send x => some x
  | _ => none

/-- What the step puts in front. -/
def Event.fronts : Event ι η α → List α
  | .pushFront v => [v]
  | _ => []

/-- What a step does to the fields of the class, seen from there: `w` says whether a receiver is
parked. A plain step puts nothing in front. -/
inductive StockStep (S : Side σ η α) (w : Bool) (st : σ) : Bool → Option η → List α → σ → Prop
  | same {p : Bool} : StockStep S w st p none [] st
  | take {p : Bool} {v : α} {st' : σ} {acc : List α} : S.take st = some (v, st', acc) →
      StockStep S w st p none acc st'
  | front (v : α) : StockStep S w st false none [] (S.pushFront v st)
  | close {p : Bool} : S.closed st = false → StockStep S w st p none [] (S.close st)
  | act {p : Bool} {x : η} {d : Deal σ α} : S.act w st x = some d →
      StockStep S w st p (some x) d.accepts d.stock

theorem stockStep_pushFrontCore (s : State σ ι α) (w : Bool) (v : α) :
    StockStep S w s.stock false none [] (pushFrontCore S s v).1.stock := by
  unfold pushFrontCore
  split
  · split
    · exact .same
    · exact .front v
  · exact .front v

variable {v : α} {A : List α} {e : Event ι η α} {i : ι} {a : Act σ ι α}

theorem Own.stock (ho : Own S s e i a) (w p : Bool) :
    StockStep S w s.stock p none a.accepts a.next.stock ∧ a.fronts = [] := by
  cases ho with
  | take _ ht => exact ⟨.take ht, rfl⟩
  | stay | park | leave => exact ⟨.same, rfl⟩

/-- Every step makes one step of the fields of the class. -/
theorem act_stock (h : Inv S Ok s) (ha : act S s e = some a) :
    StockStep S (!s.receivers.isEmpty) s.stock e.plain e.sends a.accepts a.next.stock ∧
      a.fronts = e.fronts := by
  cases he : e.call with
  | some =>
    by_cases hp : e.plain = true
    · have hown := (act_own h ha hp he).stock (!s.receivers.isEmpty) e.plain
      cases e with
      | pushFront | close | send => cases he
      | _ => exact hown
    · cases e with
      | putBack k =>
        simp only [act] at ha
        split at ha <;> cases ha
        exact ⟨stockStep_pushFrontCore (s.set k _) _ _, rfl⟩
      | pushFront => cases he
      | _ => exact absurd rfl hp
  | none =>
    cases e with
    | pushFront v =>
      cases ha
      exact ⟨stockStep_pushFrontCore s _ v, rfl⟩
    | close =>
      cases ha
      dsimp only [close]
      split_ifs with hopen
      · exact ⟨.same, rfl⟩
      · exact ⟨.close (by simpa using hopen), rfl⟩
    | send =>
      obtain ⟨d, hd, rfl⟩ := map_eq_some_iff.mp ha
      unfold deal
      split
      all_goals exact ⟨.act hd, rfl⟩
    | _ => cases he

/-! ### Where values are -/

/-- The places of a value that has been accepted. -/
inductive Place (ι : Type*)
  | result (i : ι)
  | buffer (k : ℕ)
  | slot (i : ι)
  /-- the hands of a destructor about to put it back -/
  | hand (i : ι)

def At (S : Side σ η α) (s : State σ ι α) : Place ι → α → Prop
  | .result i, v => (s.recv i).pc = .returned (some v)
  | .buffer k, v => (S.buffer s.stock)[k]? = some v
  | .slot i, v => (s.recv i).slot = some v
  | .hand i, v => (s.recv i).pc = .putBack v

omit [DecidableEq ι] in
/-- A call has what it holds in one of three places. -/
theorem Inv.held_iff (h : Inv S Ok s) : (s.recv i).held = some v ↔
    At S s (.result i) v ∨ At S s (.slot i) v ∨ At S s (.hand i) v := by
  have hslot := fun h1 h2 => (h.wf i).slot_eq h1 h2
  simp only [At]
  cases hpc : (s.recv i).pc <;> simp_all [RecvCall.held]

omit [DecidableEq ι] in
/-- Whatever is somewhere has been accepted. -/
theorem Inv.mem_of_at (h : Inv S Ok s) (hA : Stash.Accounts A (s.stash S)) {p : Place ι}
    (hp : At S s p v) : v ∈ A := by
  refine hA.mem.mpr ?_
  cases p with
  | buffer => exact .inl (mem_of_getElem? hp)
  | result i | slot i | hand i => exact .inr ⟨i, h.held_iff.mpr (by tauto)⟩

omit [DecidableEq ι] in
/-- Nothing is at two places. -/
theorem Inv.at_unique (h : Inv S Ok s) (hA : Stash.Accounts A (s.stash S)) {p q : Place ι}
    (hp : At S s p v) (hq : At S s q v) : p = q := by
  have hslot := fun i => (h.wf i).slot_eq
  have hbuf : ∀ {i k}, (s.recv i).held = some v → ¬ At S s (.buffer k) v := fun hi hk =>
    hA.notQueued hi (mem_of_getElem? hk)
  have hone : ∀ {i j}, (s.recv i).held = some v → (s.recv j).held = some v → i = j := hA.one
  cases p with
  | buffer =>
    cases q with
    | buffer =>
      obtain ⟨hk, hk1⟩ := List.getElem?_eq_some_iff.mp hp
      obtain ⟨hk', hk2⟩ := List.getElem?_eq_some_iff.mp hq
      rw [hA.nodup.getElem_inj_iff.mp (hk1.trans hk2.symm)]
    | result i | slot i | hand i => exact absurd hp (hbuf ((h.held_iff (i := i)).mpr (by tauto)))
  | result i | slot i | hand i =>
    have hi : (s.recv i).held = some v := h.held_iff.mpr (by tauto)
    cases q with
    | buffer => exact absurd hq (hbuf hi)
    | result j | slot j | hand j =>
      -- who holds a value holds it in one way only
      obtain rfl := hone hi ((h.held_iff (i := j)).mpr (by tauto))
      simp_all [At]

omit [DecidableEq ι] in
/-- **An accepted value is in exactly one place.** -/
theorem Inv.existsUnique_at (h : Inv S Ok s) (hA : Stash.Accounts A (s.stash S)) (hv : v ∈ A) :
    ∃! p, At S s p v := by
  have hex : ∃ p, At S s p v := by
    rcases hA.mem.mp hv with hv | ⟨i, hi⟩
    · obtain ⟨k, hk⟩ := getElem?_of_mem hv
      exact ⟨.buffer k, hk⟩
    · rcases h.held_iff.mp hi with hp | hp | hp
      · exact ⟨.result i, hp⟩
      · exact ⟨.slot i, hp⟩
      · exact ⟨.hand i, hp⟩
  obtain ⟨p, hp⟩ := hex
  exact ⟨p, hp, fun q hq => h.at_unique hA hq hp⟩

/-! ### Whole runs -/

section Runs

variable {tr : List (State σ ι α × Event ι η α)} {st : σ}

/-- The values accepted in a run, at the end and at the front. -/
def inflow (S : Side σ η α) : List (State σ ι α × Event ι η α) → List α :=
  logOf fun s e => ((act S s e).map fun a => a.accepts ++ a.fronts).getD []

/-- The values accepted from senders, in the order of acceptance. -/
def accepted (S : Side σ η α) : List (State σ ι α × Event ι η α) → List α :=
  logOf fun s e => ((act S s e).map Act.accepts).getD []

/-- The values given to `pushFront`. -/
def pushed : List (State σ ι α × Event ι η α) → List α := logOf fun _ e => e.fronts

/-- What was given to which receive, in order. -/
def taken (S : Side σ η α) : List (State σ ι α × Event ι η α) → List (ι × α) :=
  logOf fun s e => ((act S s e).map Act.takes).getD []

variable (L : Lawful S Ok) (hst : Ok st) (hr : Run (step S) { stock := st } tr s)

include L hst hr

/-- **Representation invariant** of every reachable state. -/
theorem inv_run : Inv S Ok s := by
  induction hr with
  | start => exact inv_start hst
  | next _ hs ih =>
    obtain ⟨a, ha, rfl⟩ := map_eq_some_iff.mp hs
    exact (act_moved L ih ha).inv

/-- **Conservation.** If the accepted values are distinct, each is in exactly one place. -/
theorem accounts_run (hempty : S.buffer st = []) (hnew : (inflow S tr).Nodup) :
    Stash.Accounts (inflow S tr) (s.stash S) := by
  induction hr with
  | start =>
    have h := Stash.Accounts.empty (ι := ι) (α := α)
    rw [State.stash, hempty]
    exact h
  | @next tr s t e hr hs ih =>
    obtain ⟨a, ha, rfl⟩ := map_eq_some_iff.mp hs
    have hlog : inflow S (tr ++ [(s, e)]) = inflow S tr ++ (a.accepts ++ a.fronts) := by
      simp [inflow, ha]
    rw [hlog] at hnew ⊢
    have hm := (act_moved L (inv_run L hst hr) ha).move
    exact hm.accounts hnew (ih (nodup_append.mp hnew).1)

/-- What flows in is what is accepted from senders or pushed. -/
theorem inflow_run : (inflow S tr).Perm (accepted S tr ++ pushed tr) := by
  have hlog : inflow S tr =
      logOf (fun s e => ((act S s e).map Act.accepts).getD [] ++ e.fronts) tr := by
    induction hr with
    | start => rfl
    | @next tr s t e hr hs ih =>
      obtain ⟨a, ha, rfl⟩ := map_eq_some_iff.mp hs
      have hfronts := (act_stock (inv_run L hst hr) ha).2
      simp only [inflow, logOf_snoc, ha, map_some, getD_some] at ih ⊢
      rw [ih, hfronts]
  rw [hlog]
  exact logOf_append _ _ _

theorem no_putBack_run (hfwd : ∀ p ∈ tr, p.2.forward = true) (j : ι) (v : α) :
    (s.recv j).pc ≠ .putBack v := by
  refine hr.induct (fun _ e => e.forward = true) hfwd (by simp) fun hr _ ih he hs hj => ih ?_
  obtain ⟨a, ha, rfl⟩ := map_eq_some_iff.mp hs
  exact putBack_of_putBack (inv_run L hst hr) ha (by rintro i rfl; cases he) hj

/-- A step of a run in which no receiver's frame is destroyed sends nothing back. -/
theorem plain_run {e : Event ι η α} {a : Act σ ι α} (hfwd : ∀ p ∈ tr, p.2.forward = true)
    (he : e.forward = true) (ha : act S s e = some a) : e.plain = true := by
  cases e with
  | pushFront => cases he
  | putBack i =>
    simp only [act] at ha
    split at ha
    · -- only a destroyed frame has something to put back
      rename_i hpc
      exact absurd hpc (no_putBack_run L hst hr hfwd i _)
    · cases ha
  | _ => rfl

/-- **Order.** In a run without `pushFront` and without destroyed receivers, values are given away
in the order in which they were accepted. -/
theorem fifo_run (hempty : S.buffer st = []) (hfwd : ∀ p ∈ tr, p.2.forward = true) :
    (taken S tr).map Prod.snd ++ S.buffer s.stock = accepted S tr := by
  refine hr.induct (fun _ e => e.forward = true) hfwd (by simp [taken, accepted, hempty])
    fun hr hfwd ih he hs => ?_
  obtain ⟨a, ha, rfl⟩ := map_eq_some_iff.mp hs
  have h := (act_fed L (inv_run L hst hr) (plain_run L hst hr hfwd he ha) ha).feed.fifo ih
  simpa [taken, accepted, ha, State.stash] using h

/-- A receive that was given a value has it, returned it or had it put back. -/
theorem taken_run {p : ι × α} (hp : p ∈ taken S tr) :
    (s.recv p.1).held = some p.2 ∨ (s.recv p.1).pc = .destroyed := by
  induction hr with
  | start => simp [taken] at hp
  | @next tr s t e hr hs ih =>
    have h := inv_run L hst hr
    obtain ⟨a, ha, rfl⟩ := map_eq_some_iff.mp hs
    have hlog : taken S (tr ++ [(s, e)]) = taken S tr ++ a.takes := by simp [taken, ha]
    rw [hlog, mem_append] at hp
    rcases hp with hp | hp
    · -- a value is given up only by a destroyed call, which stays as it is
      rcases ih hp with hheld | hd
      · exact held_or_destroyed L h ha hheld
      · exact .inr (by rw [recv_of_over h ha (by rw [hd]; rfl), hd])
    · exact .inl ((act_moved L h ha).move.taken hp)

/-- **A receive that throws has taken nothing.** -/
theorem not_taken_of_threw {j : ι} {x : Exn} (hj : (s.recv j).pc = .threw x) (v : α) :
    (j, v) ∉ taken S tr := by
  intro hp
  have hslot := ((inv_run L hst hr).wf j).slot_eq (by simp [hj]) (by simp [hj])
  rcases taken_run L hst hr hp with hheld | hd
  · simp [RecvCall.held, hj, hslot] at hheld
  · rw [hj] at hd
    cases hd

end Runs

end Manwe.Mailbox
