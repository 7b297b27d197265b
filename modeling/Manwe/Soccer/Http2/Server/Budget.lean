import Mathlib
import Manwe.Soccer.Http2.Server.Runs

/-!
# The body budget of a connection

`bodyBytesInFlight` counts the DATA accepted on the streams of the map, and no chunk is accepted
that would take it beyond `maxConnectionBodyBytes`. The counter outlives the move of a body from its
stream to a handler: it goes down **when the stream is closed**. So it bounds the bodies that are
held only as long as no stream is closed while a handler holds its body (`bodies_budgeted`); a
client that resets the stream gets the budget back at once, and the handler goes on
(`bodies_beyond_budget`).
-/

namespace Manwe.Http2.Server

open Http List Table ServerStream

variable {o : Http2ServerOptions} {s t : State} {e : Event} {tr : List (State × Event)}
  {a a' : Option ServerStream} {h h' : Handler} {k : ℕ}

/-! ### The counter -/

/-- **The counter is the sum of what the streams account for**, within the budget. -/
structure Accounted (o : Http2ServerOptions) (s : State) : Prop where
  flight : s.bodyBytesInFlight = s.streams.total bodyBytes
  budget : o.maxConnectionBodyBytes ≠ 0 → s.bodyBytesInFlight ≤ o.maxConnectionBodyBytes

theorem walked_bodyBytes (st : ServerStream) : st.walked.bodyBytes = st.bodyBytes := by
  rw [walked]
  split_ifs <;> rfl

theorem Accounted.step (ha : Accounted o s) (hi : Shared o s) (hs : step o s e = some t) :
    Accounted o t := by
  have hflight := ha.flight
  cases change_of_step hs with
  | create new =>
    refine ⟨?_, ha.budget⟩
    simp only [total_emplace _ (hi.fresh _ new).1, hflight, zero_add]
  | @header id name value =>
    refine ⟨hflight.trans (total_adjust_of_eq _ _ fun st => ?_).symm, ha.budget⟩
    exact (st.headOnly_onHeader o name value).bodyBytes
  | complete | submit | leave =>
    refine ⟨hflight.trans (total_adjust_of_eq _ _ fun st => ?_).symm, ha.budget⟩
    rfl
  | reject found =>
    have htot := total_adjust bodyBytes rejectBody found
    refine ⟨?_, fun h0 => (Nat.sub_le _ _).trans (ha.budget h0)⟩
    simp only [rejectBody, State.adjust] at htot ⊢
    omega
  | @take id chunk st found receiving budget =>
    have htot := total_adjust bodyBytes (fun st => st.takeChunk chunk) found
    refine ⟨?_, fun h0 => by simpa [State.overBudget, h0] using budget⟩
    simp only [takeChunk, State.adjust] at htot ⊢
    omega
  | close found =>
    have htot := total_erase bodyBytes found
    refine ⟨?_, fun h0 => (Nat.sub_le _ _).trans (ha.budget h0)⟩
    simp only
    omega
  | dispatch =>
    exact ⟨hflight.trans (total_map _ _ fun _ st => walked_bodyBytes st).symm, ha.budget⟩
  | _ => exact ⟨hflight, ha.budget⟩

theorem accounted_run (hrun : Run (step o) {} tr s) : Accounted o s := by
  induction hrun with
  | start => exact ⟨rfl, fun _ => Nat.zero_le _⟩
  | next hrun hs ih => exact ih.step (shared_run hrun) hs

/-! ### Who holds a body -/

/-- **The entry accounts for what it and its handler hold.** -/
structure Paid (a : Option ServerStream) (h : Handler) : Prop where
  entry : ∀ st, a = some st → st.req.body.length + h.req.body.length ≤ st.bodyBytes
  gone : a = none → h.req.body = []
  absent : h.phase = .absent → h.req.body = []

/-- No stream is closed under a handler that holds its body. -/
def settled (s : State) : Event → Bool
  | .close id => (s.handlers id).req.body.isEmpty
  | _ => true

/-- The entry changes and accounts for no less. -/
theorem Paid.change {st st' : ServerStream} (hp : Paid (some st) h)
    (hb : st'.req.body.length + st.bodyBytes ≤ st.req.body.length + st'.bodyBytes) :
    Paid (some st') h where
  entry := fun _ heq => by
    cases heq
    have := hp.entry st rfl
    omega
  gone := nofun
  absent := hp.absent

/-- The handler lets go of the request, or keeps it. -/
theorem Paid.handler (hp : Paid a h) (hreq : h'.req.body = h.req.body ∨ h'.req.body = [])
    (hne : h'.phase ≠ .absent) : Paid a h' where
  entry := fun st heq => by
    have := hp.entry st heq
    obtain hr | hr := hreq <;> rw [hr]
    · exact this
    · exact (Nat.add_le_add_left (Nat.zero_le _) _).trans this
  gone := fun hn => hreq.elim (fun hr => hr.trans (hp.gone hn)) fun hr => hr
  absent := fun h => absurd h hne

theorem Paid.touch (hp : Paid a h) (hslot : Slot a h) (ht : Touch o s k e a h a' h')
    (hclose : e = .close k → h.req.body = []) : Paid a' h' := by
  cases ht with
  | same | quiet | absent => exact hp
  | create =>
    refine ⟨fun _ heq => ?_, nofun, hp.absent⟩
    cases heq
    simp [hp.gone rfl]
  | @header name value st =>
    have hk := st.headOnly_onHeader o name value
    exact hp.change (by rw [hk.body, hk.bodyBytes])
  | @reject chunk st _ receiving =>
    -- nothing was dispatched yet, so the handler holds nothing
    have habs : h.phase = .absent := by
      by_contra hne
      have := (hslot.started st rfl hne).1
      rw [receiving] at this
      cases this
    refine ⟨fun _ heq => ?_, nofun, hp.absent⟩
    cases heq
    simp [hp.absent habs]
  | take =>
    refine hp.change ?_
    simp only [takeChunk, length_append]
    omega
  | complete => exact hp.change le_rfl
  | close => exact ⟨nofun, fun _ => hclose rfl, hp.absent⟩
  | @dispatch st _ ready =>
    refine ⟨fun _ heq => ?_, nofun, nofun⟩
    cases heq
    rw [walked_of_ready ready]
    have := hp.entry st rfl
    simp only [length_nil]
    omega
  | pass ready => exact hp.change (by rw [walked_of_not_ready ready])
  | move silent moves => exact hp.handler (.inl rfl) (Phase.ne_absent_of_alive moves.alive.2)
  | finish | retire | orphan =>
    exact hp.handler (.inr rfl) nofun
  | submit => exact (hp.change (by exact le_rfl)).handler (.inl rfl) nofun
  | leave => exact (hp.change (by exact le_rfl)).handler (.inr rfl) nofun

theorem paid_run (hrun : Run (step o) {} tr s) (hok : ∀ p ∈ tr, settled p.1 p.2 = true) (id : ℕ) :
    Paid (s.streams.find id) (s.handlers id) := by
  refine hrun.induct (fun s e => settled s e = true) hok ⟨nofun, fun _ => rfl, fun _ => rfl⟩
    fun hrun _ ih hset hs => ?_
  have hi := shared_run hrun
  refine ih.touch (hi.slot id) (hi.touch (change_of_step hs) id) fun he => ?_
  rw [he] at hset
  exact isEmpty_iff.1 hset

/-! ### The budget -/

/-- The bodies in the map and in the handlers of `ids`. -/
def State.held (s : State) (ids : List ℕ) : ℕ := s.streams.total (fun st => st.req.body.length) +
    (ids.map fun id => (s.handlers id).req.body.length).sum

/-- **The bodies that are held stay within the budget**, in a run in which no stream is closed while
a handler holds its body. -/
theorem bodies_budgeted (hc : 0 < o.maxConnectionBodyBytes) (hrun : Run (step o) {} tr s)
    (hok : ∀ p ∈ tr, settled p.1 p.2 = true) (ids : List ℕ) (hids : ids.Nodup) :
    s.held ids ≤ o.maxConnectionBodyBytes := by
  have hpaid := paid_run hrun hok
  have ha := accounted_run hrun
  have hhandlers : (ids.map fun id => (s.handlers id).req.body.length).sum ≤
      s.streams.total fun st => st.bodyBytes - st.req.body.length := by
    refine le_trans (sum_le_sum fun id _ => ?_) (sum_find_le_total _ hids)
    cases hf : s.streams.find id with
    | none => simp [(hpaid id).gone hf]
    | some st =>
      have := (hpaid id).entry st hf
      simp only [Option.elim_some]
      omega
  have hsplit : (s.streams.total fun st => st.req.body.length) +
      (s.streams.total fun st => st.bodyBytes - st.req.body.length) =
      s.streams.total bodyBytes := by
    simp only [total, ← sum_map_add]
    refine congrArg sum (map_congr_left fun p hp => ?_)
    have := (hpaid p.1).entry p.2 (find_eq_some.2 hp)
    omega
  have := ha.budget hc.ne'
  rw [ha.flight] at this
  unfold State.held
  omega

/-- Two requests with bodies, answered one after the other. -/
def oneAfterTheOther : List Event :=
  [.beginHeaders 1, .data 1 (bytes "12345678"), .frame 1 true, .dispatch, .start 1, .look 1,
    .finish 1,
    .recheck 1, .submit 1, .close 1, .beginHeaders 3, .data 3 (bytes "12345678"), .frame 3 true,
      .dispatch,
    .start 3, .look 3]

theorem bodies_budgeted_inTurn : ∃ tr s, Run (step { maxConnectionBodyBytes := 10 }) {} tr s ∧
    (s.handlers 3).phase = .running ∧ s.held [1, 3] = 8 ∧ s.held [1, 3] ≤ 10 := by
  have h : Run (step { maxConnectionBodyBytes := 10 }) {} _ _ :=
    .follow oneAfterTheOther (by decide +kernel)
  exact ⟨_, _, h, by decide +kernel, by decide +kernel,
    bodies_budgeted (by decide) h (by decide +kernel) [1, 3] (by decide)⟩

/-- The first stream is reset while its handler runs, and the budget is spent again. -/
def resetUnderHandler : List Event :=
  [.beginHeaders 1, .data 1 (bytes "12345678"), .frame 1 true, .dispatch, .start 1, .look 1,
    .close 1,
    .beginHeaders 3, .data 3 (bytes "12345678")]

theorem bodies_beyond_budget : ∃ tr s, Run (step { maxConnectionBodyBytes := 10 }) {} tr s ∧
    (s.handlers 1).phase = .running ∧ s.bodyBytesInFlight = 8 ∧ s.held [1] = 16 :=
  Run.exists_of_exec resetUnderHandler (by decide +kernel)

end Manwe.Http2.Server
