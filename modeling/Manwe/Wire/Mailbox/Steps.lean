import Manwe.Wire.Mailbox

/-!
# What the steps of a channel do to its values

Every step feeds the `Stash` of accepted values, or sends one back (`act_moved`). The steps of a
call on its own behalf are described once, by `Own`: the call moves on with what it has, takes what
there is, joins the queue or leaves it, and stands afterwards as `After` says. Whatever is needed
about single steps is read off this description.
-/

namespace Manwe.Mailbox

open Function List RecvCall State

variable {σ ι α η : Type*}

/-! ### What every step keeps -/

/-- A call's flags agree with its control point. -/
structure RecvCall.Wf (c : RecvCall α) : Prop where
  queued : c.queued = true → c.pc = .parked ∧ c.slot = none ∧ c.cancelled = false
  slot : c.slot ≠ none → c.cancelled = false ∧ (c.pc = .parked ∨ c.pc = .resuming)
  fresh : c.pc = .idle ∨ c.pc = .looked ∨ c.pc = .arming → c.cancelled = false

/-- **The representation invariant**: the queue lists the queued calls, and a receiver waits only
while there is nothing to take and the channel is open. -/
structure Inv (S : Side σ η α) (Ok : σ → Prop) (s : State σ ι α) : Prop where
  ok : Ok s.stock
  nodup : s.receivers.Nodup
  mem : ∀ {i}, i ∈ s.receivers ↔ (s.recv i).queued = true
  wf : ∀ i, (s.recv i).Wf
  waiting : s.receivers ≠ [] → S.take s.stock = none ∧ S.closed s.stock = false

theorem wf_default : ({} : RecvCall α).Wf := ⟨by simp, by simp, by simp⟩

theorem inv_start {S : Side σ η α} {Ok : σ → Prop} {st : σ} (hst : Ok st) :
    Inv S Ok ({ stock := st } : State σ ι α) :=
  ⟨hst, nodup_nil, by simp, fun _ => wf_default, by simp⟩

variable {S : Side σ η α} {Ok : σ → Prop} {s : State σ ι α} {c : RecvCall α}

theorem RecvCall.Wf.slot_eq (h : c.Wf) (h1 : c.pc ≠ .parked) (h2 : c.pc ≠ .resuming) :
    c.slot = none := by
  by_contra hs
  rcases (h.slot hs).2 with h' | h'
  · exact h1 h'
  · exact h2 h'

theorem RecvCall.Wf.queued_eq (h : c.Wf) (h1 : c.pc ≠ .parked) : c.queued = false := by
  by_contra hq
  exact h1 (h.queued (by simpa using hq)).1

theorem RecvCall.Wf.outside (h : c.Wf) (h1 : c.pc ≠ .parked) (h2 : c.pc ≠ .resuming) :
    c.slot = none ∧ c.queued = false :=
  ⟨h.slot_eq h1 h2, h.queued_eq h1⟩

/-- Nobody waits for what can be taken. -/
theorem Inv.receivers_eq (h : Inv S Ok s) {r : α × σ × List α} (ht : S.take s.stock = some r) :
    s.receivers = [] := by
  by_contra hne
  rw [(h.waiting hne).1] at ht
  cases ht

variable {i : ι} {rest : List ι}

/-- The oldest parked receiver has been given nothing yet. -/
theorem Inv.held_first (h : Inv S Ok s) (hr : s.receivers = i :: rest) :
    (s.recv i).held = none := by
  obtain ⟨hpc, hslot, -⟩ := (h.wf i).queued (h.mem.mp (by simp [hr]))
  simp [held, hpc, hslot]

theorem held_parked (hpc : c.pc = .parked) (v : α) :
    ({ c with slot := some v, queued := false } : RecvCall α).held = some v := by
  simp [held, hpc]

variable [DecidableEq ι]

/-- A step that keeps the representation and feeds the stash. -/
structure Fed (S : Side σ η α) (Ok : σ → Prop) (s : State σ ι α) (a : Act σ ι α) : Prop where
  inv : Inv S Ok a.next
  feed : (s.stash S).Feed a.accepts a.takes (a.next.stash S)
  fronts : a.fronts = []

theorem recv_set (s : State σ ι α) (i j : ι) (c : RecvCall α) :
    (s.set i c).recv j = if j = i then c else s.recv j := by
  simp [State.set, update_apply]

theorem wf_set (h : ∀ j, (s.recv j).Wf) (hc : c.Wf) (j : ι) : ((s.set i c).recv j).Wf := by
  rw [recv_set]
  split
  · exact hc
  · exact h j

/-- The queue is still right when `i` has neither joined nor left it. -/
theorem mem_set (h : Inv S Ok s) (hq : c.queued = (s.recv i).queued) (j : ι) :
    j ∈ s.receivers ↔ ((s.set i c).recv j).queued = true := by
  rw [recv_set]
  split_ifs with hj
  · rw [hj, hq]
    exact h.mem
  · exact h.mem

theorem Inv.set (h : Inv S Ok s) (hq : c.queued = (s.recv i).queued) (hw : c.Wf) :
    Inv S Ok (s.set i c) :=
  ⟨h.ok, h.nodup, mem_set h hq _, wf_set h.wf hw, h.waiting⟩

/-- After a call's own step, only what it holds can have changed. -/
theorem held_set (s : State σ ι α) (i : ι) (c : RecvCall α) :
    (fun j => ((s.set i c).recv j).held) =
      update (fun j => (s.recv j).held) i c.held := by
  funext j
  rw [recv_set, update_apply]
  split <;> rfl

theorem held_set_eq (hh : c.held = (s.recv i).held) :
    (fun j => ((s.set i c).recv j).held) = fun j => (s.recv j).held := by
  rw [held_set, hh, update_eq_self]

/-- A call's own step that gives it nothing and takes nothing from it. -/
theorem fed_set (h : Inv S Ok s) (hq : c.queued = (s.recv i).queued) (hw : c.Wf)
    (hh : c.held = (s.recv i).held) : Fed S Ok s { next := s.set i c } := by
  refine ⟨h.set hq hw, ?_, rfl⟩
  have hstash : (s.set i c).stash S = s.stash S := by
    unfold stash
    rw [held_set_eq hh]
    rfl
  rw [hstash]
  exact .idle _

variable {v : α}

/-- A call takes the front of what there is. -/
theorem fed_take (L : Lawful S Ok) (h : Inv S Ok s) {st : σ} {acc : List α}
    (ht : S.take s.stock = some (v, st, acc)) (hi : (s.recv i).held = none)
    (hq : c.queued = (s.recv i).queued) (hw : c.Wf) (hh : c.held = some v) :
    Fed S Ok s
      { next := { s.set i c with stock := st }, accepts := acc, takes := [(i, v)] } := by
  have hnone := h.receivers_eq ht
  obtain ⟨hok, hbuf, -⟩ := L.take_some h.ok ht
  refine ⟨⟨hok, h.nodup, mem_set h hq _, wf_set h.wf hw, fun hne => absurd hnone hne⟩, ?_, rfl⟩
  have hheld := held_set s i c
  rw [hh] at hheld
  have hstash : stash S { s.set i c with stock := st } = ⟨S.buffer st, _⟩ :=
    congrArg (Stash.mk _) hheld
  exact hstash.symm ▸ Stash.Feed.take hi hbuf

/-- A call joins the queue. -/
theorem fed_park (h : Inv S Ok s) (ht : S.take s.stock = none) (hopen : S.closed s.stock = false)
    (hi : (s.recv i).queued = false) (hq : c.queued = true) (hw : c.Wf)
    (hh : c.held = (s.recv i).held) :
    Fed S Ok s { next := { s.set i c with receivers := s.receivers ++ [i] } } := by
  have hni : i ∉ s.receivers := by rw [h.mem, hi]; simp
  refine ⟨⟨h.ok, ?_, fun {j} => ?_, wf_set h.wf hw, fun _ => ⟨ht, hopen⟩⟩, ?_, rfl⟩
  · refine nodup_append.mpr ⟨h.nodup, by simp, ?_⟩
    rintro j hj k hk rfl
    exact hni (mem_singleton.mp hk ▸ hj)
  · rw [recv_set, mem_append, mem_singleton]
    split_ifs with hj
    · simp [hj, hq]
    · simpa [hj] using h.mem
  · have hstash := held_set_eq hh
    rw [stash, stash]
    exact hstash ▸ .idle _

/-- A queued call leaves the queue with nothing. -/
theorem fed_unlink (h : Inv S Ok s) (hi : (s.recv i).queued = true)
    (hw : { c with queued := false }.Wf) (hh : c.held = none) :
    Fed S Ok s { next := unlinkLocked s i c } := by
  obtain ⟨hpc, hslot, -⟩ := (h.wf i).queued hi
  refine ⟨⟨h.ok, h.nodup.erase i, fun {j} => ?_, wf_set h.wf hw, fun hne => ?_⟩, ?_, rfl⟩
  · change j ∈ s.receivers.erase i ↔ ((s.set i _).recv j).queued = true
    rw [recv_set, h.nodup.mem_erase_iff]
    split_ifs with hj
    · simp [hj]
    · simpa [hj] using h.mem
  · refine h.waiting fun hnil => hne ?_
    simp [unlinkLocked, hnil]
  · have hheld : { c with queued := false }.held = (s.recv i).held := by
      have h1 : { c with queued := false }.held = c.held := rfl
      rw [h1, hh]
      simp [held, hpc, hslot]
    have hstash := held_set_eq hheld
    rw [stash, stash]
    exact hstash ▸ .idle _

theorem Inv.give (h : Inv S Ok s) (hr : s.receivers = i :: rest) (v : α) :
    Inv S Ok (s.give i rest v) := by
  obtain ⟨hpc, -, hc⟩ := (h.wf i).queued (h.mem.mp (by simp [hr]))
  have hnd := h.nodup
  rw [hr, nodup_cons] at hnd
  have hw : ({ s.recv i with slot := some v, queued := false } : RecvCall α).Wf :=
    ⟨by simp, fun _ => ⟨hc, .inl hpc⟩, by simp [hpc]⟩
  refine ⟨h.ok, hnd.2, fun {j} => ?_, wf_set h.wf hw, fun _ => h.waiting (by simp [hr])⟩
  change j ∈ rest ↔ ((s.set i _).recv j).queued = true
  rw [recv_set]
  split_ifs with hj
  · simp [hj, hnd.1]
  · rw [← h.mem, hr, mem_cons]
    exact ⟨.inr, fun hm => hm.resolve_left hj⟩

theorem Inv.stash_give (h : Inv S Ok s) (hr : s.receivers = i :: rest) (v : α) :
    (s.give i rest v).stash S =
      ⟨S.buffer s.stock, update (s.stash S).held i (some v)⟩ := by
  obtain ⟨hpc, -, -⟩ := (h.wf i).queued (h.mem.mp (by simp [hr]))
  have hheld := held_set s i { s.recv i with slot := some v, queued := false }
  rw [held_parked hpc] at hheld
  exact congrArg (Stash.mk _) hheld

variable (L : Lawful S Ok) (h : Inv S Ok s)

include L h

/-- A sender's step. -/
theorem fed_send {e : η} {d : Deal σ α}
    (hd : S.act (!s.receivers.isEmpty) s.stock e = some d) : Fed S Ok s (deal s d) := by
  have hwait : (!s.receivers.isEmpty) = true → S.take s.stock = none ∧ S.closed s.stock = false :=
    fun hne => h.waiting (by simpa using hne)
  obtain ⟨hok, hclosed, htake, hhand⟩ := L.act h.ok hwait hd
  have hinv : Inv S Ok { s with stock := d.stock } :=
    ⟨hok, h.nodup, h.mem, h.wf, fun hne =>
      ⟨htake (by simpa using hne), hclosed.trans (h.waiting hne).2⟩⟩
  unfold deal
  split
  · rename_i v i rest hv hr
    rw [hv] at hhand
    have hempty := L.take_none hinv.ok (hinv.waiting (by simp [hr])).1
    have hempty' := L.take_none h.ok (h.waiting (by simp [hr])).1
    refine ⟨hinv.give hr v, ?_, rfl⟩
    rw [hinv.stash_give hr v, hhand.2]
    refine Stash.Feed.take (h.held_first hr) ?_
    change S.buffer s.stock ++ [v] = v :: S.buffer d.stock
    rw [hempty, hempty', nil_append]
  · rename_i hno
    refine ⟨hinv, ?_, rfl⟩
    cases hv : d.hand with
    | none =>
      rw [hv] at hhand
      have hfeed := Stash.Feed.append (b := s.stash S) d.accepts
      rw [show (s.stash S).buffer ++ d.accepts = S.buffer d.stock from hhand.symm] at hfeed
      exact hfeed
    | some v =>
      -- a value is handed over only to a parked receiver
      rw [hv] at hhand
      cases hr : s.receivers with
      | nil => simp [hr] at hhand
      | cons i rest => exact absurd hr (hno v i rest hv)

theorem fed_close : Fed S Ok s { next := close S s } := by
  unfold close
  split_ifs with hopen
  · exact ⟨h, .idle _, rfl⟩
  · obtain ⟨hok, hbuf, -, -⟩ := L.close h.ok (by simpa using hopen)
    have hheld : (fun j => held (if j ∈ s.receivers then
        { s.recv j with queued := false } else s.recv j)) = fun j => (s.recv j).held := by
      funext j
      split <;> rfl
    refine ⟨⟨hok, nodup_nil, fun {j} => ?_, fun j => ?_, by simp⟩, ?_, rfl⟩
    · dsimp only
      split_ifs with hj
      · simp
      · rw [← h.mem]
        simp [hj]
    · dsimp only
      split
      · exact ⟨by simp, (h.wf j).slot, (h.wf j).fresh⟩
      · exact h.wf j
    · have hfeed := Stash.Feed.idle (s.stash S)
      rw [stash, stash] at *
      rw [hheld, hbuf]
      exact hfeed

/-- The step sends no value back. -/
def Event.plain : Event ι η α → Bool
  | .pushFront _ | .putBack _ => false
  | _ => true

/-- The step neither puts a value in front nor destroys a receiver's frame. -/
def Event.forward : Event ι η α → Bool
  | .pushFront _ | .destroy _ => false
  | _ => true

/-! ### What a call's own steps can do -/

/-- The call that the step is a step of. -/
def Event.call : Event ι η α → Option ι
  | .receive i _ | .suspend i _ | .retry i | .cancel i | .wake i | .resume i _ | .fail i
  | .destroy i | .putBack i => some i
  | .pushFront _ | .close | .send _ => none

/-- The channel is closed and nothing is left to take. -/
def Drained (S : Side σ η α) (s : State σ ι α) : Prop :=
  S.closed s.stock = true ∧ S.take s.stock = none

/-- The call has returned empty-handed, or will when it is resumed. -/
@[simp] def RecvCall.ended (c : RecvCall α) : Prop :=
  c.pc = .returned none ∨
    ((c.pc = .parked ∨ c.pc = .resuming) ∧ c.queued = false ∧ c.slot = none ∧ c.cancelled = false)

/-- How a call may stand after its own step `e`. It ends empty-handed only at a closed and drained
channel, and only its destructor takes a value into its hands. -/
structure After (S : Side σ η α) (s : State σ ι α) (e : Event ι η α) (i : ι) (c : RecvCall α) :
    Prop where
  wf : c.Wf
  ended : c.ended → (s.recv i).ended ∨ Drained S s
  putBack : ∀ {v}, c.pc = .putBack v → e = .destroy i

/-- **The own steps of a call**: it moves on with what it has, takes what there is, joins the
queue or leaves it. -/
inductive Own (S : Side σ η α) (s : State σ ι α) (e : Event ι η α) (i : ι) : Act σ ι α → Prop
  | stay {c : RecvCall α} : After S s e i c → c.queued = (s.recv i).queued →
      c.held = (s.recv i).held → Own S s e i { next := s.set i c }
  | take {c : RecvCall α} {v : α} {st : σ} {acc : List α} : After S s e i c →
      S.take s.stock = some (v, st, acc) → (s.recv i).held = none →
      c.queued = (s.recv i).queued → c.held = some v →
      Own S s e i { next := { s.set i c with stock := st }, accepts := acc, takes := [(i, v)] }
  | park {c : RecvCall α} : After S s e i c → S.take s.stock = none →
      S.closed s.stock = false → (s.recv i).queued = false → c.queued = true →
      c.held = (s.recv i).held →
      Own S s e i { next := { s.set i c with receivers := s.receivers ++ [i] } }
  | leave {c : RecvCall α} : After S s e i { c with queued := false } →
      (s.recv i).queued = true → c.held = none → Own S s e i { next := unlinkLocked s i c }

variable {e : Event ι η α} {a : Act σ ι α}

theorem Own.fed (ho : Own S s e i a) : Fed S Ok s a := by
  cases ho with
  | stay hc hq hh => exact fed_set h hq hc.wf hh
  | take hc ht hi hq hh => exact fed_take L h ht hi hq hc.wf hh
  | park hc ht hopen hi hq hh => exact fed_park h ht hopen hi hq hc.wf hh
  | leave hc hq hh => exact fed_unlink h hq hc.wf hh

omit L h

/-- The step touches no other call. -/
theorem Own.frame {j : ι} (ho : Own S s e i a) (hj : j ≠ i) : a.next.recv j = s.recv j := by
  cases ho <;> exact (recv_set s i j _).trans (if_neg hj)

theorem Own.after (ho : Own S s e i a) : After S s e i (a.next.recv i) := by
  cases ho with
  | stay hc | take hc | park hc | leave hc =>
    have hself := fun c => (recv_set s i i c).trans (if_pos rfl)
    exact (hself _).symm ▸ hc

variable (h : Inv S Ok s)

include h

theorem own_receive (hpc : (s.recv i).pc = .idle) (timed : Bool) :
    Own S s (.receive i timed) i (receive S s i timed) := by
  obtain ⟨hslot, hq⟩ := (h.wf i).outside (by simp [hpc]) (by simp [hpc])
  have hc : (s.recv i).cancelled = false := (h.wf i).fresh (.inl hpc)
  have hheld : (s.recv i).held = none := by simp [held, hpc, hslot]
  dsimp only [receive]
  split
  · rename_i v st acc ht
    exact .take ⟨⟨by simp [hq], by simp [hslot], by simp⟩, by simp, by simp⟩ ht
      hheld rfl rfl
  · rename_i ht
    by_cases hcl : S.closed s.stock = true
    · simp only [hcl, if_true]
      exact .stay ⟨⟨by simp [hq], by simp [hslot], by simp⟩, fun _ => .inr ⟨hcl, ht⟩, by simp⟩
        rfl hheld.symm
    · simp only [hcl]
      exact .stay ⟨⟨by simp [hq], by simp [hslot], by simp [hc]⟩, by simp,
        by simp⟩ rfl (hslot.trans hheld.symm)

theorem own_awaitSuspend (hpc : (s.recv i).pc = .looked ∨ (s.recv i).pc = .arming)
    (core : Option Bool) (armed : Bool) : Own S s e i (awaitSuspend S s i core armed) := by
  obtain ⟨hslot, hq⟩ := (h.wf i).outside (by grind) (by grind)
  have hc : (s.recv i).cancelled = false := (h.wf i).fresh (by grind)
  have hheld : (s.recv i).held = none := by rcases hpc with hpc | hpc <;> simp [held, hpc, hslot]
  have hsame := hslot.trans hheld.symm
  dsimp only [awaitSuspend]
  split
  · -- cancelled while the callback was being armed
    exact .stay ⟨⟨by simp [hq], by simp [hslot], by simp⟩, by simp, by simp⟩ rfl
      hsame
  split
  · rename_i v st acc ht
    exact .take ⟨⟨by simp [hq], by simp [hc], by simp⟩, by simp, by simp⟩ ht
      hheld rfl rfl
  rename_i ht
  split
  · rename_i hcl
    exact .stay ⟨⟨by simp [hq], by simp [hslot], by simp⟩, fun _ => .inr ⟨hcl, ht⟩, by simp⟩ rfl
      hsame
  rename_i hopen
  split
  · exact .park ⟨⟨by simp [hslot, hc], by simp [hslot], by simp⟩, by simp,
      by simp⟩ ht (by simpa using hopen) hq rfl hsame
  split
  · -- cancelled before the callback was armed
    exact .stay ⟨⟨by simp [hq], by simp [hslot], by simp⟩, by simp, by simp⟩ rfl
      hsame
  · exact .stay ⟨⟨by simp [hq], by simp [hslot], by simp [hc]⟩, by simp, by simp⟩ rfl hsame

theorem own_cancelThunk (hpc : (s.recv i).pc = .arming ∨ (s.recv i).pc = .parked ∨
    (s.recv i).pc = .resuming) :
    Own S s (.cancel i) i { next := cancelThunk s i } := by
  dsimp only [cancelThunk]
  split_ifs with hq
  · obtain ⟨hpark, hslot, -⟩ := (h.wf i).queued hq
    refine .leave ⟨⟨by simp, by simp [hslot], by simp [hpark]⟩, ?_, ?_⟩ hq ?_
    · simp [hpark]
    · simp [hpark]
    · simp [held, hpark, hslot]
  · refine .stay ⟨⟨(h.wf i).queued, (h.wf i).slot, (h.wf i).fresh⟩, .inl, fun hv => ?_⟩ rfl rfl
    rcases hpc with hpc | hpc | hpc <;> · rw [hpc] at hv; cases hv

theorem own_awaitResume (hpc : (s.recv i).pc = .resuming) (expired : Bool) :
    Own S s (.resume i expired) i { next := awaitResume s i expired } := by
  have hq : (s.recv i).queued = false := (h.wf i).queued_eq (by simp [hpc])
  have hheld : (s.recv i).held = (s.recv i).slot := by simp [held, hpc]
  dsimp only [awaitResume]
  split
  · rename_i hc
    have hslot : (s.recv i).slot = none := by
      by_contra hs
      simp [((h.wf i).slot hs).1] at hc
    exact .stay ⟨⟨by simp [hq], by simp [hslot], by simp⟩, by simp, by simp⟩ rfl
      hheld.symm
  · rename_i hc
    refine .stay ⟨⟨by simp [hq], by simp, by simp⟩, fun he => .inl (.inr ?_), by simp⟩ rfl
      hheld.symm
    -- it returns what is in the slot
    exact ⟨.inr hpc, hq, by simpa using he, by simpa using hc⟩

theorem own_destroy (hpc : (s.recv i).pc = .parked) :
    Own S s (.destroy i) i { next := destroy s i } := by
  have hheld : (s.recv i).held = (s.recv i).slot := by simp [held, hpc]
  dsimp only [destroy]
  split_ifs with hq
  · have hslot := ((h.wf i).queued hq).2.1
    exact .leave ⟨⟨by simp, by simp [hslot], by simp⟩, by simp, by simp⟩ hq hslot
  · split
    · rename_i v hv
      exact .stay ⟨⟨fun hq' => absurd hq' hq, by simp, by simp⟩, by simp,
        fun _ => rfl⟩ rfl (by rw [hheld, hv]; rfl)
    · rename_i hv
      exact .stay ⟨⟨fun hq' => absurd hq' hq, by simp [hv], by simp⟩, by simp,
        by simp⟩ rfl hheld.symm

/-- **Every own step of a call**, apart from putting a value back. -/
theorem act_own (ha : act S s e = some a) (hp : e.plain = true)
    (he : e.call = some i) : Own S s e i a := by
  cases e with (cases he <;> simp only [act] at ha <;> repeat' first | cases ha | split at ha)
  | receive _ timed => next hpc => exact own_receive h hpc timed
  | suspend _ core => next hpc => exact own_awaitSuspend h (.inl hpc) core false
  | retry => next hpc => exact own_awaitSuspend h (.inr hpc) (some false) true
  | cancel => next hpc => exact own_cancelThunk h (by simp [hpc])
  | wake =>
    next hpc hq =>
    refine .stay ⟨⟨by simp [hq], fun hs => ⟨((h.wf _).slot hs).1, .inr rfl⟩, by simp⟩,
      fun hend => .inl (.inr ⟨.inl hpc, hq, ?_⟩), by simp⟩ rfl (by simp [held, hpc])
    simpa [hq] using hend
  | resume _ expired => next hpc => exact own_awaitResume h hpc expired
  | fail =>
    next hpc =>
    obtain ⟨hslot, hq⟩ := (h.wf i).outside (by simp [hpc]) (by simp [hpc])
    exact .stay ⟨⟨by simp [hq], by simp [hslot], by simp⟩, by simp, by simp⟩ rfl
      (by simp [held, hpc])
  | destroy => next hpc => exact own_destroy h hpc
  | putBack => cases hp

omit h

/-- **Every step that sends nothing back feeds the stash.** -/
theorem act_fed (L : Lawful S Ok) (h : Inv S Ok s) (hp : e.plain = true) (ha : act S s e = some a) :
    Fed S Ok s a := by
  cases he : e.call with
  | some => exact (act_own h ha hp he).fed L h
  | none =>
    cases e with
    | close =>
      obtain rfl := Option.some.inj ha
      exact fed_close L h
    | send =>
      obtain ⟨d, hd, rfl⟩ := Option.map_eq_some_iff.mp ha
      exact fed_send L h hd
    | pushFront => cases hp
    | _ => cases he

/-- The value goes to the oldest parked receiver, or to the front of the buffer. -/
theorem pushFrontCore_cases (L : Lawful S Ok) (h : Inv S Ok s) (v : α) :
    Inv S Ok (pushFrontCore S s v).1 ∧
      ((∃ i ∈ s.receivers, (s.recv i).held = none ∧ S.buffer s.stock = [] ∧
          (pushFrontCore S s v).2 = [(i, v)] ∧ (pushFrontCore S s v).1.stash S =
            ⟨[], update (s.stash S).held i (some v)⟩) ∨
        ((pushFrontCore S s v).2 = [] ∧ (pushFrontCore S s v).1.stash S =
            ⟨v :: S.buffer s.stock, (s.stash S).held⟩)) := by
  cases hr : s.receivers with
  | nil =>
    obtain ⟨hok, hbuf, -⟩ := L.pushFront v h.ok
    simp only [pushFrontCore, hr]
    refine ⟨⟨hok, ?_, ?_, h.wf, by simp⟩, .inr ⟨trivial, ?_⟩⟩
    · exact hr ▸ h.nodup
    · exact hr ▸ h.mem
    · rw [stash, hbuf]
      rfl
  | cons i =>
    have hne : s.receivers ≠ [] := by simp [hr]
    obtain ⟨htake, hopen⟩ := h.waiting hne
    have hempty := L.take_none h.ok htake
    simp only [pushFrontCore, hr, hopen, if_true]
    refine ⟨h.give hr v, .inl ⟨i, by simp, h.held_first hr, hempty, rfl, ?_⟩⟩
    rw [h.stash_give hr v, hempty]

/-- A step that keeps the representation and moves values as a stash does. -/
structure Moved (S : Side σ η α) (Ok : σ → Prop) (s : State σ ι α) (a : Act σ ι α) : Prop where
  inv : Inv S Ok a.next
  move : (s.stash S).Move a.accepts a.fronts a.takes (a.next.stash S)

theorem moved_pushFront (L : Lawful S Ok) (h : Inv S Ok s) (v : α) :
    Moved S Ok s
      { next := (pushFrontCore S s v).1, fronts := [v], takes := (pushFrontCore S s v).2 } := by
  obtain ⟨hinv, ⟨i, -, hi, hempty, hts, hst⟩ | ⟨hts, hst⟩⟩ := pushFrontCore_cases L h v
  · refine ⟨hinv, ?_⟩
    rw [hts, hst]
    exact .frontTo hi hempty
  · refine ⟨hinv, ?_⟩
    rw [hts, hst]
    exact .front v

/-- The destructor is through with its locked section. -/
theorem Inv.set_destroyed (h : Inv S Ok s) (hpc : (s.recv i).pc = .putBack v) :
    Inv S Ok (s.set i { s.recv i with pc := .destroyed }) := by
  obtain ⟨hslot, hq⟩ := (h.wf i).outside (by simp [hpc]) (by simp [hpc])
  exact h.set rfl ⟨by simp [hq], by simp [hslot], by simp⟩

theorem moved_putBack (L : Lawful S Ok) (h : Inv S Ok s) (hpc : (s.recv i).pc = .putBack v) :
    Moved S Ok s
      { next := (pushFrontCore S (s.set i { s.recv i with pc := .destroyed }) v).1
        takes := (pushFrontCore S (s.set i { s.recv i with pc := .destroyed }) v).2 } := by
  obtain ⟨hslot, hq⟩ := (h.wf i).outside (by simp [hpc]) (by simp [hpc])
  have hset := h.set_destroyed hpc
  have hold : (s.stash S).held i = some v := by simp [stash, held, hpc]
  have hheld : ((s.set i { s.recv i with pc := .destroyed }).stash S).held =
      update (s.stash S).held i none := by
    have := held_set s i { s.recv i with pc := .destroyed }
    rw [show ({ s.recv i with pc := .destroyed } : RecvCall α).held = none from hslot] at this
    exact this
  obtain ⟨hinv, ⟨j, hmem, hj, hempty, hts, hst⟩ | ⟨hts, hst⟩⟩ := pushFrontCore_cases L hset v
  · refine ⟨hinv, ?_⟩
    rw [hts, hst, hheld]
    -- the call that puts the value back is not in the queue
    have hji : j ≠ i := by
      rintro rfl
      rw [h.mem.mp hmem] at hq
      cases hq
    rw [recv_set, if_neg hji] at hj
    have hpass := Stash.Move.pass hold hj
    rw [show (s.stash S).buffer = [] from hempty] at hpass
    exact hpass
  · refine ⟨hinv, ?_⟩
    rw [hts, hst, hheld]
    exact .putBack hold

/-- **Every step moves values as a stash does.** -/
theorem act_moved (L : Lawful S Ok) (h : Inv S Ok s) (ha : act S s e = some a) :
    Moved S Ok s a := by
  by_cases hp : e.plain = true
  · have hfed := act_fed L h hp ha
    exact ⟨hfed.inv, hfed.fronts ▸ .feed hfed.feed⟩
  · cases e with
    | pushFront v =>
      obtain rfl := Option.some.inj ha
      exact moved_pushFront L h v
    | putBack =>
      simp only [act] at ha
      split at ha <;> cases ha
      next v hpc => exact moved_putBack L h hpc
    | _ => exact absurd rfl hp

end Manwe.Mailbox
