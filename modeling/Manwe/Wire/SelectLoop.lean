import Manwe.Wire.BoundedChannel.Senders
import Manwe.Wire.Select.Lossless

/-!
# Selecting again and again

A coroutine awaits `channelSelect` over the same distinct channels in a loop, and nobody else
receives from them. A pull that loses takes the head of its channel away for a while, and senders
may append meanwhile; but the caller goes on only when every pull has finished, so the head is
back before the next select looks. Hence the loop sees each channel **in order**: what it has been
given from a channel is a prefix of what the channel has accepted.

Each round is a select of `Select`, with receives of its own: `(r, i)` is the receive of pull `i`
in round `r`. The equation that every step keeps is `flow_act`: for each channel, what the current
round has taken and not handed out, followed by the buffer, loses at the front what is returned and
gains at the end what is accepted.
-/

namespace Manwe.SelectLoop

open Function List Option Select BoundedChannel

open Mailbox

variable {σ ι α η γ : Type*}

/-- The receives of round `r`. -/
def ids (r : ℕ) : Ids (ℕ × ℕ) where
  pull i := (r, i)
  owner j := if j.1 = r then some j.2 else none
  owner_eq := by
    rintro ⟨r', k⟩ i
    simp only [Prod.mk.injEq]
    split_ifs with hr
    · simp [hr, eq_comm]
    · simp [Ne.symm hr]

/-- The steps that leave the pulls alone with the channels: apart from them, only senders and
`close` are about. -/
def sole (ids : Ids ι) : Select.Event ι α η γ → Bool
  | .chan _ e => e.forward && e.call.all fun j => (ids.owner j).isSome
  | _ => true

/-- The `co_await` of the select is over. -/
def concluded : CallerPc α → Bool
  | .returned _ _ | .threw _ => true
  | _ => false

structure State (σ : Type*) (α : Type*) (γ : Type*) where
  round : ℕ := 0
  sel : Select.State σ (ℕ × ℕ) α γ

inductive Event (α : Type*) (η : Type*) (γ : Type*)
  /-- a step of the current round, or of a sender -/
  | select (e : Select.Event (ℕ × ℕ) α η γ)
  /-- the select has returned or thrown, and the coroutine calls it again -/
  | again

/-- The next state, and what the step returns from which index. -/
structure Act (σ : Type*) (α : Type*) (γ : Type*) where
  next : State σ α γ
  returns : List (ℕ × α) := []

section Step

variable [DecidableEq γ] (S : γ → Side σ η α) (channels : List γ)

/-- The steps of the loop. -/
def act (s : State σ α γ) : Event α η γ → Option (Act σ α γ)
  | .select e =>
    if sole (ids s.round) e then
      (Select.act S (ids s.round) channels s.sel e).map fun a =>
        { next := { s with sel := a.next }, returns := a.returns }
    else none
  | .again =>
    if concluded s.sel.caller then
      some { next := { round := s.round + 1, sel := { chan := s.sel.chan } } }
    else none

def step (s : State σ α γ) (e : Event α η γ) : Option (State σ α γ) :=
  (act S channels s e).map Act.next

/-- What a step of a select makes channel `c` accept. -/
def accepts [DecidableEq ι] (c : γ) (s : Select.State σ ι α γ) : Select.Event ι α η γ → List α
  | .chan d e =>
    if d = c then ((Mailbox.act (S c) (s.chan c) e).map Mailbox.Act.accepts).getD [] else []
  | _ => []

/-- What a step of the loop makes channel `c` accept. -/
def acceptsOf (c : γ) (s : State σ α γ) : Event α η γ → List α
  | .select e => accepts S c s.sel e
  | .again => []

/-- The values accepted by channel `c`, in order. -/
def accepted (c : γ) : List (State σ α γ × Event α η γ) → List α := logOf (acceptsOf S c)

/-- What came from index `i`, among values with their index. -/
def fromIndex (i : ℕ) (l : List (ℕ × α)) : List α := (l.filter fun p => p.1 = i).map Prod.snd

/-- The values that the selects have returned from index `i`, in order. -/
def returned (i : ℕ) : List (State σ α γ × Event α η γ) → List α :=
  logOf fun s e => fromIndex i (((act S channels s e).map Act.returns).getD [])

/-- The loop before its first select; no channel has been used. -/
def start (stock : γ → σ) : State σ α γ := { sel := { chan := fun c => { stock := stock c } } }

end Step

/-! ### One consumer -/

/-- Every receive that is not a pull's has not begun or is over. -/
def Alone (ids : Ids ι) (s : Select.State σ ι α γ) : Prop :=
  ∀ c j, ids.owner j = none →
    ((s.chan c).recv j).pc = .idle ∨ ((s.chan c).recv j).pc.over = true

section Steps

variable {S : γ → Side σ η α} {Ok : γ → σ → Prop} {ids : Ids ι} {channels : List γ}
  {P : List (ℕ × α)} {s : Select.State σ ι α γ}

variable {c : γ} {j : ι}

/-- A receive in the queue is a pull's. -/
theorem Alone.queued (hs : Alone ids s) (h : Select.Inv S Ok ids channels P s)
    (hj : ids.owner j = none) : ((s.chan c).recv j).queued = false := by
  refine (((h.chan c).wf j)).queued_eq fun hpc => ?_
  rcases hs c j hj with h0 | h0
  · rw [hpc] at h0
    cases h0
  · rw [hpc] at h0
    cases h0

/-- The index of a channel. -/
theorem index_unique (hch : channels.Nodup) {i k : ℕ} (hi : channels[i]? = some c)
    (hk : channels[k]? = some c) : k = i := by
  have hlt := (List.getElem?_eq_some_iff.mp hi).1
  exact ((getElem?_inj hlt hch).mp (hi.trans hk.symm)).symm

variable [DecidableEq ι]

variable {e : Mailbox.Event ι η α} {a : Mailbox.Act σ ι α}

/-- A channel's step that is not somebody else's moves no other receive. -/
theorem Alone.recv_chan (hs : Alone ids s) (h : Select.Inv S Ok ids channels P s)
    (ha : Mailbox.act (S c) (s.chan c) e = some a) (hj : ids.owner j = none)
    (he : e.call ≠ some j) :
    a.next.recv j = (s.chan c).recv j :=
  recv_of_ne (h.chan c) ha he (hs.queued h hj)

/-- Of the receives on a channel only that of its pull moves, and only while the pull receives. -/
theorem Alone.recv_other (hs : Alone ids s) (hch : channels.Nodup)
    (h : Select.Inv S Ok ids channels P s) (ha : Mailbox.act (S c) (s.chan c) e = some a)
    (he : e.call.all (fun j => (ids.owner j).isSome) = true)
    (hown : Owned ids channels s c e) {i : ℕ} (hc : channels[i]? = some c)
    (hj : j ≠ ids.pull i ∨ (s.pull i).early = false) : a.next.recv j = (s.chan c).recv j := by
  cases ho : ids.owner j with
  | none =>
    refine hs.recv_chan h ha ho fun hcall => ?_
    simp [hcall, ho] at he
  | some k =>
    obtain rfl := ids.owner_eq.mp ho
    refine (h.recv_chan ha hown k).resolve_right ?_
    rintro ⟨hk, hrecv⟩
    obtain rfl := index_unique hch hc hk
    rcases hj with hj | hj
    · exact hj rfl
    · rw [hrecv] at hj
      cases hj

variable [DecidableEq γ]

/-- **Nobody else moves.** -/
theorem Alone.recv_act (hs : Alone ids s) (h : Select.Inv S Ok ids channels P s)
    {e : Select.Event ι α η γ} {a : Select.Act σ ι α γ} (he : sole ids e = true)
    (ha : Select.act S ids channels s e = some a) (hj : ids.owner j = none) (c : γ) :
    (a.next.chan c).recv j = (s.chan c).recv j := by
  rcases act_chan ha with hsame | ⟨d, m, b, hb, -, hm, hchan, -⟩
  · rw [hsame]
  · rw [hchan, chan_set]
    split_ifs with hcd
    · subst hcd
      refine hs.recv_chan h hb hj fun hcall => ?_
      rcases hm with rfl | hm
      · simp [sole, hcall, hj] at he
      · rw [hm] at hcall
        cases hcall
    · rfl

end Steps

/-! ### What a round has taken -/

/-- The caller has not been given the result. -/
def owed : CallerPc α → Bool
  | .returned _ _ => false
  | _ => true

/-- What pull `i` has taken from its channel and the caller has not been given: the value is with
the receive, in the hands of the pull, or the result. -/
def share (i : ℕ) (p : PullPc α) (st : SelectState α) (caller : CallerPc α)
    (held : Option α) : Option α :=
  match p with
  | .idle | .receiving => held
  | .putting v => some v
  | .stopping | .finishing | .finished =>
    if st.winningIndex = i ∧ owed caller = true then st.result else none

/-- What channel `c`, at index `i`, has accepted and the caller has not been given. -/
def pending (S : γ → Side σ η α) (ids : Ids ι) (s : Select.State σ ι α γ) (c : γ)
    (i : ℕ) : List α :=
  (share i (s.pull i) s.st s.caller ((s.chan c).recv (ids.pull i)).held).toList ++
    (S c).buffer (s.chan c).stock

variable {i n : ℕ} {st : SelectState α} {caller : CallerPc α}

variable {p : PullPc α} {held : Option α}

theorem share_of_eq {st' : SelectState α} {caller' : CallerPc α}
    (hw : st'.winningIndex = st.winningIndex) (hr : st'.result = st.result)
    (ho : owed caller' = owed caller) : share i p st' caller' held = share i p st caller held := by
  simp only [share, hw, hr, ho]

variable {pull : ℕ → PullPc α}

/-- A pull moves on and keeps its share. -/
theorem share_update {k : ℕ} (hk : share k p st caller held = share k (pull k) st caller held) :
    share i (update pull k p i) st caller held = share i (pull i) st caller held := by
  obtain rfl | hik := eq_or_ne i k
  · rw [update_self, hk]
  · rw [update_of_ne hik]

variable {got : ℕ → RecvPc α}

variable {P : List (ℕ × α)}

/-- **The result is the winner's.** A pull that has not won has no share in it. -/
theorem share_of_late (h : Race n st pull got P)
    (hi : (pull i).early = true ∨ ∃ v, pull i = .putting v) (caller : CallerPc α) :
    (if st.winningIndex = i ∧ owed caller = true then st.result else none) = none := by
  split_ifs with hw
  · cases hres : st.result with
    | none => rfl
    | some v =>
      obtain ⟨-, -, h1, h2, -⟩ := h.won hres
      rw [hw.1] at h1 h2
      rcases hi with hi | ⟨v, hi⟩
      · rw [hi] at h1
        cases h1
      · exact absurd hi (h2 v)
  · rfl

/-- The value in what a pull got. -/
def gain : Except Exn (Option α) → Option α
  | .ok r => r
  | .error _ => none

/-- A pull goes through its first section with what it has received. -/
theorem share_decide (h : Race n st pull got P) (hi : pull i = .receiving)
    (g : Except Exn (Option α)) (ho : owed caller = true) :
    share i (st.decide i g).2 (st.decide i g).1 caller (gain g) = gain g := by
  have hlate := share_of_late h (.inl (by rw [hi]; rfl)) caller
  dsimp only [SelectState.decide]
  split
  · -- it has lost
    cases g with
    | error => exact hlate
    | ok r =>
      cases r with
      | none => exact hlate
      | some => rfl
  · rename_i hd
    have hres := (h.undecided (by simpa using hd)).1
    cases g with
    | error => exact ite_self _
    | ok r =>
      cases r with
      | none =>
        dsimp only
        split
        · rw [hres] at hlate
          simp only [share, hres]
          exact hlate
        · exact ite_self _
      | some => exact if_pos ⟨rfl, ho⟩

/-- The first section leaves the result alone, or its pull becomes the winner. -/
theorem winner_of_decide (st : SelectState α) (k : ℕ) (g : Except Exn (Option α)) :
    ((st.decide k g).1.winningIndex = st.winningIndex ∧ (st.decide k g).1.result = st.result) ∨
      (st.decided = false ∧ (st.decide k g).1.winningIndex = k) := by
  cases hd : st.decided with
  | true => exact .inl (by simp [SelectState.decide, hd])
  | false =>
    dsimp only [SelectState.decide]
    rw [hd]
    rcases g with x | r | v
    · exact .inr ⟨rfl, rfl⟩
    · by_cases hlive : 0 < st.live - 1
      · exact .inl (by simp [hlive])
      · exact .inr ⟨rfl, by simp [hlive]⟩
    · exact .inr ⟨rfl, rfl⟩

/-- The first section of one pull leaves the others their shares. -/
theorem share_decide_of_ne (h : Race n st pull got P) {k : ℕ} (hik : k ≠ i)
    (g : Except Exn (Option α)) (p : PullPc α) (caller : CallerPc α)
    (held : Option α) :
    share i p (st.decide k g).1 caller held = share i p st caller held := by
  rcases winner_of_decide st k g with ⟨hw, hr⟩ | ⟨hd, hw⟩
  · exact share_of_eq hw hr rfl
  · have hres := (h.undecided hd).1
    cases p with
    | idle | receiving | putting => rfl
    | stopping | finishing | finished => simp [share, hw, hik, hres]

theorem fromIndex_result (i k : ℕ) (r : Option α) :
    fromIndex i (r.toList.map fun v => (k, v)) = if k = i then r.toList else [] := by
  cases r <;> split <;> simp [fromIndex, *]

/-- The caller is given the winner's share. -/
theorem share_resume (h : Race n st pull got P) (i k : ℕ) (r held : Option α) :
    (share i (pull i) st .resuming held).toList =
      fromIndex i (st.result.toList.map fun v => (st.winningIndex, v)) ++
        (share i (pull i) st (.returned k r) held).toList := by
  rw [fromIndex_result]
  have hlate := fun hi => share_of_late h (i := i) hi .resuming
  cases hp : pull i with
  | idle | receiving | putting =>
    have hres := hlate (by simp [hp, PullPc.early])
    by_cases hw : st.winningIndex = i
    · simp only [hw, owed, and_self, if_true] at hres
      simp [share, hres]
    · simp [share, hw]
  | stopping | finishing | finished =>
    by_cases hw : st.winningIndex = i
    · simp [share, owed, hw]
    · simp [share, hw]

/-! ### The flow through a channel -/

section Flow

variable {S : γ → Side σ η α} {Ok : γ → σ → Prop} {ids : Ids ι} {channels : List γ}
  {P : List (ℕ × α)} {s : Select.State σ ι α γ}

variable {c d : γ} {i : ℕ}

/-- Nothing is pending but what is in the channel and the pull's share. -/
theorem pending_of_eq {t : Select.State σ ι α γ} (hchan : t.chan c = s.chan c)
    (hshare : ∀ held, share i (t.pull i) t.st t.caller held = share i
    (s.pull i) s.st s.caller held) :
    pending S ids s c i = pending S ids t c i := by
  simp only [pending, hchan, hshare]

/-- While a pull is busy, the caller has not been given the result. -/
theorem owed_of_busy (h : Select.Inv S Ok ids channels P s) (hi : (s.pull i).busy = true) :
    owed s.caller = true := by
  have hunpub := h.counts.unpublished hi
  have hidx := h.counts.index (i := i) fun h0 => by simp [h0, PullPc.busy] at hi
  cases hcaller : s.caller with
  | returned =>
    rcases h.resumes.returned hcaller with ⟨hn, -⟩ | ⟨hp, -⟩
    · omega
    · rw [hunpub] at hp
      cases hp
  | _ => rfl

variable {g : Except Exn (Option α)}

/-- What a receive that is over leaves in the hands of its pull. -/
theorem held_of_outcome {r : RecvCall α} (hr : r.Wf) (hg : outcome r.pc = some g) :
    r.held = gain g := by
  cases hpc : r.pc with rw [hpc] at hg
  | returned =>
    cases hg
    simp only [RecvCall.held, hpc, gain]
  | threw =>
    cases hg
    simp only [RecvCall.held, hpc, gain]
    exact hr.slot_eq (by simp [hpc]) (by simp [hpc])
  | idle | looked | arming | parked | resuming | putBack | destroyed => cases hg

/-- A pull goes through its first section. -/
theorem flow_decide (h : Select.Inv S Ok ids channels P s) {k : ℕ} (hc : channels[i]? = some c)
    (hk : s.pull k = .receiving) (hd : channels[k]? = some d)
    (hg : outcome ((s.chan d).recv (ids.pull k)).pc = some g) :
    pending S ids s c i = pending S ids
      { s.setPull k (s.st.decide k g).2 with st := (s.st.decide k g).1 } c i := by
  have ho := owed_of_busy h (i := k) (by simp [hk, PullPc.busy])
  obtain rfl | hki := eq_or_ne k i
  · obtain rfl := some.inj (hc.symm.trans hd)
    have hshare := share_decide h.race hk g ho
    rw [← held_of_outcome ((h.chan c).wf _) hg] at hshare
    simp only [pending, State.setPull, update_self, hk]
    rw [hshare]
    rfl
  · have hshare := share_decide_of_ne h.race hki g (s.pull i) s.caller
    simp [pending, update_of_ne (Ne.symm hki), hshare]

variable [DecidableEq ι]

variable (L : ∀ c, Lawful (S c) (Ok c)) (hs : Alone ids s) (hch : channels.Nodup)
  (h : Select.Inv S Ok ids channels P s)

include L hs hch h

/-- A step of the channel: what it accepts joins at the end. -/
theorem flow_chan {e : Mailbox.Event ι η α} {a : Mailbox.Act σ ι α}
    (ha : Mailbox.act (S c) (s.chan c) e = some a) (hplain : e.plain = true)
    (he : e.call.all (fun j => (ids.owner j).isSome) = true)
    (hown : Owned ids channels s c e) (hc : channels[i]? = some c) :
    pending S ids s c i ++ a.accepts =
      (share i (s.pull i) s.st s.caller (a.next.recv (ids.pull i)).held).toList ++
        (S c).buffer a.next.stock := by
  have hfeed := (act_fed (L c) (h.chan c) hplain ha).feed
  have hother : ∀ {j}, j ≠ ids.pull i ∨ (s.pull i).early = false →
      (a.next.stash (S c)).held j = ((s.chan c).stash (S c)).held j := fun hj => by
    change (a.next.recv _).held = _
    rw [hs.recv_other hch h ha he hown hc hj]
    rfl
  by_cases hearly : (s.pull i).early = true
  · -- the pull may be the taker
    have hheld : ∀ held, share i (s.pull i) s.st s.caller held = held := by
      intro held
      revert hearly
      cases s.pull i <;> simp [PullPc.early, share]
    have hflow := hfeed.one_taker fun k hk => hother (.inl hk)
    rw [pending, hheld, hheld]
    exact hflow
  · have hlate : (s.pull i).early = false := by simpa using hearly
    have hbuf : (S c).buffer a.next.stock = (S c).buffer (s.chan c).stock ++ a.accepts :=
      hfeed.still fun k => hother (.inr hlate)
    rw [pending, hs.recv_other hch h ha he hown hc (.inr hlate), hbuf, append_assoc]

/-- A value that is pushed back is at the front again: no other receive waits for it. -/
theorem buffer_pushFront (hc : channels[i]? = some c) {v : α} (hi : s.pull i = .putting v) :
    (S c).buffer (pushFrontCore (S c) (s.chan c) v).1.stock =
      v :: (S c).buffer (s.chan c).stock := by
  obtain ⟨-, ⟨j, hj, -⟩ | ⟨-, hstash⟩⟩ := pushFrontCore_cases (L c) (h.chan c) v
  · have hq := (h.chan c).mem.mp hj
    have hpc := (((h.chan c).wf j).queued hq).1
    cases ho : ids.owner j with
    | none =>
      rw [hs.queued h ho] at hq
      cases hq
    | some k =>
      obtain rfl := ids.owner_eq.mp ho
      obtain ⟨hk, -, hrecv⟩ := h.calls c k (by simp [hpc])
      obtain rfl := index_unique hch hc hk
      rw [hrecv (by simp [hpc])] at hi
      cases hi
  · exact congrArg Stash.buffer hstash

variable [DecidableEq γ]

/-- A step of a channel, whichever it is. -/
theorem flow_env {m : Mailbox.Event ι η α} (he : sole ids (.chan d m : Select.Event ι α η γ) = true)
    (hperm : permits ids channels s d m = true) {b : Mailbox.Act σ ι α}
    (hb : Mailbox.act (S d) (s.chan d) m = some b) (hc : channels[i]? = some c) :
    pending S ids s c i ++ accepts S c s (.chan d m) =
      pending S ids (s.setChan d b.next) c i := by
  simp only [sole, Bool.and_eq_true] at he
  obtain rfl | hcd := eq_or_ne d c
  · have hplain : m.plain = true := by
      cases m with
      | pushFront => exact absurd he.1 (by simp [Event.forward])
      | putBack =>
        -- it would have to be the destructor of a pull
        obtain ⟨k, hk⟩ := isSome_iff_exists.mp (by simpa [Event.call] using he.2)
        simp [permits, Event.call, hk, inScope] at hperm
      | _ => rfl
    have hflow := flow_chan L hs hch h hb hplain he.2 (owned_of_permits hperm) hc
    have hacc : accepts S d s (.chan d m) = b.accepts := by simp [accepts, hb]
    rw [hacc, hflow]
    simp [pending]
  · have hacc : accepts S c s (.chan d m) = [] := by simp [accepts, hcd]
    rw [hacc, append_nil]
    exact pending_of_eq (by rw [chan_set, if_neg (Ne.symm hcd)]) fun _ => rfl

/-- A pull puts its value back. -/
theorem flow_pushBack {k : ℕ} (hc : channels[i]? = some c) {v : α}
    (hk : s.pull k = .putting v) (hd : channels[k]? = some d) :
    pending S ids s c i = pending S ids
      ((s.setChan d (pushFrontCore (S d) (s.chan d) v).1).setPull k .finishing) c i := by
  obtain rfl | hki := eq_or_ne k i
  · obtain rfl := some.inj (hc.symm.trans hd)
    have hbuf := buffer_pushFront L hs hch h hc hk
    have hshare : ∀ held, share k .finishing s.st s.caller held = none := fun _ =>
      share_of_late h.race (.inr ⟨v, hk⟩) s.caller
    simp only [pending, State.setPull, State.setChan, update_self, hk, hbuf, hshare]
    rfl
  · have hcd : c ≠ d := fun hcd => hki (index_unique hch hc (hcd ▸ hd))
    refine pending_of_eq ?_ fun held => ?_
    · exact (chan_set s d c _).trans (if_neg hcd)
    · simp [update_of_ne (Ne.symm hki)]

/-- **The flow.** What is returned leaves at the front, what is accepted joins at the end. -/
theorem flow_act {e : Select.Event ι α η γ} {a : Select.Act σ ι α γ} (he : sole ids e = true)
    (ha : Select.act S ids channels s e = some a) (hc : channels[i]? = some c) :
    pending S ids s c i ++ accepts S c s e =
      fromIndex i a.returns ++ pending S ids a.next c i := by
  cases e with (simp only [Select.act] at ha; repeat' first | cases ha | split at ha)
  | chan =>
    next hperm =>
    obtain ⟨m', hm, rfl⟩ := map_eq_some_iff.mp ha
    obtain ⟨b, hb, rfl⟩ := map_eq_some_iff.mp hm
    exact flow_env L hs hch h he hperm hb hc
  | decide =>
    next d hk hd =>
    obtain ⟨g, hg, rfl⟩ := map_eq_some_iff.mp ha
    exact (append_nil _).trans (flow_decide h hc hk hd hg)
  | pushBack =>
    next v d hk hd =>
    exact (append_nil _).trans (flow_pushBack L hs hch h hc hk hd)
  | resume =>
    next hcaller hx =>
    first
    | refine (append_nil _).trans (pending_of_eq rfl fun _ => share_of_eq rfl rfl ?_)
      rw [hcaller]
      rfl
    | have hshare := share_resume h.race i s.st.winningIndex s.st.result
        ((s.chan c).recv (ids.pull i)).held
      simp only [accepts, pending, hcaller, append_nil]
      rw [hshare, append_assoc]
  | start =>
    next hcaller hn =>
    first
    | -- without channels there is nothing to show
      rw [length_eq_zero_iff.mp hn] at hc
      cases hc
    | refine (append_nil _).trans (pending_of_eq rfl fun _ => share_of_eq rfl rfl ?_)
      rw [hcaller]
      rfl
  | spawn =>
    next start k hcaller =>
    have hcounts := h.counts
    rw [hcaller] at hcounts
    have hidle := hcounts.next_idle
    refine (append_nil _).trans (pending_of_eq rfl fun held => ?_)
    refine (share_of_eq rfl rfl ?_).trans (share_update (by rw [hidle]; rfl))
    rw [hcaller]
    split <;> rfl
  | refuse =>
    next start k hcaller =>
    refine (append_nil _).trans (pending_of_eq rfl fun _ =>
      share_of_eq ?_ ?_ (by rw [hcaller]; rfl))
    all_goals
      dsimp only [SelectState.failSelect]
      split <;> split <;> rfl
  | stopAll =>
    next hk =>
    refine (append_nil _).trans (pending_of_eq rfl fun held => ?_)
    exact share_update (by rw [hk]; rfl)
  | finish =>
    next hk =>
    refine (append_nil _).trans (pending_of_eq rfl fun held => ?_)
    refine (share_of_eq ?_ ?_ rfl).trans (share_update (by rw [hk]; rfl))
    · dsimp only [SelectState.finish]
      split <;> rfl
    · dsimp only [SelectState.finish]
      split <;> rfl
  | failStop | scopeStop | look | suspend | wake | destroy | dropStop =>
    -- the caller moves on; nobody's share changes
    refine (append_nil _).trans (pending_of_eq rfl fun _ => share_of_eq rfl rfl ?_)
    (try split) <;> simp [*, owed]

end Flow

/-! ### Rounds -/

section Rounds

variable {S : γ → Side σ η α} {Ok : γ → σ → Prop} {channels : List γ}

theorem owner_eq_none {r : ℕ} {j : ℕ × ℕ} : (ids r).owner j = none ↔ j.1 ≠ r := by
  simp [ids]

/-- **The invariant of the loop.** The receives of earlier rounds are over, and those of later
rounds have not begun. -/
structure Inv (S : γ → Side σ η α) (Ok : γ → σ → Prop) (channels : List γ) (s : State σ α γ) :
    Prop where
  sel : ∃ P, Select.Inv S Ok (ids s.round) channels P s.sel
  alone : Alone (ids s.round) s.sel
  fresh : ∀ c {j : ℕ × ℕ}, s.round < j.1 → ((s.sel.chan c).recv j).pc = .idle

variable {s : State σ α γ} {stock : γ → σ}

theorem inv_init (hstock : ∀ c, Ok c (stock c)) :
    Inv S Ok channels (start stock : State σ α γ) where
  sel := ⟨[], Select.inv_init (fun c => inv_start (hstock c)) fun _ _ => rfl⟩
  alone := fun _ _ _ => .inl rfl
  fresh := fun _ _ _ => rfl

variable (h : Inv S Ok channels s) (hc : concluded s.sel.caller = true)

include h hc

/-- When the select has returned or thrown, its pulls have finished. -/
theorem Inv.finished {i : ℕ} (hi : s.sel.pull i ≠ .idle) : s.sel.pull i = .finished := by
  obtain ⟨P, hsel⟩ := h.sel
  have hidx := hsel.counts.index hi
  refine hsel.counts.finished ?_ hi
  cases hcaller : s.sel.caller with
  | returned =>
    rcases hsel.resumes.returned hcaller with ⟨hn, -⟩ | ⟨hp, -⟩
    · omega
    · exact hp
  | threw => exact (hsel.resumes.threw hcaller).1
  | _ =>
    rw [hcaller] at hc
    cases hc

/-- The next round begins as the first did. -/
theorem Inv.again :
    Inv S Ok channels { round := s.round + 1, sel := { chan := s.sel.chan } } := by
  obtain ⟨P, hsel⟩ := h.sel
  refine ⟨⟨[], Select.inv_init hsel.chan fun c i => h.fresh c (Nat.lt_succ_self _)⟩, ?_, ?_⟩
  · rintro c ⟨r, i⟩ -
    by_cases hr : r = s.round
    · -- a receive of the round that is over
      subst hr
      by_cases hidle : ((s.sel.chan c).recv (s.round, i)).pc = .idle
      · exact .inl hidle
      · have hfin := h.finished hc (hsel.calls c i hidle).2.1
        exact .inr (hsel.over_of_late (by simp [hfin]) c hidle)
    · exact h.alone c (r, i) (owner_eq_none.mpr hr)
  · intro c j hj
    exact h.fresh c (Nat.lt_of_succ_lt hj)

omit h hc

/-- A receive that has not begun holds nothing. -/
theorem held_of_idle {r : RecvCall α} (hr : r.Wf) (hpc : r.pc = .idle) : r.held = none := by
  simp only [RecvCall.held, hpc]
  exact hr.slot_eq (by simp [hpc]) (by simp [hpc])

/-- **Between two rounds nothing is on the way**: what the caller has not been given is in the
channel. -/
theorem Inv.flow_again (h : Inv S Ok channels s) (hc : concluded s.sel.caller = true) (c : γ)
    (i : ℕ) :
    pending S (ids s.round) s.sel c i =
      pending S (ids (s.round + 1)) { chan := s.sel.chan } c i := by
  obtain ⟨P, hsel⟩ := h.sel
  have hwf := (hsel.chan c).wf
  have hnext : ((s.sel.chan c).recv ((ids (s.round + 1)).pull i)).held = none :=
    held_of_idle (hwf _) (h.fresh c (Nat.lt_succ_self _))
  have hshare : share i (s.sel.pull i) s.sel.st s.sel.caller
      ((s.sel.chan c).recv ((ids s.round).pull i)).held = none := by
    by_cases hi : s.sel.pull i = .idle
    · have hidle : ((s.sel.chan c).recv ((ids s.round).pull i)).pc = .idle := by
        by_contra hpc
        exact (hsel.calls c i hpc).2.1 hi
      rw [hi, held_of_idle (hwf _) hidle]
      rfl
    · rw [h.finished hc hi]
      cases hcaller : s.sel.caller with
      | returned => simp [share, owed]
      | threw =>
        -- a select that throws has no result to lose
        have hres : s.sel.st.result = none := by
          by_contra hres
          obtain ⟨v, hv⟩ := ne_none_iff_exists'.mp hres
          have hx := (hsel.resumes.threw hcaller).2
          rw [(hsel.race.won hv).1] at hx
          cases hx
        simp [share, hres]
      | _ =>
        rw [hcaller] at hc
        cases hc
  rw [pending, hshare, pending]
  simp only [share, hnext]

variable [DecidableEq γ]

variable (L : ∀ c, Lawful (S c) (Ok c)) (hch : channels.Nodup)

include L hch

/-- **Every step of the loop** keeps the invariant and lets the values through in order. -/
theorem act_keeps (h : Inv S Ok channels s)
    {e : Event α η γ} {a : Act σ α γ} (ha : act S channels s e = some a) :
    Inv S Ok channels a.next ∧ ∀ {c : γ} {i : ℕ}, channels[i]? = some c →
      pending S (ids s.round) s.sel c i ++ acceptsOf S c s e =
        fromIndex i a.returns ++ pending S (ids a.next.round) a.next.sel c i := by
  cases e with
  | select =>
    simp only [act] at ha
    split at ha
    · rename_i he
      obtain ⟨b, hb, rfl⟩ := map_eq_some_iff.mp ha
      obtain ⟨P, hsel⟩ := h.sel
      have hrecv := fun j hj => h.alone.recv_act hsel he hb (j := j) hj
      refine ⟨⟨⟨_, (Select.act_keeps L hsel hb).inv⟩, fun c j hj => ?_, fun c j hj => ?_⟩,
        fun hc => flow_act L h.alone hch hsel he hb hc⟩
      · rw [hrecv j hj c]
        exact h.alone c j hj
      · rw [hrecv j (owner_eq_none.mpr (Nat.ne_of_gt hj)) c]
        exact h.fresh c hj
    · cases ha
  | again =>
    simp only [act] at ha
    split at ha <;> cases ha
    next hover =>
      exact ⟨h.again hover, fun {c i} _ => (append_nil _).trans (h.flow_again hover c i)⟩

/-- **The loop sees each channel in order**: what it has been given, followed by what is on the
way, is what the channel has accepted. -/
theorem order_run (hstock : ∀ c, Ok c (stock c)) (hempty : ∀ c, (S c).buffer (stock c) = [])
    {tr : List (State σ α γ × Event α η γ)} (hr : Run (step S channels) (start stock) tr s) :
    Inv S Ok channels s ∧ ∀ {c : γ} {i : ℕ}, channels[i]? = some c →
      returned S channels i tr ++ pending S (ids s.round) s.sel c i = accepted S c tr := by
  induction hr with
  | start =>
    refine ⟨inv_init hstock, fun {c i} _ => ?_⟩
    have hpending : pending S (ids 0) (start stock : State σ α γ).sel c i = [] := hempty c
    exact hpending
  | @next tr s t e _ hs ih =>
    obtain ⟨a, ha, rfl⟩ := map_eq_some_iff.mp hs
    obtain ⟨hinv, hflow⟩ := act_keeps L hch ih.1 ha
    refine ⟨hinv, fun {c i} hc => ?_⟩
    have hret : returned S channels i (tr ++ [(s, e)]) =
        returned S channels i tr ++ fromIndex i a.returns := by simp [returned, ha]
    have hacc : accepted S c (tr ++ [(s, e)]) = accepted S c tr ++ acceptsOf S c s e := by
      simp [accepted]
    rw [hret, hacc, ← ih.2 hc, append_assoc, append_assoc, hflow hc]

end Rounds

/-- **Selecting in a loop preserves the order of each channel**, for both classes and whatever their
bounds: the values returned from a channel are a prefix of those it has accepted. -/
theorem repeated_select_in_order {κ : Type*} [DecidableEq κ] [DecidableEq γ] (channels : List γ)
    (hch : channels.Nodup) :
    (∀ (maxBuffered : γ → ℕ) tr s,
      Run (step (fun c => Channel.side (α := α) (maxBuffered c)) channels)
        (start fun _ => {}) tr s →
      ∀ i c, channels[i]? = some c →
        (returned (fun c => Channel.side (maxBuffered c)) channels i tr).IsPrefix
          (accepted (fun c => Channel.side (maxBuffered c)) c tr)) ∧
    (∀ (capacity : γ → ℕ) tr s,
      Run (step (fun c => side (κ := κ) (α := α) (capacity c)) channels)
        (start fun _ => {}) tr s →
      ∀ i c, channels[i]? = some c →
        (returned (fun c => side (capacity c)) channels i tr).IsPrefix
          (accepted (fun c => side (capacity c)) c tr)) := by
  refine ⟨fun maxBuffered tr s hr i c hc => ?_, fun capacity tr s hr i c hc => ?_⟩
  · have horder := order_run (fun c => Channel.lawful (maxBuffered c)) hch
      (fun _ => trivial) (fun _ => rfl) hr
    exact ⟨_, horder.2 hc⟩
  · have horder := order_run (fun c => lawful (capacity c)) hch
      (fun c => ok_init (capacity c)) (fun _ => rfl) hr
    exact ⟨_, horder.2 hc⟩

/-- Two channels of capacity 1. The first holds `5`; the second holds `6`, and the sender of `7` is
parked. In the first round both pulls take a value, so `7` is accepted; pull `0` wins and `6` goes
back in front of `7`. The second round gets `6`. -/
def putBackAndTaken : List (Event ℕ (Send ℕ ℕ) ℕ) :=
  [.select (.chan 0 (.send (.send 0 5 false))), .select (.chan 1 (.send (.send 1 6 false))),
    .select (.chan 1 (.send (.send 2 7 false))), .select (.chan 1 (.send (.suspend 2 none))),
    .select (.start 0), .select .spawn, .select .spawn, .select (.chan 0 (.receive (0, 0) false)),
    .select (.chan 1 (.receive (0, 1) false)), .select (.decide 0), .select (.decide 1),
    .select .look, .select .suspend, .select (.stopAll 0), .select (.pushBack 1),
    .select (.finish 0), .select (.finish 1), .select .wake, .select .resume, .again,
    .select (.start 1), .select .spawn, .select .spawn, .select (.chan 1 (.receive (1, 1) false)),
    .select (.chan 0 (.receive (1, 0) false)), .select (.decide 1), .select (.stopAll 1),
    .select (.chan 0 (.suspend (1, 0) (some true))), .select (.chan 0 (.resume (1, 0) false)),
    .select (.decide 0), .select (.finish 1), .select (.finish 0), .select .look, .select .resume]

/-- Every channel has capacity 1. -/
def tight : ℕ → Side (Core ℕ ℕ) (Send ℕ ℕ) ℕ :=
  fun _ => side 1

theorem repeated_select_in_order_putBackAndTaken : ∃ tr s,
    Run (step tight [0, 1]) (start fun _ => {}) tr s ∧ returned tight [0, 1] 1 tr = [6] ∧
      accepted tight 1 tr = [6, 7] ∧
      (returned tight [0, 1] 1 tr).IsPrefix (accepted tight 1 tr) := by
  have hr := Run.of_exec
    (show exec (step tight [0, 1]) (start fun _ => {}) putBackAndTaken = some _ from rfl)
  exact ⟨_, _, hr, rfl, rfl,
    (repeated_select_in_order [0, 1] (by decide)).2 (fun _ => 1) _ _ hr 1 1 rfl⟩

end Manwe.SelectLoop
