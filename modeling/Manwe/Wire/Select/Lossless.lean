import Manwe.Wire.Channel
import Manwe.Wire.Select.Race

/-!
# A select loses nothing

The counters, the race and the caller are put together with the channels in `Inv`, which every
step keeps (`act_keeps`). Over a whole run: the select is published once, when the started pulls
have finished, and every value that a pull obtained is then the result or back in its channel
(`select_lossless`).
-/

namespace Manwe.Select

open Function Option Channel List

open Mailbox

variable {σ ι α η γ : Type*}

/-! ### The whole select -/

/-- Where the receive of pull `i` stands. -/
def State.got (ids : Ids ι) (channels : List γ) (s : State σ ι α γ) (i : ℕ) : RecvPc α :=
  (channels[i]?).elim .idle fun c => ((s.chan c).recv (ids.pull i)).pc

variable {ids : Ids ι} {channels : List γ}

theorem got_eq {s : State σ ι α γ} {i : ℕ} {c : γ} (hc : channels[i]? = some c) :
    s.got ids channels i = ((s.chan c).recv (ids.pull i)).pc := by
  simp [State.got, hc]

/-- A pull makes its call on its own channel, and is receiving while the call runs. -/
def Calls (ids : Ids ι) (channels : List γ) (chan : γ → Mailbox.State σ ι α)
    (pull : ℕ → PullPc α) : Prop :=
  ∀ c i, ((chan c).recv (ids.pull i)).pc ≠ .idle → channels[i]? = some c ∧ pull i ≠ .idle ∧
    (((chan c).recv (ids.pull i)).pc.over = false → pull i = .receiving)

/-- **The invariant of a select**, with the values `P` pushed back so far. -/
structure Inv (S : γ → Side σ η α) (Ok : γ → σ → Prop) (ids : Ids ι) (channels : List γ)
    (P : List (ℕ × α)) (s : State σ ι α γ) : Prop where
  chan : ∀ c, Mailbox.Inv (S c) (Ok c) (s.chan c)
  calls : Calls ids channels s.chan s.pull
  counts : Counts channels.length s.st s.caller s.pull
  race : Race channels.length s.st s.pull (s.got ids channels) P
  resumes : Resumes channels.length s.st s.caller

/-- A select that has not begun, over channels in any state. -/
theorem inv_init {S : γ → Side σ η α} {Ok : γ → σ → Prop} {chan : γ → Mailbox.State σ ι α}
    (hchan : ∀ c, Mailbox.Inv (S c) (Ok c) (chan c))
    (hnew : ∀ c i, ((chan c).recv (ids.pull i)).pc = .idle) :
    Inv S Ok ids channels [] ({ chan := chan } : State σ ι α γ) :=
  ⟨hchan, fun c i h => absurd (hnew c i) h, counts_init _, race_init _ _, resumes_unserved rfl rfl⟩

section Steps

variable {S : γ → Side σ η α} {Ok : γ → σ → Prop} {ids : Ids ι} {channels : List γ}
  {P : List (ℕ × α)} {s : State σ ι α γ}

variable {i : ℕ}

/-- A pull that does not receive moves on. -/
theorem Calls.setPull {chan : γ → Mailbox.State σ ι α} {pull : ℕ → PullPc α}
    (h : Calls ids channels chan pull) {p : PullPc α} (hp : p ≠ .idle)
    (hi : ∀ c, ((chan c).recv (ids.pull i)).pc ≠ .idle →
      ((chan c).recv (ids.pull i)).pc.over = true) :
    Calls ids channels chan (update pull i p) := by
  intro c j hj
  obtain ⟨h1, h2, h3⟩ := h c j hj
  refine ⟨h1, (Counts.update_ne_idle hp).mpr (.inr h2), fun hover => ?_⟩
  obtain rfl | hji := eq_or_ne j i
  · rw [hi c hj] at hover
    cases hover
  · rw [update_of_ne hji]
    exact h3 hover

/-- The call of a pull that is past its first section is over. -/
theorem Inv.over_of_late (h : Inv S Ok ids channels P s) (hi : (s.pull i).early = false) (c : γ)
    (hc : ((s.chan c).recv (ids.pull i)).pc ≠ .idle) :
    ((s.chan c).recv (ids.pull i)).pc.over = true := by
  have hover := h.race.past hi
  rw [got_eq (h.calls c i hc).1] at hover
  exact hover

/-- What every step keeps, and what it does to `published`. -/
structure Keeps (S : γ → Side σ η α) (Ok : γ → σ → Prop) (ids : Ids ι) (channels : List γ)
    (P : List (ℕ × α)) (s : State σ ι α γ) (a : Act σ ι α γ) : Prop where
  inv : Inv S Ok ids channels (P ++ a.pushes) a.next
  published : a.next.st.published = (s.st.published || a.publishes)
  once : a.publishes = true → s.st.published = false

/-- A step that pushes nothing back and leaves `published` alone. -/
theorem keeps_of_inv {t : State σ ι α γ} (h : Inv S Ok ids channels P t)
    (hp : t.st.published = s.st.published) : Keeps S Ok ids channels P s { next := t } :=
  ⟨by rw [append_nil]; exact h, by rw [hp, Bool.or_false], by simp⟩

/-- The caller moves on after the loop; of the select only `stop` and `waiter` may change. -/
theorem Inv.move (h : Inv S Ok ids channels P s) {st : SelectState α} {caller : CallerPc α}
    (hc : s.caller.spawned = true) (hc' : caller.spawned = true)
    (hst : st = { s.st with waiter := st.waiter, stop := st.stop })
    (hr : Resumes channels.length st caller) :
    Keeps S Ok ids channels P s { next := { s with st := st, caller := caller } } := by
  have hcounts : Counts channels.length st caller s.pull :=
    (h.counts.move hc hc').of_eq (by rw [hst]) (by rw [hst]) (by rw [hst]) (by rw [hst])
  have hrace : Race channels.length st s.pull (s.got ids channels) P :=
    h.race.of_eq (by rw [hst]) (by rw [hst]) (by rw [hst]) (by rw [hst])
  exact keeps_of_inv ⟨h.chan, h.calls, hcounts, hrace, hr⟩ (by rw [hst])

variable {c : γ}

/-- A pull goes through its first section. -/
theorem Inv.keeps_decide (h : Inv S Ok ids channels P s) (hi : s.pull i = .receiving)
    (hc : channels[i]? = some c) {g : Except Exn (Option α)}
    (hg : outcome ((s.chan c).recv (ids.pull i)).pc = some g) :
    Keeps S Ok ids channels P s
      { next := { s.setPull i (s.st.decide i g).2 with st := (s.st.decide i g).1 } } := by
  have hn := h.counts.index (i := i) (by simp [hi])
  have hunpub := h.counts.unpublished (i := i) (by simp [hi])
  have hg' : outcome (s.got ids channels i) = some g := by rw [got_eq hc, hg]
  obtain ⟨hp, hw, hpc⟩ : (s.st.decide i g).1.published = s.st.published ∧
      (s.st.decide i g).1.waiter = s.st.waiter ∧ (s.st.decide i g).2 ≠ .idle := by
    unfold SelectState.decide
    repeat' split
    all_goals simp
  have hcalls : Calls ids channels s.chan (update s.pull i (s.st.decide i g).2) := by
    refine h.calls.setPull hpc fun d hd => ?_
    obtain rfl : c = d := some.inj (hc.symm.trans (h.calls d i hd).1)
    revert hg
    cases ((s.chan c).recv (ids.pull i)).pc <;> simp [outcome]
  have hrace := h.race.decide hi hn hg' (h.counts.early_of_last hi)
  refine keeps_of_inv ⟨h.chan, hcalls, h.counts.decide hi g, hrace, ?_⟩ hp
  refine h.resumes.of_unpublished hunpub (fun h0 => ⟨hw ▸ h0, ?_⟩) fun h0 => .inl ?_
  · exact hp.trans hunpub
  · exact hw.trans h0

/-- A pull goes through its final section. -/
theorem Inv.keeps_finish (h : Inv S Ok ids channels P s) (hi : s.pull i = .finishing) :
    Keeps S Ok ids channels P s
      { next := { s.setPull i .finished with st := s.st.finish.1 }
        publishes := s.st.finish.2 } := by
  have hunpub := h.counts.unpublished (i := i) (by simp [hi])
  obtain ⟨hp, hw, hw', hrace⟩ : s.st.finish.1.published = s.st.finish.2 ∧
      (s.st.finish.1.waiter = true → s.st.waiter = true ∧ s.st.finish.1.published = false) ∧
      (s.st.waiter = true → s.st.finish.1.waiter = true ∨ s.st.finish.1.published = true) ∧
      Race channels.length s.st.finish.1 s.pull (s.got ids channels) P := by
    unfold SelectState.finish
    split
    · exact ⟨rfl, by simp, by simp, h.race.of_eq rfl rfl rfl rfl⟩
    · exact ⟨hunpub, fun h0 => ⟨h0, hunpub⟩, .inl, h.race.of_eq rfl rfl rfl rfl⟩
  have hcalls : Calls ids channels s.chan (update s.pull i .finished) :=
    h.calls.setPull (by simp) (h.over_of_late (by simp [hi]))
  refine ⟨?_, by rw [hunpub, Bool.false_or]; exact hp, fun _ => hunpub⟩
  rw [append_nil]
  exact ⟨h.chan, hcalls, h.counts.finish hi, hrace.setDone (by simp [hi]) (by simp [hi]) rfl,
    h.resumes.of_unpublished hunpub hw hw'⟩

/-- The pool refuses a pull. -/
theorem Inv.keeps_refuse (h : Inv S Ok ids channels P s) {start k : ℕ}
    (hc : s.caller = .spawning start k) :
    Keeps S Ok ids channels P s
      { next := { s with st := (s.st.failSelect (channels.length - k)).1, caller := .failing }
        publishes := (s.st.failSelect (channels.length - k)).2 } := by
  have hcounts := h.counts
  rw [hc] at hcounts
  have hunpub := hcounts.unpublished_of_loop rfl
  have hwait := h.resumes.waiter_eq (by simp [hc])
  obtain ⟨hp, hw⟩ : (s.st.failSelect (channels.length - k)).1.published =
      (s.st.failSelect (channels.length - k)).2 ∧
      (s.st.failSelect (channels.length - k)).1.waiter = s.st.waiter := by
    dsimp only [SelectState.failSelect]
    split <;> split <;> simp [hunpub]
  refine ⟨?_, by rw [hunpub, Bool.false_or]; exact hp, fun _ => hunpub⟩
  rw [append_nil]
  exact ⟨h.chan, h.calls, hcounts.refuse, h.race.fail _, resumes_unserved (hw.trans hwait) rfl⟩

variable [DecidableEq ι] [DecidableEq γ]

omit [DecidableEq ι] in
theorem chan_set (s : State σ ι α γ) (c d : γ) (m : Mailbox.State σ ι α) :
    (s.setChan c m).chan d = if d = c then m else s.chan d := by
  simp [update_apply]

/-- A pull's call takes a step only where and while the pull receives. -/
def Owned (ids : Ids ι) (channels : List γ) (s : State σ ι α γ) (c : γ)
    (e : Mailbox.Event ι η α) : Prop :=
  ∀ i, e.call = some (ids.pull i) → channels[i]? = some c ∧ s.pull i = .receiving

variable {e : Mailbox.Event ι η α}

omit [DecidableEq ι] in
theorem owned_of_permits (h : permits ids channels s c e = true) : Owned ids channels s c e := by
  intro i he
  have howner : ids.owner (ids.pull i) = some i := ids.owner_eq.mpr rfl
  simp only [permits, he, bind_some, howner, Bool.and_eq_true, decide_eq_true_eq] at h
  refine ⟨h.1.1, ?_⟩
  have hrecv := h.1.2
  revert hrecv
  cases s.pull i <;> simp [PullPc.isReceiving]

variable {a : Act σ ι α γ}

/-- **What a step does to the channels**: nothing, or a step of one of them, which is that of the
environment or of a pull's call, or a `pushFront`. No pull stops receiving by it. -/
theorem act_chan {e : Event ι α η γ} (ha : act S ids channels s e = some a) :
    a.next.chan = s.chan ∨
      ∃ c m b, Mailbox.act (S c) (s.chan c) m = some b ∧ Owned ids channels s c m ∧
        (e = .chan c m ∨ m.call = none) ∧ (∀ d, a.next.chan d = (s.setChan c b.next).chan d) ∧
        ∀ i, s.pull i = .receiving → a.next.pull i = .receiving := by
  cases e with (simp only [act] at ha; repeat' first | cases ha | split at ha)
  | chan c m =>
    next hperm =>
    obtain ⟨m', hm, rfl⟩ := map_eq_some_iff.mp ha
    obtain ⟨b, hb, rfl⟩ := map_eq_some_iff.mp hm
    exact .inr ⟨c, m, b, hb, owned_of_permits hperm, .inl rfl, fun _ => rfl, fun _ => id⟩
  | pushBack k =>
    next v c hk hc =>
    refine .inr ⟨c, .pushFront v, _, rfl, nofun, .inr rfl, fun _ => rfl, fun i hi => ?_⟩
    have hik : i ≠ k := by
      rintro rfl
      rw [hk] at hi
      cases hi
    exact (update_of_ne hik _ _).trans hi
  | decide =>
    obtain ⟨g, -, rfl⟩ := map_eq_some_iff.mp ha
    exact .inl rfl
  | _ => exact .inl rfl

omit [DecidableEq γ] in
/-- A channel's step moves only calls of pulls that receive from it. -/
theorem Inv.recv_chan (h : Inv S Ok ids channels P s) {a : Mailbox.Act σ ι α}
    (ha : Mailbox.act (S c) (s.chan c) e = some a) (hown : Owned ids channels s c e) (i : ℕ) :
    a.next.recv (ids.pull i) = (s.chan c).recv (ids.pull i) ∨
      (channels[i]? = some c ∧ s.pull i = .receiving) := by
  by_cases he : e.call = some (ids.pull i)
  · exact .inr (hown i he)
  by_cases hq : ((s.chan c).recv (ids.pull i)).queued = true
  · have hpc := (((h.chan c).wf _).queued hq).1
    obtain ⟨h1, -, h3⟩ := h.calls c i (by simp [hpc])
    exact .inr ⟨h1, h3 (by simp [hpc])⟩
  · exact .inl (recv_of_ne (h.chan c) ha he (by simpa using hq))

variable (L : ∀ c, Lawful (S c) (Ok c)) (h : Inv S Ok ids channels P s)

include L h

/-- A channel's step changes nothing for a pull that is through with it. -/
theorem Inv.setChan {a : Mailbox.Act σ ι α} (ha : Mailbox.act (S c) (s.chan c) e = some a)
    (hown : Owned ids channels s c e) : Inv S Ok ids channels P (s.setChan c a.next) := by
  refine ⟨fun d => ?_, fun d i hi => ?_, h.counts, h.race.of_got fun i hi => ?_, h.resumes⟩
  · rw [chan_set]
    split_ifs with hd
    · subst hd
      exact (act_moved (L d) (h.chan d) ha).inv
    · exact h.chan d
  · rw [chan_set] at hi ⊢
    split_ifs at hi with hd
    · rw [if_pos hd, hd]
      rcases h.recv_chan ha hown i with hsame | ⟨hci, hrecv⟩
      · rw [hsame] at hi ⊢
        exact h.calls c i hi
      · exact ⟨hci, by simp [hrecv], fun _ => hrecv⟩
    · rw [if_neg hd]
      exact h.calls d i hi
  · have hover := h.race.past hi
    cases hci : channels[i]? with
    | none => simp [State.got, hci]
    | some d =>
      rw [got_eq hci] at hover ⊢
      rw [got_eq hci, chan_set]
      split_ifs with hd
      · subst hd
        rw [recv_of_over (h.chan d) ha hover]
      · rfl

/-- **Every step of a select.** -/
theorem act_keeps {e : Event ι α η γ}
    (ha : act S ids channels s e = some a) : Keeps S Ok ids channels P s a := by
  cases e with (simp only [act] at ha; repeat' first | cases ha | split at ha)
  | chan =>
    next hperm =>
    obtain ⟨m, hm, rfl⟩ := map_eq_some_iff.mp ha
    obtain ⟨b, hb, rfl⟩ := map_eq_some_iff.mp hm
    exact keeps_of_inv (h.setChan L hb (owned_of_permits hperm)) rfl
  | start rotor =>
    next hc hn =>
    have hcounts := h.counts
    rw [hc] at hcounts
    have hwait := h.resumes.waiter_eq (by simp [hc])
    first
    | rw [hn] at hcounts
      refine keeps_of_inv ⟨h.chan, h.calls, hn ▸ hcounts.start_empty, h.race, ?_⟩ rfl
      refine ⟨by simp [hwait], by simp, by simp, fun h0 => .inl ⟨hn, ?_⟩, by simp⟩
      simpa [eq_comm] using h0
    | exact keeps_of_inv ⟨h.chan, h.calls, hcounts.start (by omega) rotor,
        h.race.of_eq rfl rfl rfl rfl, resumes_unserved hwait rfl⟩ rfl
  | spawn =>
    next start k hc =>
    have hcounts := h.counts
    rw [hc] at hcounts
    have hidle := hcounts.next_idle
    have hwait := h.resumes.waiter_eq (by simp [hc])
    refine keeps_of_inv ⟨h.chan, h.calls.setPull (by simp) fun c hi => ?_, hcounts.spawn,
      h.race.setEarly (by simp [hidle]) rfl, resumes_unserved hwait ?_⟩ rfl
    · exact absurd hidle (h.calls c _ hi).2.1
    · split <;> rfl
  | refuse =>
    next start k hc =>
    exact h.keeps_refuse hc
  | failStop | dropStop =>
    next hc =>
    exact h.move (by simp [hc]) rfl rfl
      (resumes_unserved (h.resumes.waiter_eq (by simp [hc])) rfl)
  | scopeStop =>
    exact keeps_of_inv ⟨h.chan, h.calls, h.counts.of_eq rfl rfl rfl rfl,
      h.race.of_eq rfl rfl rfl rfl, h.resumes.stop⟩ rfl
  | decide =>
    next c hi hc =>
    obtain ⟨g, hg, rfl⟩ := map_eq_some_iff.mp ha
    exact h.keeps_decide hi hc hg
  | stopAll i =>
    next hi =>
    have hearly : (s.pull i).early = false := by simp [hi]
    exact keeps_of_inv ⟨h.chan, h.calls.setPull (by simp) (h.over_of_late hearly),
      h.counts.setPull_late (by simp [hi]) hearly rfl rfl rfl rfl rfl rfl,
      (h.race.setDone hearly (by simp [hi]) rfl).of_eq rfl rfl rfl rfl, h.resumes.stop⟩ rfl
  | pushBack i =>
    next v c hi hc =>
    have hset := h.setChan L (c := c) (e := .pushFront v) rfl fun j hj => by cases hj
    have hearly : (s.pull i).early = false := by simp [hi]
    exact ⟨⟨hset.chan, hset.calls.setPull (by simp) (hset.over_of_late hearly),
      hset.counts.setPull_late (by simp [hi]) hearly rfl rfl rfl rfl
        rfl rfl, hset.race.pushBack hi, hset.resumes⟩, by simp,
      by simp⟩
  | finish =>
    next hi =>
    exact h.keeps_finish hi
  | look =>
    next hc =>
    have hwait := h.resumes.waiter_eq (by simp [hc])
    refine h.move (by simp [hc]) (by split <;> rfl) rfl ?_
    split_ifs with hp
    · exact resumes_resuming hwait hp
    · exact resumes_unserved hwait rfl
  | suspend =>
    next hc hp =>
    have hsp : s.caller.spawned = true := by simp [hc]
    have hwait := h.resumes.waiter_eq (by simp [hc])
    first
    | exact h.move hsp rfl rfl (resumes_resuming hwait hp)
    | exact h.move hsp rfl rfl
        ⟨fun _ => ⟨rfl, by simpa using hp⟩, fun _ => .inl rfl, by simp, by simp, by simp⟩
  | wake =>
    next hc hw =>
    have hp := (h.resumes.parked hc).resolve_left (by simp [hw])
    exact h.move (by simp [hc]) rfl rfl (resumes_resuming hw hp)
  | resume =>
    next hc hx =>
    have hp := h.resumes.resuming hc
    have hwait := h.resumes.waiter_eq (by simp [hc])
    first
    | exact h.move (by simp [hc]) rfl rfl
        ⟨by simp [hwait], by simp, by simp, by simp, fun h0 => ⟨hp, by simpa [hx] using h0⟩⟩
    | have hkeep : Keeps S Ok ids channels P s
          { next := { s with caller := .returned s.st.winningIndex s.st.result } } :=
        h.move (by simp [hc]) rfl rfl
          ⟨by simp [hwait], by simp, by simp,
            fun h0 => .inr ⟨hp, hx, by simpa [eq_comm] using h0⟩, by simp⟩
      exact ⟨hkeep.inv, hkeep.published, hkeep.once⟩
  | destroy =>
    next hc =>
    exact h.move (by simp [hc]) rfl rfl (resumes_unserved rfl rfl)

/-- A pull ends empty-handed only if it has been receiving from a closed and drained channel. -/
theorem Inv.ended_act {e : Event ι α η γ} (ha : act S ids channels s e = some a)
    (he : ((a.next.chan c).recv (ids.pull i)).ended) :
    ((s.chan c).recv (ids.pull i)).ended ∨ (s.pull i = .receiving ∧ Drained (S c) (s.chan c)) ∨
      (a.next.pull i = .receiving ∧ Drained (S c) (a.next.chan c)) := by
  rcases act_chan ha with hsame | ⟨d, m, b, hb, hown, -, hchan, hstill⟩
  · rw [hsame] at he
    exact .inl he
  · rw [hchan, chan_set] at he ⊢
    obtain rfl | hcd := eq_or_ne c d
    · rw [if_pos rfl] at he ⊢
      rcases h.recv_chan hb hown i with hsame | ⟨-, hrecv⟩
      · exact .inl (hsame ▸ he)
      · rcases ended_of_act (L c) (h.chan c) hb he with h0 | h0 | h0
        · exact .inl h0
        · exact .inr (.inl ⟨hrecv, h0⟩)
        · exact .inr (.inr ⟨hstill i hrecv, h0⟩)
    · rw [if_neg hcd] at he
      exact .inl he

end Steps

/-! ### Whole selects -/

section Runs

variable [DecidableEq ι] [DecidableEq γ] {S : γ → Side σ η α} {Ok : γ → σ → Prop} {ids : Ids ι}
  {channels : List γ} {tr : List (State σ ι α γ × Event ι α η γ)} {s : State σ ι α γ}

/-- The values pushed back, each with its pull, in order. -/
def pushedBack (S : γ → Side σ η α) (ids : Ids ι) (channels : List γ) :
    List (State σ ι α γ × Event ι α η γ) → List (ℕ × α) :=
  logOf fun s e => ((act S ids channels s e).map Act.pushes).getD []

/-- How often `published` was set. -/
def publications (S : γ → Side σ η α) (ids : Ids ι) (channels : List γ)
    (tr : List (State σ ι α γ × Event ι α η γ)) : ℕ :=
  tr.countP fun p => ((act S ids channels p.1 p.2).map Act.publishes).getD false

variable {chan : γ → Mailbox.State σ ι α} (L : ∀ c, Lawful (S c) (Ok c))
  (hchan : ∀ c, Mailbox.Inv (S c) (Ok c) (chan c)) (hnew : ∀ c i, (chan c).recv (ids.pull i) = {})
  (hr : Run (step S ids channels) { chan := chan } tr s)

include L hchan hnew hr

theorem inv_run : Inv S Ok ids channels (pushedBack S ids channels tr) s := by
  induction hr with
  | start => exact inv_init hchan fun c i => by rw [hnew c i]
  | next _ hs ih =>
    obtain ⟨a, ha, rfl⟩ := map_eq_some_iff.mp hs
    have h := (act_keeps L ih ha).inv
    simpa [pushedBack, ha] using h

/-- `published` is set once, if at all. -/
theorem publications_run : publications S ids channels tr = s.st.published.toNat := by
  induction hr with
  | start => rfl
  | next hr hs ih =>
    obtain ⟨a, ha, rfl⟩ := map_eq_some_iff.mp hs
    have h := act_keeps L (inv_run L hchan hnew hr) ha
    have hlog : ∀ t : List (State σ ι α γ × Event ι α η γ), publications S ids channels t =
        t.countP fun p => ((act S ids channels p.1 p.2).map Act.publishes).getD false :=
      fun _ => rfl
    rw [hlog] at ih ⊢
    rw [countP_append, ih, h.published]
    cases hp : a.publishes with
    | false => simp [ha, hp]
    | true => simp [ha, hp, h.once hp]

/-- A pull that got nothing was receiving when its channel was closed and drained. -/
theorem ended_run {c : γ} {i : ℕ} (hi : ((s.chan c).recv (ids.pull i)).ended) :
    ∃ t, Visits tr s t ∧ t.pull i = .receiving ∧ Drained (S c) (t.chan c) := by
  induction hr with
  | start => simp [hnew c i, RecvCall.ended] at hi
  | @next tr s t e hr hs ih =>
    obtain ⟨a, ha, rfl⟩ := map_eq_some_iff.mp hs
    rcases (inv_run L hchan hnew hr).ended_act L ha hi with h0 | h0 | h0
    · obtain ⟨t, ht, h1⟩ := ih h0
      exact ⟨t, ht.snoc, h1⟩
    · exact ⟨s, .inr ⟨e, by simp⟩, h0⟩
    · exact ⟨a.next, .inl rfl, h0⟩

/-- What a pull obtained is the result, once the select is published, or has been pushed back. -/
theorem account_run (hfin : ∀ i, s.pull i ≠ .idle → s.pull i = .finished) {i : ℕ} {v : α}
    (hv : s.got ids channels i = .returned (some v)) :
    (s.st.winningIndex = i ∧ s.st.result = some v) ∨ (i, v) ∈ pushedBack S ids channels tr := by
  have h := inv_run L hchan hnew hr
  cases hc : channels[i]? with
  | none => simp [State.got, hc] at hv
  | some c =>
    have hpc := hv
    rw [got_eq hc] at hpc
    have hdone := hfin i (h.calls c i (by simp [hpc])).2.1
    refine (h.race.account (by simp [hdone]) hv).resolve_left ?_
    simp [hdone]

/-- **A select loses nothing and completes once.** It is published once, when and only when the
loop is over and the started pulls have finished; by then every value that a pull obtained is the
result of the winner or has been pushed back, and not both. If the select returns empty, every pull
found its channel closed and drained; if it throws, every value has been pushed back. -/
theorem select_lossless :
    publications S ids channels tr = s.st.published.toNat ∧
    (0 < channels.length → (s.st.published = true ↔
      s.caller.spawned = true ∧ ∀ i, s.pull i ≠ .idle → s.pull i = .finished)) ∧
    (s.st.published = true → ∀ i v, s.got ids channels i = .returned (some v) →
      ((s.st.winningIndex = i ∧ s.st.result = some v) ∨ (i, v) ∈ pushedBack S ids channels tr) ∧
      ¬ (s.st.winningIndex = i ∧ s.st.result = some v ∧ (i, v) ∈ pushedBack S ids channels tr)) ∧
    ((pushedBack S ids channels tr).map Prod.fst).Nodup ∧
    (∀ v, s.st.result = some v → s.got ids channels s.st.winningIndex = .returned (some v)) ∧
    (0 < channels.length → ∀ k r, s.caller = .returned k r →
      s.st.published = true ∧ k = s.st.winningIndex ∧ r = s.st.result) ∧
    (∀ k, s.caller = .returned k none → ∀ j c, channels[j]? = some c →
      s.got ids channels j = .returned none ∧
        ∃ t, Visits tr s t ∧ t.pull j = .receiving ∧ Drained (S c) (t.chan c)) ∧
    (∀ x, s.caller = .threw x → s.st.published = true ∧ s.st.result = none ∧
      ∀ i v, s.got ids channels i = .returned (some v) →
        (i, v) ∈ pushedBack S ids channels tr) := by
  have h := inv_run L hchan hnew hr
  have hfin : s.st.published = true → ∀ i, s.pull i ≠ .idle → s.pull i = .finished :=
    fun hp i hi => h.counts.finished hp hi
  refine ⟨publications_run L hchan hnew hr, fun hn => ⟨fun hp => ?_, fun hp => ?_⟩,
    fun hp i v hv => ⟨account_run L hchan hnew hr (hfin hp) hv, ?_⟩, h.race.once,
    fun v hv => (h.race.won hv).2.1, fun hn k r hc => ?_, fun k hc j c hj => ?_, fun x hx => ?_⟩
  · exact ⟨(h.counts.published.mp hp).2.1, hfin hp⟩
  · exact h.counts.published_of_finished hn hp.1 hp.2
  · rintro ⟨rfl, hr, hm⟩
    exact (h.race.won hr).2.2.2.2 v hm
  · rcases h.resumes.returned hc with ⟨hz, -⟩ | ⟨hp, -, hk, hr⟩
    · omega
    · exact ⟨hp, hk, hr⟩
  · have hjn : j < channels.length := (List.getElem?_eq_some_iff.mp hj).1
    rcases h.resumes.returned hc with ⟨hz, -⟩ | ⟨hp, hx, -, hres⟩
    · omega
    · have hnone := (h.race.empty (h.counts.decided_of_published hp) hres.symm hx j hjn).2
      refine ⟨hnone, ended_run L hchan hnew hr (.inl ?_)⟩
      rw [got_eq hj] at hnone
      exact hnone
  · obtain ⟨hp, hexc⟩ := h.resumes.threw hx
    have hres : s.st.result = none := by
      cases hres : s.st.result with
      | none => rfl
      | some =>
        rw [(h.race.won hres).1] at hexc
        cases hexc
    refine ⟨hp, hres, fun i v hv => ?_⟩
    refine (account_run L hchan hnew hr (hfin hp) hv).resolve_left fun h0 => ?_
    rw [hres] at h0
    cases h0.2

end Runs

/-- Other receivers on the left, the pulls of the select on the right. -/
def Ids.sum : Ids (ι ⊕ ℕ) where
  pull := .inr
  owner := Sum.elim (fun _ => none) some
  owner_eq := by
    intro j i
    cases j <;> simp [eq_comm]

/-- Channels without a cap, all open and empty. -/
def opened : State (Core ℕ) (ℕ ⊕ ℕ) ℕ ℕ := { chan := fun _ => init }

/-- Both channels hold a value and both pulls take one. Pull `0` wins; pull `1` puts `6` back. -/
def bothReady : List (Event (ℕ ⊕ ℕ) ℕ ℕ ℕ) :=
  [.chan 0 (.send 5), .chan 1 (.send 6), .start 0, .spawn, .spawn,
    .chan 0 (.receive (.inr 0) false), .chan 1 (.receive (.inr 1) false), .decide 0, .decide 1,
    .look, .suspend, .stopAll 0, .pushBack 1, .finish 0, .finish 1, .wake, .resume]

theorem select_lossless_bothReady : ∃ tr s,
    Run (step (fun _ => side 0) Ids.sum [0, 1]) opened tr s ∧
      s.caller = .returned 0 (some 5) ∧ ((s.chan 1).stock).buffer = [6] ∧
      publications (fun _ => side 0) Ids.sum [0, 1] tr = 1 ∧
      pushedBack (fun _ => side 0) Ids.sum [0, 1] tr = [(1, 6)] ∧
      ∀ i, s.pull i ≠ .idle → s.pull i = .finished := by
  have hr := Run.of_exec
    (show exec (step (fun _ => side 0) Ids.sum [0, 1]) opened bothReady = some _ from rfl)
  have h := select_lossless (fun _ => lawful 0) (fun _ => inv_start trivial)
    (fun _ _ => rfl) hr
  exact ⟨_, _, hr, rfl, rfl, h.1, rfl, ((h.2.1 (by decide)).mp rfl).2⟩

end Manwe.Select
