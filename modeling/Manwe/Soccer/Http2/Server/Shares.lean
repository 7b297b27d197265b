import Manwe.Soccer.Http2.Server.Steps
import Manwe.Transition.Tally

/-!
# Shares of the stream cap

A handler has a share of the cap from its dispatch until it answers or ends. **Where the share is
counted** moves: as long as the stream is in the map, the entry counts, and says by `handlerActive`
that a handler works on it; when the client resets the stream, the entry goes and the share moves to
`orphanHandlers`, from where the destructor of `Finished` takes it.

`Slot` is what holds of one entry and its handler at any time. With it the orphans are exactly the
handlers with a share and without a stream, and the cap bounds both kinds together.
-/

namespace Manwe.Http2.Server

open List Table Handler Phase ServerStream

/-- Between dispatch and the end. -/
@[simp] def Phase.alive : Phase → Bool
  | .absent | .ended => false
  | _ => true

/-- The handler counts against the cap. -/
def Handler.share (h : Handler) : Bool := h.phase.alive && !h.released

/-- A share that no entry counts. -/
@[simp] def Orphaned (a : Option ServerStream) (h : Handler) : Prop := h.share = true ∧ a = none

variable {p q : Phase}

theorem Phase.alive_of_early (h : p.early = true) : p.alive = true := by
  cases p <;> first | rfl | cases h

theorem Moves.alive (h : Moves p q) : p.alive = true ∧ q.alive = true := by
  obtain ⟨hp, hq | rfl⟩ | ⟨rfl, rfl⟩ := h
  · exact ⟨alive_of_early hp, alive_of_early hq⟩
  · exact ⟨alive_of_early hp, rfl⟩
  · exact ⟨rfl, rfl⟩

theorem Moves.share {h : Handler} (hm : Moves h.phase q) :
    ({ h with phase := q } : Handler).share = h.share := by
  simp only [Handler.share, hm.alive.1, hm.alive.2]

theorem Phase.ne_absent_of_alive (h : p.alive = true) : p ≠ .absent := by
  rintro rfl
  cases h

/-! ### One entry and its handler -/

/-- **What holds of a stream and its handler.** -/
structure Slot (a : Option ServerStream) (h : Handler) : Prop where
  active : ∀ st, a = some st → st.handlerActive = h.share
  started : ∀ st, a = some st → h.phase ≠ .absent →
    st.handlerStarted = true ∧ st.responseSubmitted = true
  released : h.released = true → h.phase.early = false

variable {o : Http2ServerOptions} {s t : State} {e : Event} {a a' : Option ServerStream}
  {h h' : Handler} {k : ℕ}

theorem Slot.none (hr : h.released = true → h.phase.early = false) : Slot none h :=
  ⟨nofun, nofun, hr⟩

variable {st : ServerStream}

/-- The entry changes, and neither the flags that count nor the handler do. -/
theorem Slot.entry {st' : ServerStream} (hs : Slot (some st) h)
    (ha : st'.handlerActive = st.handlerActive)
    (hg : st.handlerStarted = true → st'.handlerStarted = true)
    (hr : st.responseSubmitted = true → st'.responseSubmitted = true) : Slot (some st') h where
  active := fun _ heq => by cases heq; exact ha.trans (hs.active st rfl)
  started := fun _ heq hp => by
    cases heq
    exact ⟨hg (hs.started st rfl hp).1, hr (hs.started st rfl hp).2⟩
  released := hs.released

/-- The handler goes on and keeps its share or its lack of one. -/
theorem Slot.handler (hs : Slot a h) (hsh : h'.share = h.share) (hp : h.phase ≠ .absent)
    (hr : h'.released = true → h'.phase.early = false) : Slot a h' where
  active := fun st heq => (hs.active st heq).trans hsh.symm
  started := fun st heq _ => hs.started st heq hp
  released := hr

theorem ready_iff (st : ServerStream) : st.ready = true ↔
    (st.bodyRejected || st.rejected) = false ∧ st.handlerStarted = true ∧
      st.responseSubmitted = false := by
  simp [ready, and_assoc]

theorem walked_of_ready {st : ServerStream} (h : st.ready = true) : st.walked =
    { st with responseSubmitted := true, handlerActive := true, req := {} } := by
  rw [walked, ((ready_iff st).1 h).1, h]
  rfl

/-- A stream that is not ready is answered by the walk if it is rejected, and left alone if not. -/
theorem walked_of_not_ready {st : ServerStream} (h : st.ready = false) : st.walked =
    { st with responseSubmitted := st.bodyRejected || st.rejected || st.responseSubmitted } := by
  rw [walked, h]
  cases st.bodyRejected || st.rejected <;> rfl

/-- A slot holds on; a stream that begins has no handler yet. -/
theorem Slot.touch (hs : Slot a h) (ht : Touch o s k e a h a' h')
    (hnew : s.lastId < k → h.phase = .absent) : Slot a' h' := by
  cases ht with
  | same | quiet | absent => exact hs
  | create new =>
    have hp := hnew new
    refine ⟨fun _ heq => ?_, fun _ _ hn => absurd hp hn, hs.released⟩
    cases heq
    simp [share, hp]
  | @header name value st =>
    have hk := st.headOnly_onHeader o name value
    exact hs.entry hk.active (fun h => hk.started.trans h) fun h => hk.submitted.trans h
  | reject | take => exact hs.entry rfl (fun h => h) fun h => h
  | complete => exact hs.entry rfl (fun _ => rfl) fun h => h
  | close => exact .none hs.released
  | @dispatch st _ ready =>
    rw [walked_of_ready ready]
    refine ⟨fun _ heq => ?_, fun _ heq _ => ?_, nofun⟩ <;> cases heq
    · rfl
    · exact ⟨((ready_iff st).1 ready).2.1, rfl⟩
  | pass ready =>
    rw [walked_of_not_ready ready]
    exact hs.entry rfl (fun h => h) fun h => by simp [h]
  | move silent moves =>
    refine hs.handler moves.share (ne_absent_of_alive moves.alive.1) fun hr => ?_
    have hp := hs.released hr
    obtain ⟨hp', -⟩ | ⟨-, hq⟩ := moves
    · exact absurd (hp.symm.trans hp') (by simp)
    · rw [hq]
      rfl
  | finish running =>
    refine hs.handler ?_ (by rw [running]; simp) fun hr => ?_
    · simp [share, running, alive]
    · have hp := hs.released hr
      rw [running] at hp
      cases hp
  | submit answering =>
    refine ⟨fun _ heq => ?_, fun st heq _ => ?_, fun _ => rfl⟩ <;> cases heq
    · simp [share]
    · exact ⟨(hs.started _ rfl (by rw [answering]; simp)).1, rfl⟩
  | retire leaving released =>
    refine hs.handler ?_ (by rw [leaving]; simp) fun _ => rfl
    simp [share, released]
  | @leave st _ leaving =>
    refine ⟨fun _ heq => ?_, fun _ heq _ => ?_, fun _ => rfl⟩ <;> cases heq
    · simp [share]
    · exact hs.started st rfl (by rw [leaving]; simp)
  | orphan => exact .none fun _ => rfl

/-- Orphans come by closed streams and go by the destructor of `Finished`. -/
theorem Touch.orphaned_iff (ht : Touch o s k e a h a' h') (hnew : s.lastId < k → h.phase = .absent)
    (hclose : a' = none → a = none) (hleave : e = .release k → a = none → h.released = true) :
    Orphaned a' h' ↔ Orphaned a h := by
  cases ht with
  | same | quiet | absent => exact Iff.rfl
  | create new => simp [share, hnew new]
  | header | reject | take | complete | dispatch | pass | submit | leave => simp
  | close => cases hclose rfl
  | move silent moves => rw [Orphaned, moves.share, Orphaned]
  | finish running => simp [share, running]
  | retire leaving released => simp [share, released]
  | orphan leaving released =>
    rw [hleave rfl rfl] at released
    cases released

/-- Only a closed stream leaves the map. -/
theorem Touch.stays (ht : Touch o s k e a h a' h') (he : e ≠ .close k) (hn : a' = none) : a = none
    := by
  cases ht with
  | close => exact absurd rfl he
  | same | quiet | absent | move | finish | retire | orphan => exact hn
  | _ => cases hn

/-! ### The whole connection -/

/-- **What holds of the shares.** -/
structure Shared (o : Http2ServerOptions) (s : State) : Prop where
  fresh : ∀ id, s.lastId < id → s.streams.find id = none ∧ (s.handlers id).phase = .absent
  slot : ∀ id, Slot (s.streams.find id) (s.handlers id)
  orphans : Tally (fun id => Orphaned (s.streams.find id) (s.handlers id)) s.orphanHandlers
  capped : o.maxConcurrentStreams ≠ 0 → s.streams.size + s.orphanHandlers ≤ o.maxConcurrentStreams

theorem Shared.init : Shared o {} where
  fresh := fun _ _ => ⟨rfl, rfl⟩
  slot := fun _ => .none nofun
  orphans := .zero fun _ h => absurd h.1 (by simp [share])
  capped := fun _ => Nat.zero_le _

theorem Change.lastId_le (hc : Change o s e t) : s.lastId ≤ t.lastId := by
  cases hc with
  | quiet later => exact later
  | create new => exact new.le
  | _ => exact le_rfl

variable {id : ℕ}

theorem Change.lastId_eq (hc : Change o s (.beginHeaders id) t)
    (h : t.streams.find id ≠ none) (hn : s.streams.find id = none) : t.lastId = id := by
  cases hc with
  | quiet | move => exact absurd hn h
  | create => rfl

variable (hi : Shared o s)

include hi

theorem Shared.touch (hc : Change o s e t) (k : ℕ) :
    Touch o s k e (s.streams.find k) (s.handlers k) (t.streams.find k) (t.handlers k) :=
  hc.touch (fun id hid => (hi.fresh id hid).1) k

theorem Shared.fresh_step (hc : Change o s e t) (k : ℕ) (hk : t.lastId < k) :
    t.streams.find k = none ∧ (t.handlers k).phase = .absent := by
  obtain ⟨hn, hp⟩ := hi.fresh k (hc.lastId_le.trans_lt hk)
  have ht := hi.touch hc k
  rw [hn] at ht
  generalize ha' : t.streams.find k = a' at ht
  generalize hh' : t.handlers k = h' at ht
  cases ht with
  | same | quiet | absent => exact ⟨rfl, hp⟩
  | create => exact absurd (hc.lastId_eq (by simp [ha']) hn) hk.ne
  | move silent moves => exact absurd hp (ne_absent_of_alive moves.alive.1)
  | finish running => rw [hp] at running; cases running
  | retire leaving | orphan leaving => rw [hp] at leaving; cases leaving

/-- Nobody becomes an orphan, and no orphan leaves. -/
theorem Shared.orphans_congr (hc : Change o s e t) (he : ∀ id, e ≠ .close id)
    (hleave : ∀ id, e = .release id → s.streams.find id = none → (s.handlers id).released = true)
    (hn : t.orphanHandlers = s.orphanHandlers) :
    Tally (fun id => Orphaned (t.streams.find id) (t.handlers id)) t.orphanHandlers := by
  rw [hn]
  refine hi.orphans.congr fun k => ?_
  have ht := hi.touch hc k
  exact ht.orphaned_iff (fun hk => (hi.fresh k hk).2) (ht.stays (he k)) (hleave k)

theorem Shared.orphans_close (found : s.streams.find id = some st) :
    Tally (fun k => Orphaned ((s.streams.erase id).find k) (s.handlers k))
      (if st.handlerActive then s.orphanHandlers + 1 else s.orphanHandlers) := by
  have hact : st.handlerActive = (s.handlers id).share := (hi.slot id).active st found
  split
  · next ha =>
    refine hi.orphans.insert (j := id) (by simp [found]) fun k => ?_
    rw [find_erase]
    split
    · next hk => simp [hk, ← hact, ha]
    · next hk => simp [hk]
  · next ha =>
    refine hi.orphans.congr fun k => ?_
    rw [find_erase]
    split
    · next hk => simp [hk, ← hact, ha]
    · exact Iff.rfl

theorem Shared.orphans_orphan (gone : s.streams.find id = none)
    (leaving : (s.handlers id).phase = .leaving) (released : (s.handlers id).released = false) :
    Tally (fun k => Orphaned (s.streams.find k) ((s.endHandler id).handlers k))
      (s.orphanHandlers - 1) := by
  have hj : Orphaned (s.streams.find id) (s.handlers id) :=
    ⟨by simp [share, leaving, released], gone⟩
  refine hi.orphans.erase hj fun k => ?_
  obtain rfl | hk := eq_or_ne k id
  · rw [State.endHandler, handlers_setHandler_self]
    simp [share]
  · rw [State.endHandler, handlers_setHandler_of_ne _ hk]
    exact (and_iff_left hk).symm

theorem Shared.orphans_step (hc : Change o s e t) :
    Tally (fun id => Orphaned (t.streams.find id) (t.handlers id)) t.orphanHandlers := by
  cases id hc with
  | close found => exact hi.orphans_close found
  | orphan gone leaving released => exact hi.orphans_orphan gone leaving released
  | quiet => exact hi.orphans
  | retire leaving released =>
    refine hi.orphans_congr hc nofun (fun _ heq _ => ?_) rfl
    cases heq
    exact released
  | leave found =>
    refine hi.orphans_congr hc nofun (fun _ heq hn => ?_) rfl
    cases heq
    rw [found] at hn
    cases hn
  | @move _ id _ silent other moves =>
    refine hi.orphans.congr fun k => ?_
    obtain rfl | hk := eq_or_ne k id
    · rw [State.go, handlers_setHandler_self, Orphaned, moves.share]
      rfl
    · rw [State.go, handlers_setHandler_of_ne _ hk]
      rfl
  | _ => exact hi.orphans_congr hc nofun nofun rfl

theorem Shared.capped_step (hc : Change o s e t) (hm : o.maxConcurrentStreams ≠ 0) :
    t.streams.size + t.orphanHandlers ≤ o.maxConcurrentStreams := by
  have hcap := hi.capped hm
  cases hc with
  | create new =>
    have hsize := size_emplace (a := ({} : ServerStream)) (hi.fresh _ new).1
    simp only [hsize]
    omega
  | close found =>
    have hsize := size_erase found
    simp only
    split <;> omega
  | dispatch => simpa [State.dispatch] using hcap
  | orphan => exact le_trans (Nat.add_le_add_left (Nat.sub_le _ _) _) hcap
  | header | reject | take | complete | submit | leave =>
    refine le_trans (Nat.add_le_add_right (le_of_eq ?_) _) hcap
    exact size_adjust _
  | _ => exact hcap

/-- **The shares are counted right.** -/
theorem Shared.step (hs : step o s e = some t) : Shared o t := by
  have hc := change_of_step hs
  exact ⟨hi.fresh_step hc, fun id => (hi.slot id).touch (hi.touch hc id) fun hid =>
    (hi.fresh id hid).2,
    hi.orphans_step hc, hi.capped_step hc⟩

omit hi

theorem shared_run {tr : List (State × Event)} (hrun : Run (step o) {} tr s) : Shared o s :=
  hrun.invariant (fun _ _ => True) (fun _ _ => trivial) .init fun hi _ hs => hi.step hs

/-- The destructor of `Finished` never finds the counter at zero. -/
theorem Shared.orphanHandlers_pos (hi : Shared o s) (gone : s.streams.find id = none)
    (leaving : (s.handlers id).phase = .leaving) (released : (s.handlers id).released = false) :
    0 < s.orphanHandlers :=
  hi.orphans.pos ⟨by simp [share, leaving, released], gone⟩

/-! ### Handlers that run -/

theorem Shared.share_of_running (hi : Shared o s) (hr : (s.handlers id).phase = .running) :
    (s.handlers id).share = true := by
  have hrel : (s.handlers id).released = false := by
    by_contra hne
    have := (hi.slot id).released (by simpa using hne)
    rw [hr] at this
    cases this
  simp [share, hr, hrel]

/-- **Handlers with a share are no more than streams and orphans together.** -/
theorem Shared.length_le {ids : List ℕ} (hi : Shared o s) (hn : ids.Nodup)
    (hshare : ∀ id ∈ ids, (s.handlers id).share = true) :
    ids.length ≤ s.streams.size + s.orphanHandlers := by
  obtain ⟨F, hF, hcard⟩ := hi.orphans
  have hsub : ids.toFinset ⊆ (s.streams.entries.map Prod.fst).toFinset ∪ F := by
    intro id hid
    rw [mem_toFinset] at hid
    rw [Finset.mem_union, mem_toFinset]
    by_cases hmem : id ∈ s.streams.entries.map Prod.fst
    · exact .inl hmem
    · exact .inr ((hF id).2 ⟨hshare id hid, find_eq_none.2 hmem⟩)
  calc ids.length = ids.toFinset.card := (toFinset_card_of_nodup hn).symm
    _ ≤ ((s.streams.entries.map Prod.fst).toFinset ∪ F).card := Finset.card_le_card hsub
    _ ≤ (s.streams.entries.map Prod.fst).toFinset.card + F.card := Finset.card_union_le _ _
    _ = s.streams.size + s.orphanHandlers := by
      rw [toFinset_card_of_nodup s.streams.nodup, length_map, hcard]
      rfl

end Manwe.Http2.Server
