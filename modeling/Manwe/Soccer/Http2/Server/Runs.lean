import Manwe.Soccer.Http2.Server.Shares

/-!
# Handlers over a whole connection

However fast the client opens and resets streams, **the handlers that run are never more than the
concurrent-stream cap**: a stream is admitted only if it fits beside the streams of the map and the
orphans (`handlers_capped`). Beside it stands what this rests on, that a stream is dispatched once,
and what the client sees of it: **a stream is answered once at most** (`responses_once`).
-/

namespace Manwe.Http2.Server

open Http List

variable {o : Http2ServerOptions} {s t : State} {e : Event} {tr : List (State × Event)}

/-! ### Dispatch -/

theorem mem_dispatched {id : ℕ} {req : Http2Request} : (id, req) ∈ dispatched s e ↔
    e = .dispatch ∧ ∃ st, s.streams.find id = some st ∧ st.ready = true ∧ st.req = req := by
  cases e with
  | dispatch =>
    simp only [dispatched, mem_map, mem_filter, Prod.mk.injEq, Prod.exists, true_and]
    constructor
    · rintro ⟨k, st, ⟨hm, hr⟩, rfl, rfl⟩
      exact ⟨st, Table.find_eq_some.2 hm, hr, rfl⟩
    · rintro ⟨st, hf, hr, hreq⟩
      exact ⟨id, st, ⟨Table.find_eq_some.1 hf, hr⟩, rfl, hreq⟩
  | _ => simp [dispatched]

theorem mem_dispatched_fst {id : ℕ} : id ∈ (dispatched s e).map Prod.fst ↔
    e = .dispatch ∧ ∃ st, s.streams.find id = some st ∧ st.ready = true := by
  simp only [mem_map, Prod.exists, exists_and_right, exists_eq_right, mem_dispatched]
  constructor
  · rintro ⟨_, he, st, hf, hr, _⟩
    exact ⟨he, st, hf, hr⟩
  · rintro ⟨he, st, hf, hr⟩
    exact ⟨_, he, st, hf, hr, rfl⟩

theorem nodup_dispatched : ((dispatched s e).map Prod.fst).Nodup := by
  cases e with
  | dispatch =>
    rw [dispatched, map_map]
    exact s.streams.nodup.sublist (filter_sublist.map _)
  | _ => exact nodup_nil

/-- A handler comes by a dispatch, and stays known. -/
theorem phase_ne_absent_iff (hi : Shared o s) (hs : step o s e = some t) (id : ℕ) :
    (t.handlers id).phase ≠ .absent ↔
      (s.handlers id).phase ≠ .absent ∨ id ∈ (dispatched s e).map Prod.fst := by
  have ht := hi.touch (change_of_step hs) id
  rw [mem_dispatched_fst]
  generalize s.streams.find id = a at ht ⊢
  generalize t.streams.find id = a' at ht
  generalize t.handlers id = h' at ht ⊢
  cases ht with
  | dispatch ready | pass ready => simp [ready]
  | move silent moves =>
    have hq := Phase.ne_absent_of_alive moves.alive.2
    have hp := Phase.ne_absent_of_alive moves.alive.1
    exact ⟨fun _ => .inl hp, fun _ => hq⟩
  | finish running => simp [running]
  | submit answering => simp [answering]
  | retire leaving | leave leaving | orphan leaving => simp [leaving]
  | quiet quiet =>
    refine ⟨.inl, fun h => h.resolve_right ?_⟩
    rintro ⟨rfl, -⟩
    exact quiet
  | same silent other => simp [other]
  | _ => simp

theorem dispatched_run (hrun : Run (step o) {} tr s) : ((logOf dispatched tr).map Prod.fst).Nodup ∧
      ∀ id, id ∈ (logOf dispatched tr).map Prod.fst ↔ (s.handlers id).phase ≠ .absent := by
  induction hrun with
  | start => exact ⟨nodup_nil, fun id => by simp [logOf]⟩
  | @next tr s t e hrun hs ih =>
    have hi := shared_run hrun
    rw [logOf_snoc, map_append, nodup_append']
    refine ⟨⟨ih.1, nodup_dispatched, fun id hid hid' => ?_⟩, fun id => ?_⟩
    · -- whoever is ready has not been answered for yet
      obtain ⟨-, st, hf, hr⟩ := mem_dispatched_fst.1 hid'
      have hsub := ((hi.slot id).started st hf ((ih.2 id).1 hid)).2
      rw [((ready_iff st).1 hr).2.2] at hsub
      cases hsub
    · rw [mem_append, ih.2 id, phase_ne_absent_iff hi hs]

/-! ### The cap -/

/-- **The handlers of a connection keep the cap.** -/
theorem handlers_capped (hm : 0 < o.maxConcurrentStreams) (hrun : Run (step o) {} tr s) :
    s.streams.size + s.orphanHandlers ≤ o.maxConcurrentStreams ∧
      Tally (fun id => (s.handlers id).share = true ∧ s.streams.find id = none) s.orphanHandlers ∧
      (∀ id, s.streams.find id = none → (s.handlers id).phase = .leaving →
        (s.handlers id).released = false → 0 < s.orphanHandlers) ∧
      ((logOf dispatched tr).map Prod.fst).Nodup ∧
      ∀ ids : List ℕ, ids.Nodup → (∀ id ∈ ids, (s.handlers id).phase = .running) →
        ids.length ≤ o.maxConcurrentStreams := by
  have hi := shared_run hrun
  have hcap := hi.capped hm.ne'
  exact ⟨hcap, hi.orphans, fun id => hi.orphanHandlers_pos, (dispatched_run hrun).1,
    fun ids hn hrunning =>
      (hi.length_le hn fun id hid => hi.share_of_running (hrunning id hid)).trans hcap⟩

/-- A cap of one: the client resets the stream while its handler runs, and tries the next one. -/
def rapidReset : List Event :=
  [.beginHeaders 1, .frame 1 true, .dispatch, .start 1, .look 1, .close 1, .beginHeaders 3]

theorem handlers_capped_rapidReset : ∃ tr s, Run (step { maxConcurrentStreams := 1 }) {} tr s ∧
    (s.handlers 1).phase = .running ∧ s.streams.size = 0 ∧ s.orphanHandlers = 1 ∧
    ((logOf dispatched tr).map Prod.fst).Nodup := by
  have h : Run (step { maxConcurrentStreams := 1 }) {} _ _ := .follow rapidReset (by decide +kernel)
  exact ⟨_, _, h, by decide +kernel, by decide +kernel, by decide +kernel,
    (handlers_capped (by decide) h).2.2.2.1⟩

/-! ### Responses -/

/-- The stream for which the step hands a response to nghttp2. -/
def responded (s : State) : Event → List ℕ
  | .submit id => if (s.streams.find id).isSome then [id] else []
  | _ => []

variable {a a' : Option ServerStream} {h h' : Handler} {id : ℕ}

/-- A handler that has answered stays so. -/
theorem Touch.released (ht : Touch o s id e a h a' h') (hslot : Slot a h)
    (hr : h.released = true) (hp : h.phase ≠ .absent) :
    h'.released = true ∧ h'.phase ≠ .absent := by
  cases ht with
  | @dispatch st _ ready =>
    have hsub := (hslot.started st rfl hp).2
    rw [((ready_iff st).1 ready).2.2] at hsub
    cases hsub
  | move silent moves => exact ⟨hr, Phase.ne_absent_of_alive moves.alive.2⟩
  | submit => exact ⟨rfl, by simp⟩
  | finish | retire | leave | orphan => exact ⟨hr, by simp⟩
  | _ => exact ⟨hr, hp⟩

theorem answering_of_responded (hs : step o s e = some t) (hid : id ∈ responded s e) :
    (s.handlers id).phase = .answering ∧ (t.handlers id).released = true ∧
      (t.handlers id).phase ≠ .absent := by
  cases e with simp only [responded, not_mem_nil] at hid
  | submit =>
    split at hid
    · next hf =>
      obtain rfl := mem_singleton.1 hid
      obtain ⟨st, hst⟩ := Option.isSome_iff_exists.1 hf
      simp only [step, State.submit, hst] at hs
      split at hs <;> cases hs
      next hp => simp [hp, State.adjust, State.setHandler]
    · cases hid

theorem responded_run (hrun : Run (step o) {} tr s) : (logOf responded tr).Nodup ∧
    ∀ id ∈ logOf responded tr,
      (s.handlers id).released = true ∧ (s.handlers id).phase ≠ .absent := by
  induction hrun with
  | start => simp
  | @next tr s t e hrun hs ih =>
    have hi := shared_run hrun
    rw [logOf_snoc, nodup_append']
    refine ⟨⟨ih.1, ?_, ?_⟩, ?_⟩
    · cases e with simp [responded]
      | submit => split <;> simp
    · -- whoever has answered is past the section that submits
      intro id hid hid'
      have hlate := (hi.slot id).released (ih.2 id hid).1
      rw [(answering_of_responded hs hid').1] at hlate
      cases hlate
    · intro id hid
      obtain hid | hid := mem_append.1 hid
      · obtain ⟨hr, hp⟩ := ih.2 id hid
        exact (hi.touch (change_of_step hs) id).released (hi.slot id) hr hp
      · exact (answering_of_responded hs hid).2

/-- **A stream is answered once at most**, and only if its request was handed to a handler. -/
theorem responses_once (hrun : Run (step o) {} tr s) : (logOf responded tr).Nodup ∧
    logOf responded tr ⊆ (logOf dispatched tr).map Prod.fst := by
  obtain ⟨hnodup, hresp⟩ := responded_run hrun
  refine ⟨hnodup, ?_⟩
  intro id hid
  rw [(dispatched_run hrun).2 id]
  exact (hresp id hid).2

/-- Two requests at once; the first one's stream is reset before its handler answers. -/
def resetEarly : List Event :=
  [.beginHeaders 1, .frame 1 true, .beginHeaders 3, .frame 3 true, .dispatch, .start 3, .look 3,
    .start 1, .look 1, .notFound 1, .finish 3, .recheck 3, .recheck 1, .close 1, .submit 3,
    .submit 1, .dispatch]

theorem responses_once_reset : ∃ tr s, Run (step {}) {} tr s ∧ logOf responded tr = [3] ∧
    (logOf responded tr).Nodup := by
  have h : Run (step {}) {} _ _ := .follow resetEarly (by decide +kernel)
  exact ⟨_, _, h, by decide +kernel, (responses_once h).1⟩

end Manwe.Http2.Server
