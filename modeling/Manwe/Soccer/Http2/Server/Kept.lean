import Manwe.Soccer.Http2.Server.Requests

/-!
# Requests within the limits are handed over

The other half of `Server.Requests`: a stream is rejected **only over a limit**. So a request that
has ended, within the limits of its stream and of the connection, has been handed over or is the
next pass's (`handedOver_run`).
-/

namespace Manwe.Http2

open Http List ServerStream

namespace Server

variable {o : Http2ServerOptions} {s t : State} {e : Event} {tr : List (State × Event)} {id : ℕ}
  {m m' : RequestMessage} {st st' : ServerStream} {a a' : Option ServerStream} {h h' : Handler}

/-! ### What is heard grows -/

theorem listBytes_mono {fs gs : List HttpHeader} (h : fs.IsPrefix gs) : listBytes fs ≤ listBytes gs
    := by
  obtain ⟨l, rfl⟩ := h
  simp [listBytes]

theorem RequestMessage.Within.mono (hw : m'.Within o) (hf : m.fields.IsPrefix m'.fields)
    (hb : m.body.IsPrefix m'.body) : m.Within o where
  list := fun h0 => (listBytes_mono hf).trans (hw.list h0)
  count := fun h0 fs f hp => hw.count h0 fs f (hp.trans hf)
  body := fun h0 => hb.length_le.trans (hw.body h0)

theorem next_grows {c : Part} (hm : m.next c = some m') :
    m.fields.IsPrefix m'.fields ∧ m.body.IsPrefix m'.body := by
  cases c with
  | begin =>
    simp only [RequestMessage.next] at hm
    split at hm <;> cases hm
    next h0 =>
    rw [h0]
    exact ⟨ nil_prefix, nil_prefix⟩
  | field =>
    obtain ⟨hf, hb, -⟩ := next_field hm
    rw [hf, hb]
    exact ⟨prefix_append _ _, prefix_refl _⟩
  | data =>
    obtain ⟨-, rfl⟩ := next_data hm
    exact ⟨prefix_refl _, prefix_append _ _⟩
  | frame =>
    obtain ⟨-, rfl⟩ := next_frame hm
    exact ⟨prefix_refl _, prefix_refl _⟩
  | trailer | close =>
    simp only [RequestMessage.next] at hm
    split at hm <;> cases hm
    exact ⟨prefix_refl _, prefix_refl _⟩

/-- What is within the limits now was so before. -/
theorem within_before (hw : m'.Within o)
    (hm : (heard id s e).foldlM RequestMessage.hear m = some m') : m.Within o := by
  obtain he | ⟨c, he⟩ := heard_cases id s e
  · rw [he] at hm
    cases hm
    exact hw
  · obtain ⟨hf, hb⟩ := next_grows (next_of_heard hm he)
    exact hw.mono hf hb

/-! ### What a stream is answered for -/

/-- A stream counts as answered if it is rejected or its request was handed over. -/
def Answered (a : Option ServerStream) (h : Handler) : Prop :=
  ∀ st, a = some st → st.responseSubmitted = true →
    (st.bodyRejected || st.rejected) = true ∨ h.phase ≠ .absent

theorem Answered.touch (ha : Answered a h) (ht : Touch o s id e a h a' h') : Answered a' h' := by
  intro st' heq hsub
  subst heq
  cases ht with
  | same | quiet => exact ha _ rfl hsub
  | create => cases hsub
  | @header name value st _ =>
    have hk := st.headOnly_onHeader o name value
    obtain hr | hp := ha st rfl (hk.submitted ▸ hsub)
    · have ht : Touch o s id (.header id name value) (some st) h _ h := .header
      exact .inl (ht.rejected hr)
    · exact .inr hp
  | reject => exact .inl rfl
  | @take chunk st | @complete st => exact ha st rfl hsub
  | dispatch | finish | submit | retire | leave => exact .inr nofun
  | @pass st _ ready =>
    rw [walked_of_not_ready ready] at hsub ⊢
    obtain hr | hsub := Bool.or_eq_true_iff.1 hsub
    · exact .inl hr
    · exact ha st rfl hsub
  | move silent moves => exact .inr (Phase.ne_absent_of_alive moves.alive.2)

theorem answered_run (hrun : Run (step o) {} tr s) (id : ℕ) :
    Answered (s.streams.find id) (s.handlers id) := by
  induction hrun with
  | start => exact nofun
  | next hrun hs ih => exact ih.touch ((shared_run hrun).touch (change_of_step hs) id)

/-! ### Nothing else is rejected -/

/-- A stream that still receives was not answered for, unless it is rejected. -/
theorem live_of_receiving (hslot : Slot (some st) h) (ha : Answered (some st) h)
    (hr : (st.bodyRejected || st.rejected) = false) (hreceiving : st.handlerStarted = false) :
    live st = true := by
  have hsub : st.responseSubmitted = false := by
    by_contra hne
    obtain hd | hp := ha st rfl (by simpa using hne)
    · exact absurd (hr.symm.trans hd) (by simp)
    · exact absurd (hreceiving.symm.trans (hslot.started st rfl hp).1) (by simp)
  rw [live, hr, hsub]
  rfl

theorem onHeader_kept {name value : Bytes} (ht : Tells o st m) (hr : st.rejected = false)
    (hfields : m'.fields = m.fields ++ [⟨name, value⟩]) (hw : m'.Within o) :
    (st.onHeader o name value).rejected = false := by
  have hover : st.overHeaders o (name.length + value.length + 32) = false := by
    refine (overHeaders_iff st _).2 ⟨fun h0 => ?_, fun h0 => ?_⟩
    · have := hw.list h0
      rwa [hfields, listBytes_snoc, ← ht.headerBytes] at this
    · have := hw.count h0 m.fields ⟨name, value⟩ (by rw [hfields])
      rw [ht.req]
      exact this
  rw [onHeader, if_neg (by simp [hr]), if_neg (by simp [hover])]
  exact (rejected_store _ _ _).trans hr

/-- **One step, one stream**: within the limits nothing is rejected. -/
theorem Touch.kept (ht : Touch o s id e (some st) h (some st') h') (hf : Follows o st m)
    (hslot : Slot (some st) h) (ha : Answered (some st) h)
    (hr : (st.bodyRejected || st.rejected) = false)
    (hm : (heard id s e).foldlM RequestMessage.hear m = some m') (hw : m'.Within o)
    (hbudget : ∀ chunk, e = .data id chunk → ¬ s.overBudget o chunk.length) :
    (st'.bodyRejected || st'.rejected) = false := by
  have htells : m.ended = false → Tells o st m := fun hend =>
    hf.tells (live_of_receiving hslot ha hr (hf.started.trans hend))
  cases ht with
  | @header name value =>
    obtain ⟨hfields, -, hend, -⟩ := next_field (next_of_heard hm (if_pos rfl))
    obtain ⟨hb, hrej⟩ := Bool.or_eq_false_iff.1 hr
    rw [(st.headOnly_onHeader o name value).bodyRejected, hb,
      onHeader_kept (htells hend) hrej hfields hw]
    rfl
  | @reject chunk _ _ receiving past =>
    obtain ⟨hstage, rfl⟩ := next_data (next_of_heard hm (if_pos rfl))
    have hend : m.ended = false := by simp [RequestMessage.ended, hstage]
    obtain hover | hover := past
    · exact absurd hover (hbudget chunk rfl)
    · have hlen := hw.body hover.1
      have hmore := hover.2
      rw [(htells hend).req] at hmore
      rw [length_append] at hlen
      exact absurd hmore (not_lt.2 hlen)
  | dispatch | pass => rwa [walked_rejected]
  | _ => exact hr

variable (hrun : Run (step o) {} tr s) (hm : hearRequest (logOf (heard id) tr) = some m)

include hrun hm

theorem kept_run (hw : m.Within o)
    (hbudget : ∀ s₁ chunk, (s₁, Event.data id chunk) ∈ tr → ¬ s₁.overBudget o chunk.length)
    (hst : s.streams.find id = some st) : (st.bodyRejected || st.rejected) = false := by
  induction hrun generalizing st m with
  | start => cases hst
  | @next tr s t e hrun hs ih =>
    obtain ⟨m₀, hm₀, hstep⟩ := heard_snoc hm
    have hi := shared_run hrun
    have ht := hi.touch (change_of_step hs) id
    rw [hst] at ht
    cases hf : s.streams.find id with
    | none =>
      rw [hf] at ht
      obtain ⟨-, rfl, -⟩ := ht.created
      rfl
    | some =>
      rw [hf] at ht
      have hkept := ih hm₀ (within_before hw hstep)
        (fun s₁ chunk hp => hbudget s₁ chunk (mem_append_left _ hp)) hf
      refine ht.kept (follows_run hrun hm₀ hf) (hf ▸ hi.slot id) (hf ▸ answered_run hrun id) hkept
        hstep hw ?_
      rintro chunk rfl
      exact hbudget s chunk (by simp)

/-- **A whole request within the limits is handed over**, by the next pass of the driver at the
latest. -/
theorem handedOver_run (hend : m.ended = true) (hw : m.Within o)
    (hbudget : ∀ s₁ chunk, (s₁, Event.data id chunk) ∈ tr → ¬ s₁.overBudget o chunk.length)
    (hst : s.streams.find id = some st) :
    (id, requestOf m.fields m.body) ∈ logOf dispatched tr ++ dispatched s .dispatch := by
  have hkept := kept_run hrun hm hw hbudget hst
  have hfol := follows_run hrun hm hst
  rw [mem_append]
  cases hsub : st.responseSubmitted with
  | false =>
    have hready : st.ready = true := (ready_iff st).2 ⟨hkept, hfol.started.trans hend, hsub⟩
    have hlive : live st = true := by simp [live, hkept, hsub]
    exact .inr (mem_dispatched.2 ⟨rfl, st, hst, hready, (hfol.tells hlive).req⟩)
  | true =>
    obtain hr | hp := answered_run hrun id st hst hsub
    · exact absurd (hkept.symm.trans hr) (by simp)
    · obtain ⟨⟨k, req⟩, hreq, rfl⟩ := mem_map.1 (((dispatched_run hrun).2 id).2 hp)
      rw [← (sent_run hrun hm hreq).2.2]
      exact .inl hreq

end Server

end Manwe.Http2
