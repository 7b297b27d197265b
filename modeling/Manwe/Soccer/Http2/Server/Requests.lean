import Manwe.Soccer.Http2.Server.Assembly
import Manwe.Soccer.Http2.Server.Budget

/-!
# Requests are whole

As long as nothing was rejected, a stream of the map **tells what was heard of it** (`follows_run`),
so the request that the driver moves out of it, after END_STREAM, is the request of the message
(`requests_asSent`); and a stream on which a limit was exceeded, whether a limit of its own or the
budget of the connection, is never handed over, however the callbacks and the driver's passes
interleave.
-/

namespace Manwe.Http2

open Http List Prod

namespace Server

variable {o : Http2ServerOptions} {s t : State} {e : Event} {tr : List (State × Event)} {id : ℕ}
  {m m' : RequestMessage}

/-! ### Streams of the map -/

theorem follows_begin : Follows o {} { stage := .pseudo } where
  begun := nofun
  started := rfl
  tells := fun _ => {
    req := by decide
    hasHost := rfl
    cookie := rfl
    headerBytes := rfl
    within := {
      list := fun _ => Nat.zero_le _
      count := fun _ fs f h => by simp at h
      body := fun _ => Nat.zero_le _ }
    pseudo := fun _ => rfl }

/-- What was heard of a stream before a step, and what the step adds. -/
theorem heard_snoc (h : hearRequest (logOf (heard id) (tr ++ [(s, e)])) = some m') :
    ∃ m, hearRequest (logOf (heard id) tr) = some m ∧
      (heard id s e).foldlM RequestMessage.hear m = some m' := by
  rw [logOf_snoc, hearRequest_append] at h
  exact Option.bind_eq_some_iff.1 h

/-- nghttp2 keeps to the rules on every stream. -/
def Lawful (tr : List (State × Event)) : Prop := ∀ id, ∃ m,
    hearRequest (logOf (heard id) tr) = some m

theorem Lawful.before (h : Lawful (tr ++ [(s, e)])) : Lawful tr := fun id =>
  (h id).elim fun _ hm => (heard_snoc hm).imp fun _ h => h.1

variable {st st' : ServerStream} {h h' : Handler} {req : Http2Request} {chunk : Bytes}

theorem Touch.created (ht : Touch o s id e none h (some st) h') :
    e = .beginHeaders id ∧ st = {} ∧ s.lastId < id := by
  cases ht with
  | create new => exact ⟨rfl, rfl, new⟩

theorem follows_run (hrun : Run (step o) {} tr s) (hm : hearRequest (logOf (heard id) tr) = some m)
    (hst : s.streams.find id = some st) : Follows o st m := by
  induction hrun generalizing st m with
  | start => cases hst
  | @next tr s t e hrun hs ih =>
    obtain ⟨m₀, hm₀, hstep⟩ := heard_snoc hm
    have ht := (shared_run hrun).touch (change_of_step hs) id
    rw [hst] at ht
    cases hf : s.streams.find id with
    | none =>
      rw [hf] at ht
      obtain ⟨rfl, rfl, -⟩ := ht.created
      have hn := next_of_heard hstep (if_pos rfl)
      simp only [RequestMessage.next] at hn
      split at hn <;> cases hn
      exact follows_begin
    | some =>
      rw [hf] at ht
      exact (ih hm₀ hf).touch hf ht hstep

/-! ### Requests that were handed over -/

/-- After END_STREAM only the end of the stream is heard. -/
theorem next_of_ended {c : Part} (h : m.next c = some m') (hend : m.ended = true) :
    c = .close ∧ m' = { m with closed := true } := by
  have hstage : m.stage = .ended := by simpa using hend
  cases c with
  | close =>
    simp only [RequestMessage.next, hstage] at h
    cases h
    exact ⟨rfl, by simp [hstage]⟩
  | begin =>
    simp only [RequestMessage.next] at h
    split at h
    · next heq =>
      rw [heq] at hstage
      cases hstage
    · cases h
  | _ => simp [hstage] at h

/-- **The request is what was sent**, to its end and within the limits. -/
def Sent (o : Http2ServerOptions) (m : RequestMessage) (req : Http2Request) : Prop :=
  m.ended = true ∧ m.Within o ∧ req = requestOf m.fields m.body

theorem heard_cases (id : ℕ) (s : State) (e : Event) : heard id s e = [] ∨
    ∃ c, heard id s e = [c] := by
  cases e <;> simp only [heard] <;> (try split) <;> simp

theorem Sent.step (h : Sent o m req) (hm : (heard id s e).foldlM RequestMessage.hear m = some m') :
    Sent o m' req := by
  obtain ⟨hend, hw, hreq⟩ := h
  obtain hs | ⟨c, hs⟩ := heard_cases id s e
  · rw [hs] at hm
    cases hm
    exact ⟨hend, hw, hreq⟩
  · obtain ⟨-, rfl⟩ := next_of_ended (next_of_heard hm hs) hend
    exact ⟨hend, ⟨hw.list, hw.count, hw.body⟩, hreq⟩

theorem sent_run (hrun : Run (step o) {} tr s) (hm : hearRequest (logOf (heard id) tr) = some m)
    (hd : (id, req) ∈ logOf dispatched tr) : Sent o m req := by
  induction hrun generalizing m with
  | start => simp [logOf] at hd
  | @next tr s t e hrun hs ih =>
    obtain ⟨m₀, hm₀, hstep⟩ := heard_snoc hm
    rw [logOf_snoc, mem_append] at hd
    obtain hd | hd := hd
    · exact (ih hm₀ hd).step hstep
    · obtain ⟨rfl, st, hst, hready, rfl⟩ := mem_dispatched.1 hd
      cases (show some m₀ = some m from hstep)
      have hfol := follows_run hrun hm₀ hst
      obtain ⟨hrej, hstarted, hsub⟩ := (ready_iff st).1 hready
      have hlive : live st = true := by simp [live, hrej, hsub]
      have ht := hfol.tells hlive
      exact ⟨hfol.started ▸ hstarted, ht.within, ht.req⟩

/-! ### Streams that exceed the budget -/

/-- The stream will not be handed over. -/
def Dead (s : State) (id : ℕ) : Prop :=
  id ≤ s.lastId ∧ ∀ st, s.streams.find id = some st → (st.bodyRejected || st.rejected) = true

theorem onHeader_rejected (st : ServerStream) (name value : Bytes) (h : st.rejected = true) :
    st.onHeader o name value = st := if_pos h

theorem walked_rejected (st : ServerStream) :
    (st.walked.bodyRejected || st.walked.rejected) = (st.bodyRejected || st.rejected) := by
  rw [ServerStream.walked]
  split_ifs <;> rfl

/-- A rejected stream stays rejected. -/
theorem Touch.rejected (ht : Touch o s id e (some st) h (some st') h')
    (hd : (st.bodyRejected || st.rejected) = true) : (st'.bodyRejected || st'.rejected) = true := by
  cases ht with
  | @header name value =>
    rw [(st.headOnly_onHeader o name value).bodyRejected]
    obtain hb | hr := Bool.or_eq_true_iff.1 hd
    · rw [hb, Bool.true_or]
    · rw [onHeader_rejected st name value hr, hr, Bool.or_true]
  | reject => rfl
  | dispatch | pass => rwa [walked_rejected]
  | _ => exact hd

theorem Dead.step (hi : Shared o s) (hd : Dead s id) (hs : step o s e = some t) : Dead t id := by
  have hc := change_of_step hs
  have ht := hi.touch hc id
  refine ⟨hd.1.trans hc.lastId_le, fun st' hst' => ?_⟩
  rw [hst'] at ht
  cases hf : s.streams.find id with
  | none =>
    rw [hf] at ht
    exact absurd ht.created.2.2 (not_lt.2 hd.1)
  | some st =>
    rw [hf] at ht
    exact ht.rejected (hd.2 st hf)

theorem Dead.not_dispatched (hd : Dead s id) : id ∉ (dispatched s e).map fst := by
  intro hm
  obtain ⟨-, st, hst, hready⟩ := mem_dispatched_fst.1 hm
  exact absurd ((hd.2 st hst).symm.trans ((ready_iff st).1 hready).1) (by simp)

theorem eq_beginHeaders_of_heard (h : heard id s e = [.begin]) : e = .beginHeaders id := by
  cases e with simp [ite_eq_iff] at h
  | beginHeaders => rw [h]

/-- What was heard of was begun. -/
theorem le_lastId_of_heard (hrun : Run (step o) {} tr s)
    (hm : hearRequest (logOf (heard id) tr) = some m) (hidle : m.stage ≠ .idle) :
    id ≤ s.lastId := by
  induction hrun generalizing m with
  | start =>
    cases hm
    exact absurd rfl hidle
  | @next tr s t e hrun hs ih =>
    obtain ⟨m₀, hm₀, hstep⟩ := heard_snoc hm
    by_cases h0 : m₀.stage = .idle
    · -- only the beginning of the request block is heard first
      obtain he | ⟨c, he⟩ := heard_cases id s e
      · rw [he] at hstep
        cases hstep
        exact absurd h0 hidle
      · have hn := next_of_heard hstep he
        cases c with
        | begin =>
          obtain rfl := eq_beginHeaders_of_heard he
          simp only [step] at hs
          split at hs <;> cases hs
          rw [State.onBeginHeaders]
          split <;> exact le_rfl
        | _ => simp [h0] at hn
    · exact (ih hm₀ h0).trans (change_of_step hs).lastId_le

/-- The DATA that exceeds the budget is the end of the request. -/
theorem Touch.overBudget (ht : Touch o s id (.data id chunk) (some st) h (some st') h')
    (found : s.streams.find id = some st) (hover : s.overBudget o chunk.length) :
    (st'.bodyRejected || st'.rejected) = true := by
  cases ht with
  | same silent | move silent => simp at silent
  | quiet quiet => exact quiet st found
  | reject => rfl
  | take receiving budget => exact absurd hover budget

theorem overBudget_run (hrun : Run (step o) {} tr s) (hlaw : Lawful tr) {s₁ : State}
    (hmem : (s₁, Event.data id chunk) ∈ tr) (hover : s₁.overBudget o chunk.length) :
    Dead s id ∧ id ∉ (logOf dispatched tr).map fst := by
  induction hrun with
  | start => cases hmem
  | @next tr s t e hrun hs ih =>
    have hi := shared_run hrun
    rw [logOf_snoc, map_append, mem_append, not_or]
    obtain hmem | hmem := mem_append.1 hmem
    · obtain ⟨hdead, hlog⟩ := ih hlaw.before hmem
      exact ⟨hdead.step hi hs, hlog, hdead.not_dispatched⟩
    · obtain ⟨rfl, rfl⟩ := mk.inj (mem_singleton.1 hmem)
      obtain ⟨m', hm'⟩ := hlaw id
      obtain ⟨m, hm, hstep⟩ := heard_snoc hm'
      obtain ⟨hstage, -⟩ := next_data (next_of_heard hstep (if_pos rfl))
      have hc := change_of_step hs
      refine ⟨⟨?_, fun st' hst' => ?_⟩, fun hlog => ?_, by simp [dispatched]⟩
      · exact (le_lastId_of_heard hrun hm (by rw [hstage]; simp)).trans hc.lastId_le
      · have ht := hi.touch hc id
        rw [hst'] at ht
        cases hf : s₁.streams.find id with
        | none =>
          rw [hf] at ht
          cases ht.created.1
        | some =>
          rw [hf] at ht
          exact ht.overBudget hf hover
      · -- what was handed over had ended
        obtain ⟨⟨_, req⟩, hreq, rfl⟩ := mem_map.1 hlog
        obtain ⟨hend, -⟩ := sent_run hrun hm hreq
        rw [RequestMessage.ended, hstage] at hend
        cases hend

/-! ### Requests -/

/-- **A request is handed over exactly as sent, and never a truncated one.** -/
theorem requests_asSent (hrun : Run (step o) {} tr s)
    (hlaw : ∀ id, ∃ m, hearRequest (logOf (heard id) tr) = some m) :
    (∀ id req, (id, req) ∈ logOf dispatched tr →
      ∃ m, hearRequest (logOf (heard id) tr) = some m ∧ m.ended = true ∧ m.Within o ∧
        req = requestOf m.fields m.body) ∧
      (∀ id m, hearRequest (logOf (heard id) tr) = some m → ¬ m.Within o →
        id ∉ (logOf dispatched tr).map fst) ∧
      (∀ s₁ id chunk, (s₁, Event.data id chunk) ∈ tr → s₁.overBudget o chunk.length →
        id ∉ (logOf dispatched tr).map fst) ∧
      s.bodyBytesInFlight = s.streams.total ServerStream.bodyBytes := by
  refine ⟨fun id req hd => ?_, fun id m hm hw hlog => ?_,
    fun s₁ id chunk hmem hover => (overBudget_run hrun hlaw hmem hover).2,
      (accounted_run hrun).flight⟩
  · obtain ⟨m, hm⟩ := hlaw id
    exact ⟨m, hm, sent_run hrun hm hd⟩
  · obtain ⟨⟨_, req⟩, hreq, rfl⟩ := mem_map.1 hlog
    exact hw (sent_run hrun hm hreq).2.1

/-- The stream that a callback is about. -/
def Event.target : Event → List ℕ
  | .beginHeaders id | .header id _ _ | .trailer id _ _ | .data id _ | .frame id _ | .close id =>
    [id]
  | _ => []

/-- Only the streams that occur matter. -/
theorem lawful_of_targets (h : ∀ p ∈ tr, ∀ id ∈ p.2.target,
    (hearRequest (logOf (heard id) tr)).isSome = true) : Lawful tr := by
  intro id
  rw [← Option.isSome_iff_exists]
  by_cases hex : ∃ p ∈ tr, id ∈ p.2.target
  · obtain ⟨p, hp, hid⟩ := hex
    exact h p hp id hid
  · have hnil : logOf (heard id) tr = [] := by
      refine flatMap_eq_nil_iff.2 fun p hp => ?_
      have hne : id ∉ p.2.target := fun hid => hex ⟨p, hp, hid⟩
      cases he : p.2 with simp [he, Event.target] at hne ⊢ <;> exact Ne.symm hne
    rw [hnil]
    rfl

/-- Two interleaved requests, the second one beyond the cap of its body. -/
def interleaved : List Event := [.beginHeaders 1, .header 1 (bytes ":method") (bytes "POST"),
    .header 1 (bytes ":path") (bytes "/a?b"),
    .header 1 (bytes ":authority") (bytes "h"), .header 1 (bytes "cookie") (bytes "x=1"),
    .header 1 (bytes "host") (bytes "other"), .header 1 (bytes "accept") (bytes "*"),
    .header 1 (bytes "cookie") (bytes "y=2"), .frame 1 false, .beginHeaders 3,
    .header 3 (bytes ":method") (bytes "PUT"), .frame 3 false, .data 1 (bytes "he"),
      .data 3 (bytes "123456"),
    .frame 3 true, .dispatch, .data 1 (bytes "llo"), .frame 1 false,
      .trailer 1 (bytes "t") (bytes "v"),
    .frame 1 true, .dispatch]

def interleavedRequest : Http2Request where
  method := bytes "POST"
  path := bytes "/a"
  query := bytes "b"
  headers := [⟨bytes "host", bytes "h"⟩, ⟨bytes "cookie", bytes "x=1; y=2"⟩, ⟨bytes "accept",
    bytes "*"⟩]
  body := bytes "hello"
  authority := bytes "h"

theorem requests_asSent_interleaved : ∃ tr s, Run (step { maxBodyBytes := 5 }) {} tr s ∧
    logOf dispatched tr = [(1, interleavedRequest)] ∧
    ∃ m, hearRequest (logOf (heard 1) tr) = some m ∧ m.ended = true ∧
      interleavedRequest = requestOf m.fields m.body := by
  obtain ⟨tr, s, h, hlog, hlaw⟩ : ∃ tr s, Run (step { maxBodyBytes := 5 }) {} tr s ∧
      logOf dispatched tr = [(1, interleavedRequest)] ∧
      ∀ p ∈ tr, ∀ id ∈ p.2.target, (hearRequest (logOf (heard id) tr)).isSome = true :=
    Run.exists_of_exec interleaved (by decide +kernel)
  obtain ⟨m, hm, hend, -, hreq⟩ := (requests_asSent h (lawful_of_targets hlaw)).1 1
    interleavedRequest
    (by rw [hlog]; exact mem_singleton_self _)
  exact ⟨tr, s, h, hlog, m, hm, hend, hreq⟩

end Server

end Manwe.Http2
