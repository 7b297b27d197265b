import Manwe.Soccer.Http2.Server

/-!
# What a step of the server does

`Change` lists the effects of a step on the whole connection, with what the step has looked at: this
is what the counters are followed by. `Touch` is the same **seen from one stream**: its entry in the
map and its handler, before and after. What is invariant about a stream and its handler is then a
matter of one entry and one handler at a time.
-/

namespace Manwe.Http2

open Http Table

/-! ### A header field -/

/-- The request's header and the limits on it may differ, and nothing else. -/
structure ServerStream.HeadOnly (st st' : ServerStream) : Prop where
  started : st'.handlerStarted = st.handlerStarted
  submitted : st'.responseSubmitted = st.responseSubmitted
  active : st'.handlerActive = st.handlerActive
  bodyRejected : st'.bodyRejected = st.bodyRejected
  bodyBytes : st'.bodyBytes = st.bodyBytes
  body : st'.req.body = st.req.body

variable (st : ServerStream) (name value : Bytes)

include st name value

theorem ServerStream.headOnly_store : st.HeadOnly (st.store name value) := by
  rw [store, setAuthority, addCookie]
  repeat' split
  all_goals exact ⟨rfl, rfl, rfl, rfl, rfl, rfl⟩

theorem ServerStream.headerBytes_store : (st.store name value).headerBytes = st.headerBytes := by
  rw [store, setAuthority, addCookie]
  repeat' split
  all_goals rfl

theorem ServerStream.rejected_store : (st.store name value).rejected = st.rejected := by
  rw [store, setAuthority, addCookie]
  repeat' split
  all_goals rfl

omit st name value

theorem ServerStream.headOnly_onHeader (o : Http2ServerOptions) (st : ServerStream)
    (name value : Bytes) : st.HeadOnly (st.onHeader o name value) := by
  rw [onHeader]
  split
  · exact ⟨rfl, rfl, rfl, rfl, rfl, rfl⟩
  · split
    · exact ⟨rfl, rfl, rfl, rfl, rfl, rfl⟩
    · have h := headOnly_store { st with
        headerBytes := st.headerBytes + (name.length + value.length + 32) } name value
      exact ⟨h.started, h.submitted, h.active, h.bodyRejected, h.bodyBytes, h.body⟩

namespace Server

/-- Up to the section that gives the share up. -/
@[simp] def Phase.early : Phase → Bool
  | .spawned | .admitted | .running | .finished | .answering => true
  | _ => false

/-- A handler in phase `p` goes on to `q`, and that is all. -/
def Moves (p q : Phase) : Prop :=
  (p.early = true ∧ (q.early = true ∨ q = .leaving)) ∨ (p = .flushing ∧ q = .leaving)

/-- DATA of `n` bytes more exceeds the budget of the connection. -/
def State.overBudget (o : Http2ServerOptions) (s : State) (n : ℕ) : Prop :=
  o.maxConnectionBodyBytes ≠ 0 ∧ s.bodyBytesInFlight + n > o.maxConnectionBodyBytes

/-- DATA of `n` bytes more exceeds the cap of a request body. -/
def overBody (o : Http2ServerOptions) (st : ServerStream) (n : ℕ) : Prop :=
  o.maxBodyBytes ≠ 0 ∧ st.req.body.length + n > o.maxBodyBytes

/-- The event leaves streams, handlers and counters alone. -/
def Quiet (o : Http2ServerOptions) (s : State) : Event → Prop
  | .beginHeaders _ =>
    o.maxConcurrentStreams ≠ 0 ∧ s.streams.size + s.orphanHandlers ≥ o.maxConcurrentStreams
  | .data id _ => ∀ st, s.streams.find id = some st → (st.bodyRejected || st.rejected) = true
  | .frame _ endStream => endStream = false
  | .close id => s.streams.find id = none
  | .trailer _ _ _ | .flood | .driverEnds => True
  | _ => False

variable {o : Http2ServerOptions} {s t : State} {e : Event}

/-! ### The whole connection -/

/-- **The effect of a step.** -/
inductive Change (o : Http2ServerOptions) (s : State) : Event → State → Prop
  | quiet {e : Event} {closed abusive : Bool} {stopped : List ℕ} {lastId : ℕ}
      (later : s.lastId ≤ lastId) (quiet : Quiet o s e) :
      Change o s e { s with closed, abusive, stopped, lastId }
  | create {id : ℕ} (new : s.lastId < id) (room : o.maxConcurrentStreams ≠ 0 →
        s.streams.size + s.orphanHandlers < o.maxConcurrentStreams) :
      Change o s (.beginHeaders id) { s with lastId := id, streams := s.streams.emplace id {} }
  | header {id : ℕ} {name value : Bytes} :
      Change o s (.header id name value) (s.adjust id fun st => st.onHeader o name value)
  | reject {id : ℕ} {chunk : Bytes} {abusive : Bool} {st : ServerStream}
      (found : s.streams.find id = some st) (receiving : st.handlerStarted = false)
      (past : s.overBudget o chunk.length ∨ overBody o st chunk.length) :
      Change o s (.data id chunk) { s.adjust id ServerStream.rejectBody with
          bodyBytesInFlight := s.bodyBytesInFlight - st.bodyBytes
          abusive }
  | take {id : ℕ} {chunk : Bytes} {st : ServerStream}
      (found : s.streams.find id = some st) (receiving : st.handlerStarted = false)
      (budget : ¬ s.overBudget o chunk.length) (fits : ¬ overBody o st chunk.length) :
      Change o s (.data id chunk) { s.adjust id fun st => st.takeChunk chunk with
          bodyBytesInFlight := s.bodyBytesInFlight + chunk.length }
  | complete {id : ℕ} :
      Change o s (.frame id true) (s.adjust id fun st => { st with handlerStarted := true })
  | close {id : ℕ} {st : ServerStream} (found : s.streams.find id = some st) :
      Change o s (.close id) { s with
          stopped := s.stopped ++ [id]
          bodyBytesInFlight := s.bodyBytesInFlight - st.bodyBytes
          orphanHandlers := if st.handlerActive then s.orphanHandlers + 1 else s.orphanHandlers
          streams := s.streams.erase id }
  | dispatch : Change o s .dispatch s.dispatch
  | move {e : Event} {id : ℕ} {p : Phase} (silent : ∀ k, heard k s e = []) (other : e ≠ .dispatch)
      (moves : Moves (s.handlers id).phase p) : Change o s e (s.go id p)
  | finish {id : ℕ} (running : (s.handlers id).phase = .running) :
      Change o s (.finish id) (s.setHandler id { s.handlers id with phase := .finished, req := {} })
  | submit {id : ℕ} {st : ServerStream} (found : s.streams.find id = some st)
      (answering : (s.handlers id).phase = .answering) :
      Change o s (.submit id)
        ((s.setHandler id { s.handlers id with phase := .flushing, released := true }).adjust id
          fun st => { st with handlerActive := false, responseSubmitted := true })
  | retire {id : ℕ} (leaving : (s.handlers id).phase = .leaving)
      (released : (s.handlers id).released = true) : Change o s (.release id) (s.endHandler id)
  | leave {id : ℕ} {st : ServerStream} (found : s.streams.find id = some st)
      (leaving : (s.handlers id).phase = .leaving) (released : (s.handlers id).released = false) :
      Change o s (.release id)
        ((s.endHandler id).adjust id fun st => { st with handlerActive := false })
  | orphan {id : ℕ} (gone : s.streams.find id = none)
      (leaving : (s.handlers id).phase = .leaving) (released : (s.handlers id).released = false) :
      Change o s (.release id) { s.endHandler id with orphanHandlers := s.orphanHandlers - 1 }

variable {id k : ℕ}

theorem change_onDataChunk {chunk : Bytes} (hr : s.receiving id = true) :
    Change o s (.data id chunk) (s.onDataChunk o id chunk) := by
  rw [State.onDataChunk]
  rw [State.receiving] at hr
  split
  · next hst => exact .quiet le_rfl fun st h => by rw [hst] at h; cases h
  · next st hst =>
    rw [hst] at hr
    have hr : st.handlerStarted = false := by simpa using hr
    split
    · next hd =>
      refine .quiet le_rfl fun st' h => ?_
      rw [hst] at h
      cases h
      exact hd
    · split
      · next hb => exact .reject hst hr (.inl hb)
      · next hb =>
        split
        · next hf => exact .reject hst hr (.inr hf)
        · next hf => exact .take hst hr hb hf

theorem change_release (hl : (s.handlers id).phase = .leaving) :
    Change o s (.release id) (s.release id) := by
  rw [State.release]
  split
  · next hr => exact .retire hl hr
  · next hr =>
    have hr : (s.handlers id).released = false := by simpa using hr
    split
    · next st hst => exact .leave hst hl hr
    · next hst =>
      have := Change.orphan (o := o) hst hl hr
      split
      · exact this
      · next h0 =>
        have hz : s.orphanHandlers - 1 = s.orphanHandlers := by omega
        rw [hz] at this
        exact this

/-- **One step.** -/
theorem change_of_step (hs : step o s e = some t) : Change o s e t := by
  cases e with ((simp only [step] at hs; try split at hs) <;> try cases hs)
  | beginHeaders =>
    next hid =>
    rw [State.onBeginHeaders]
    split
    · next hfull => exact .quiet hid.le hfull
    · next hroom => exact .create hid fun h0 => by omega
  | header => exact .header
  | trailer | flood | driverEnds => exact .quiet le_rfl trivial
  | data => next hr => exact change_onDataChunk hr
  | frame id endStream =>
    cases endStream with
    | false => exact .quiet le_rfl rfl
    | true => exact .complete
  | close =>
    rw [State.onStreamClose]
    split
    · next hst => exact .quiet le_rfl hst
    · next st hst => exact .close hst
  | dispatch => exact .dispatch
  | start | look | recheck =>
    next hp => exact .move (fun _ => rfl) (by simp) (by rw [hp]; split <;> simp [Moves])
  | finish => next hp => exact .finish hp
  | notFound | flushed =>
    next hp => exact .move (fun _ => rfl) (by simp) (by rw [hp]; simp [Moves])
  | submit =>
    next hp =>
    rw [State.submit]
    split
    · exact .move (fun _ => rfl) (by simp) (by rw [hp]; simp [Moves])
    · next st hst => exact .submit hst hp
  | release => next hp => exact change_release hp

/-! ### One stream and its handler -/

/-- **What a step does to the stream `id` and its handler.** -/
inductive Touch (o : Http2ServerOptions) (s : State) (id : ℕ) : Event →
    Option ServerStream → Handler → Option ServerStream → Handler → Prop
  | same {e : Event} {a : Option ServerStream} {h : Handler} (silent : heard id s e = [])
      (other : e ≠ .dispatch) : Touch o s id e a h a h
  | quiet {e : Event} {a : Option ServerStream} {h : Handler} (quiet : Quiet o s e) :
      Touch o s id e a h a h
  | absent {e : Event} {h : Handler} (later : heard id s e ≠ [.begin]) : Touch o s id e none h none
    h
  | create {h : Handler} (new : s.lastId < id) : Touch o s id (.beginHeaders id) none h (some {}) h
  | header {name value : Bytes} {st : ServerStream} {h : Handler} :
      Touch o s id (.header id name value) (some st) h (some (st.onHeader o name value)) h
  | reject {chunk : Bytes} {st : ServerStream} {h : Handler} (receiving : st.handlerStarted = false)
      (past : s.overBudget o chunk.length ∨ overBody o st chunk.length) :
      Touch o s id (.data id chunk) (some st) h (some st.rejectBody) h
  | take {chunk : Bytes} {st : ServerStream} {h : Handler} (receiving : st.handlerStarted = false)
      (budget : ¬ s.overBudget o chunk.length) (fits : ¬ overBody o st chunk.length) :
      Touch o s id (.data id chunk) (some st) h (some (st.takeChunk chunk)) h
  | complete {st : ServerStream} {h : Handler} :
      Touch o s id (.frame id true) (some st) h (some { st with handlerStarted := true }) h
  | close {st : ServerStream} {h : Handler} : Touch o s id (.close id) (some st) h none h
  | dispatch {st : ServerStream} {h : Handler} (ready : st.ready = true) :
      Touch o s id .dispatch (some st) h (some st.walked) { phase := .spawned, req := st.req }
  | pass {st : ServerStream} {h : Handler} (ready : st.ready = false) :
      Touch o s id .dispatch (some st) h (some st.walked) h
  | move {e : Event} {a : Option ServerStream} {h : Handler} {p : Phase}
      (silent : heard id s e = []) (moves : Moves h.phase p) :
      Touch o s id e a h a { h with phase := p }
  | finish {a : Option ServerStream} {h : Handler} (running : h.phase = .running) :
      Touch o s id (.finish id) a h a { h with phase := .finished, req := {} }
  | submit {st : ServerStream} {h : Handler} (answering : h.phase = .answering) :
      Touch o s id (.submit id) (some st) h
        (some { st with handlerActive := false, responseSubmitted := true })
        { h with phase := .flushing, released := true }
  | retire {a : Option ServerStream} {h : Handler} (leaving : h.phase = .leaving)
      (released : h.released = true) :
      Touch o s id (.release id) a h a { h with phase := .ended, req := {} }
  | leave {st : ServerStream} {h : Handler} (leaving : h.phase = .leaving)
      (released : h.released = false) :
      Touch o s id (.release id) (some st) h (some { st with handlerActive := false })
        { h with phase := .ended, req := {} }
  | orphan {h : Handler} (leaving : h.phase = .leaving) (released : h.released = false) :
      Touch o s id (.release id) none h none { h with phase := .ended, req := {} }

theorem find_adjust_of_ne (f : ServerStream → ServerStream) (h : k ≠ id) :
    (s.adjust id f).streams.find k = s.streams.find k := (find_adjust f).trans (if_neg h)

theorem find_adjust_self (f : ServerStream → ServerStream) :
    (s.adjust id f).streams.find id = (s.streams.find id).map f :=
  (find_adjust f).trans (if_pos rfl)

theorem handlers_setHandler_of_ne (h : Handler) (hk : k ≠ id) :
    (s.setHandler id h).handlers k = s.handlers k := Function.update_of_ne hk _ _

theorem handlers_setHandler_self (h : Handler) : (s.setHandler id h).handlers id = h :=
  Function.update_self _ _ _

/-- A callback that changes the entry of its stream. -/
theorem touch_adjust (f : ServerStream → ServerStream) (he : k ≠ id → heard k s e = [])
    (hb : heard id s e ≠ [.begin]) (hd : e ≠ .dispatch)
    (hf : ∀ st, s.streams.find id = some st → ∀ h, Touch o s id e (some st) h (some (f st)) h) :
    Touch o s k e (s.streams.find k) (s.handlers k) ((s.adjust id f).streams.find k)
      (s.handlers k) := by
  obtain rfl | hk := eq_or_ne k id
  · rw [find_adjust_self]
    cases hst : s.streams.find k with
    | none => exact .absent hb
    | some st => exact hf st hst _
  · rw [find_adjust_of_ne f hk]
    exact .same (he hk) hd

/-- A step of a handler that leaves the map alone. -/
theorem touch_setHandler (x : Handler) (he : heard k s e = []) (hd : e ≠ .dispatch)
    (hx : Touch o s id e (s.streams.find id) (s.handlers id) (s.streams.find id) x) :
    Touch o s k e (s.streams.find k) (s.handlers k) (s.streams.find k)
      ((s.setHandler id x).handlers k) := by
  obtain rfl | hk := eq_or_ne k id
  · rw [handlers_setHandler_self]
    exact hx
  · rw [handlers_setHandler_of_ne x hk]
    exact .same he hd

/-- A step of a handler that finds its stream. -/
theorem touch_setHandler_adjust {st : ServerStream} (x : Handler) (f : ServerStream → ServerStream)
    (found : s.streams.find id = some st) (he : heard k s e = []) (hd : e ≠ .dispatch)
    (hx : Touch o s id e (some st) (s.handlers id) (some (f st)) x) :
    Touch o s k e (s.streams.find k) (s.handlers k)
      (((s.setHandler id x).adjust id f).streams.find k) ((s.setHandler id x).handlers k) := by
  obtain rfl | hk := eq_or_ne k id
  · rw [handlers_setHandler_self, find_adjust_self, show (s.setHandler k x).streams = s.streams from
      rfl,
      found]
    exact hx
  · rw [handlers_setHandler_of_ne x hk, find_adjust_of_ne f hk]
    exact .same he hd

theorem touch_dispatch (k : ℕ) :
    Touch o s k .dispatch (s.streams.find k) (s.handlers k) (s.dispatch.streams.find k)
      (s.dispatch.handlers k) := by
  simp only [State.dispatch, find_map]
  split
  · next hst =>
    rw [hst]
    exact .absent (by simp)
  · next st hst =>
    rw [hst]
    split
    · next hr => exact .dispatch hr
    · next hr => exact .pass (by simpa using hr)

/-- **One step, seen from one stream.** -/
theorem Change.touch (hc : Change o s e t) (hnew : ∀ id, s.lastId < id → s.streams.find id = none)
    (k : ℕ) :
    Touch o s k e (s.streams.find k) (s.handlers k) (t.streams.find k) (t.handlers k) := by
  cases hc with
  | quiet later quiet => exact .quiet quiet
  | @create id new =>
    obtain rfl | hk := eq_or_ne k id
    · rw [find_emplace (hnew k new), if_pos rfl, hnew k new]
      exact .create new
    · rw [find_emplace (hnew id new), if_neg hk]
      exact .same (if_neg hk.symm) nofun
  | header | complete =>
    refine touch_adjust _ (fun hk => if_neg hk.symm) (by simp) nofun fun st hst h => ?_
    first | exact .header | exact .complete
  | reject found receiving limit | take found receiving limit fits =>
    refine touch_adjust _ (fun hk => if_neg hk.symm) (by simp) nofun fun st' hst h => ?_
    rw [found] at hst
    cases hst
    first | exact .reject receiving limit | exact .take receiving limit fits
  | @close id st found =>
    obtain rfl | hk := eq_or_ne k id
    · rw [find_erase, if_pos rfl, found]
      exact .close
    · rw [find_erase, if_neg hk]
      exact .same (if_neg hk.symm) nofun
  | dispatch => exact touch_dispatch k
  | move silent other moves => exact touch_setHandler _ (silent k) other (.move (silent _) moves)
  | finish running => exact touch_setHandler _ rfl nofun (.finish running)
  | submit found answering => exact touch_setHandler_adjust _ _ found rfl nofun (.submit answering)
  | retire leaving released => exact touch_setHandler _ rfl nofun (.retire leaving released)
  | leave found leaving released =>
    exact touch_setHandler_adjust _ _ found rfl nofun (.leave leaving released)
  | @orphan id gone leaving released =>
    refine touch_setHandler _ rfl nofun ?_
    rw [gone]
    exact .orphan leaving released

end Server

end Manwe.Http2
