import Manwe.Soccer.Http2.Client.Callbacks

/-!
# Responses are complete and unmixed

A stream object in the map either says that it was given up — a timeout, the loss of the connection,
the response taken — or **tells what was heard of its own stream** (`told_run`): a step touches a
stream by a callback of its own, or in a way that leaves the response alone. So whatever
`await_resume` returns is the message of the stream, heard to its end.
-/

namespace Manwe.Http2

open Http List Option Http2Stream

variable {ι : Type}

theorem hearAll_append (cs cs' : List Callback) :
    hearAll (cs ++ cs') = (hearAll cs).bind fun m => cs'.foldlM Message.hear m :=
  foldlM_append ..

theorem hearAll_isSome_left {cs cs' : List Callback} (h : (hearAll (cs ++ cs')).isSome) :
    (hearAll cs).isSome := by
  rw [hearAll_append] at h
  exact isSome_of_isSome_bind h

namespace Client

/-- The step records a timeout or the loss of the connection for the stream. -/
def marks (id : ℕ) (s : State ι) (e : Event ι) : Bool :=
  s.unfinished id && match e with
    | .failStream i => s.ops i == .expired id
    | .sweep _ => true
    | _ => false

variable {s t : State ι} {e : Event ι} {tr : List (State ι × Event ι)} {id : ℕ}

theorem unfinished_iff : s.unfinished id = true ↔ ∃ st, s.streams.find id = some st ∧
    st.done = false := by
  rw [State.unfinished]
  split
  · next h => simp [h]
  · next st h => simp [h]

/-- The stream that is marked is given up. -/
theorem givenUp_of_marks [DecidableEq ι] (hs : step s e = some t) (hm : marks id s e = true) :
    ∃ st, t.streams.find id = some st ∧ GivenUp st := by
  obtain ⟨hu, he⟩ := Bool.and_eq_true_iff.1 hm
  obtain ⟨st, hst, hd⟩ := unfinished_iff.1 hu
  cases e with
  | failStream i =>
    have hi : s.ops i = .expired id := by simpa using he
    simp only [step, hi] at hs
    cases hs
    refine ⟨st.fail true, ?_, ?_⟩
    · simp only [State.failStream, State.put, hst, State.adjust, Table.find_adjust, if_true]
      rfl
    · rw [fail, if_neg (by simp [hd])]
      exact .inl rfl
  | sweep =>
    simp only [step] at hs
    split at hs <;> cases hs
    refine ⟨st.lose, ?_, ?_⟩
    · simp only [State.failOutstandingStreams, State.put, Table.find_map, hst]
      rfl
    · rw [lose, if_neg (by simp [hd])]
      exact .inr (.inl rfl)
  | _ => cases he

/-- What a stream object in the map is worth. -/
def Told (tr : List (State ι × Event ι)) (id : ℕ) (st : Http2Stream ι) : Prop :=
  GivenUp st ∨ (∀ p ∈ tr, marks id p.1 p.2 = false) ∧
    ∃ m, hearAll (logOf (heard id) tr) = some m ∧ Tells st m

variable [DecidableEq ι]

theorem nextId_step (hs : step s e = some t) : s.nextId ≤ t.nextId := by
  have hcallback : ∀ id c, (s.onCallback id c).nextId = s.nextId := by
    intro id c
    cases c with
    | close =>
      simp only [State.onCallback, State.onStreamClose]
      split <;> rfl
    | _ => rfl
  cases e with (simp only [step] at hs; repeat' first | cases hs | split at hs)
  | register =>
    rw [State.register]
    split <;> exact Nat.le_add_right _ _
  | take =>
    first
    | exact le_refl _
    | rw [State.take]
      split <;> exact le_refl _
  | callback => rw [hcallback]
  | failStream =>
    rw [State.failStream]
    split <;> exact le_refl _
  | _ => exact le_refl _

/-- Nothing was heard of a stream that was not submitted. -/
theorem unheard_run (h : Run step {} tr s) (hd : ∀ p ∈ tr, p.2.destroys = false)
    (hid : s.nextId ≤ id) : (∀ p ∈ tr, marks id p.1 p.2 = false) ∧ logOf (heard id) tr = [] := by
  induction h with
  | start => exact ⟨nofun, rfl⟩
  | @next tr s t e hr hs ih =>
    have hd' : ∀ p ∈ tr, p.2.destroys = false := fun p hp => hd p (mem_append_left _ hp)
    have hle : s.nextId ≤ id := (nextId_step hs).trans hid
    obtain ⟨hm, hl⟩ := ih hd' hle
    refine ⟨forall_mem_append.2 ⟨hm, forall_mem_singleton.2 ?_⟩, ?_⟩
    · refine Bool.and_eq_false_iff.2 (.inl (Bool.eq_false_iff.2 fun hu => ?_))
      obtain ⟨st, hst, -⟩ := unfinished_iff.1 hu
      exact absurd ((inv_run hr hd').fresh id st hst) (not_lt.2 hle)
    · rw [logOf_snoc, hl, nil_append]
      cases e with
      | callback =>
        simp only [step] at hs
        split at hs
        · next hlt =>
          refine if_neg ?_
          rintro rfl
          exact absurd hlt (not_lt.2 hle)
        · cases hs
      | _ => rfl

variable {st : Http2Stream ι}

omit [DecidableEq ι] in
/-- **One step, one stream.** -/
theorem Told.step {st' : Http2Stream ι} (h : Told tr id st)
    (hm : marks id s e = false) (htouch : Touch s id e (some st) (some st'))
    (hrules : (hearAll (logOf (heard id) (tr ++ [(s, e)]))).isSome) :
    Told (tr ++ [(s, e)]) id st' := by
  have hmarks (h : ∀ p ∈ tr, marks id p.1 p.2 = false) :
      ∀ p ∈ tr ++ [(s, e)], marks id p.1 p.2 = false :=
    forall_mem_append.2 ⟨h, forall_mem_singleton.2 hm⟩
  -- a step that is not a callback
  have hquiet : heard id s e = [] → (∀ m, Tells st m → Tells st' m) →
      (GivenUp st → GivenUp st') → Told (tr ++ [(s, e)]) id st' := by
    intro he htells hgiven
    obtain hg | ⟨hun, m, hall, ht⟩ := h
    · exact .inl (hgiven hg)
    · exact .inr ⟨hmarks hun, m, by rw [logOf_snoc, he, append_nil, hall], htells m ht⟩
  cases htouch with
  | same quiet => exact hquiet quiet (fun _ ht => ht) fun hg => hg
  | @callback c =>
    obtain hg | ⟨hun, m, hall, ht⟩ := h
    · exact .inl (hg.on c)
    · have hlog : logOf (heard id) (tr ++ [(s, .callback id c)]) = logOf (heard id) tr ++ [c] := by
        rw [logOf_snoc, heard, if_pos rfl]
      rw [hlog, hearAll_append, hall] at hrules
      obtain ⟨m', hm'⟩ := isSome_iff_exists.1 hrules
      have hhear : m.hear c = some m' := by simpa using hm'
      refine .inr ⟨hmarks hun, m', ?_, ht.on hhear⟩
      rw [hlog, hearAll_append, hall]
      exact hm'
  | fail | lose =>
    simp only [fail, lose] at hquiet ⊢
    split
    · next hd =>
      rw [if_pos hd] at hquiet
      exact hquiet rfl (fun _ ht => ht) fun hg => hg
    · exact .inl (by simp [GivenUp])
  | park =>
    refine hquiet rfl (fun m ht => { ht with header := fun hr => ?_ }) fun hg => hg
    exact { ht.header hr with }
  | take => exact .inl (.inr (.inr rfl))

theorem told_run (h : Run step {} tr s) (hd : ∀ p ∈ tr, p.2.destroys = false)
    (hrules : (hearAll (logOf (heard id) tr)).isSome) (hst : s.streams.find id = some st) :
    Told tr id st := by
  induction h generalizing st with
  | start => cases hst
  | @next tr s t e hr hs ih =>
    have hd' : ∀ p ∈ tr, p.2.destroys = false := fun p hp => hd p (mem_append_left _ hp)
    have hrules' : (hearAll (logOf (heard id) tr)).isSome :=
      hearAll_isSome_left (logOf_snoc (heard id) .. ▸ hrules)
    have hinv := inv_run hr hd'
    cases hm : marks id s e with
    | true =>
      obtain ⟨st', hst', hg⟩ := givenUp_of_marks hs hm
      cases hst'.symm.trans hst
      exact .inl hg
    | false =>
      have htouch := touch_of_step hinv.find_nextId hs id
      rw [hst] at htouch
      cases hst₀ : s.streams.find id with
      | some =>
        rw [hst₀] at htouch
        exact (ih hd' hrules' hst₀).step hm htouch hrules
      | none =>
        rw [hst₀] at htouch
        cases htouch with
        | create new =>
          obtain ⟨hun, hl⟩ := unheard_run hr hd' new.ge
          refine .inr ⟨forall_mem_append.2 ⟨hun, forall_mem_singleton.2 hm⟩, {}, ?_, Tells.init⟩
          rw [logOf_snoc, hl]
          rfl
        | refuse => exact .inl (.inr (.inr rfl))

omit [DecidableEq ι] in
/-- What has to be so for `await_resume` to return. -/
theorem outcome_ok {resp : Http2Response} (h : st.outcome = .ok resp) :
    st.bodyRejected = false ∧ st.headersRejected = false ∧ st.timedOut = false ∧
      st.connectionLost = false ∧ st.errorCode = 0 ∧ st.finalSeen = true ∧ st.endStreamSeen = true ∧
      st.response = resp := by
  rw [outcome] at h
  split_ifs at h with h1 h2 h3 h4 h5 h6 h7
  cases h
  simp only [Bool.not_eq_true, Bool.not_eq_true', ne_eq, not_not,
    Bool.not_eq_false] at h1 h2 h3 h4 h5 h6 h7
  exact ⟨h1, h2, h3, h4, h5, h6, h7, rfl⟩

/-- **Only complete responses, unmixed.** If nghttp2 keeps to the rules of HTTP messages on every
stream, then whenever a `request` returns a response, the callbacks for its own stream up to then
are a message with a final status, ended by END_STREAM and closed without an error; the limits were
kept, no timeout and no loss of the connection was recorded for the stream, and the response is that
message. -/
theorem response_complete (h : Run step {} tr s) (hd : ∀ p ∈ tr, p.2.destroys = false)
    (hrules : ∀ id, (hearAll (logOf (heard id) tr)).isSome) {tr₁ tr₂ : List (State ι × Event ι)}
    {s₁ : State ι} {i : ι} {id : ℕ} {resp : Http2Response} (htr : tr = tr₁ ++ (s₁, .take i) :: tr₂)
    (hres : (i, id, .ok resp) ∈ results s₁ (.take i)) :
    ∃ m, hearAll (logOf (heard id) tr₁) = some m ∧ m.final = true ∧ m.ended = true ∧
      m.closed = some 0 ∧ (∀ p ∈ tr₁, marks id p.1 p.2 = false) ∧
      m.headerBytes ≤ kHttp2MaxHeaderBytes ∧ m.interims ≤ kHttp2MaxInterimResponses ∧
      m.body.length ≤ kHttp2MaxBodyBytes ∧
      resp.status = m.status ∧ resp.headers = m.headers ∧ resp.body = m.body ∧
      resp.trailers = m.trailers := by
  subst htr
  have hd₁ : ∀ p ∈ tr₁, p.2.destroys = false := fun p hp => hd p (mem_append_left _ hp)
  have hrules₁ : ∀ id, (hearAll (logOf (heard id) tr₁)).isSome := by
    intro id
    have := hrules id
    rw [logOf, flatMap_append] at this
    exact hearAll_isSome_left this
  have hinv := inv_run h.cut hd₁
  simp only [results] at hres
  split at hres
  · next id' hi =>
    split at hres
    · simp at hres
    · next st hst =>
      obtain ⟨rfl, hok⟩ : id = id' ∧ Except.ok resp = st.outcome := by simpa using hres
      obtain ⟨hb, hh, hto, hcl, hcode, hfinal, hend, rfl⟩ := outcome_ok hok.symm
      have hkept : st.consumed = false := hinv.kept i id st (by simp [hi]) hst
      have hdone : st.done = true := hinv.resumed i id st hi hst
      obtain hg | ⟨hun, m, hall, ht⟩ := told_run h.cut hd₁ (hrules₁ id) hst
      · rw [GivenUp, hto, hcl, hkept] at hg
        simp at hg
      · obtain ⟨-, -, -, hshort, hfew, hf, hstatus, hheaders, htrailers⟩ := ht.header hh
        obtain ⟨hbody, hlen⟩ := ht.body hb
        have hmf : m.final = true := hf.trans hfinal
        have hclosed : m.closed = some 0 := by
          obtain ⟨code, hc⟩ := isSome_iff_exists.1 (ht.done.symm.trans hdone)
          have hz := ht.errorCode
          rw [hcode, hc] at hz
          rw [hc, hz]
          rfl
        exact ⟨m, hall, hmf, ht.ended.symm.trans hend, hclosed, hun, hshort, hfew, hlen,
          hstatus hmf, hheaders, hbody, htrailers⟩
  · simp at hres

/-- The stream that is called back for. -/
def Event.target : Event ι → List ℕ
  | .callback id _ => [id]
  | _ => []

omit [DecidableEq ι] in
/-- Only the streams that occur matter. -/
theorem hearAll_isSome_of_callbacks
    (h : ∀ p ∈ tr, ∀ id ∈ p.2.target, (hearAll (logOf (heard id) tr)).isSome = true) (id : ℕ) :
    (hearAll (logOf (heard id) tr)).isSome = true := by
  by_cases hex : ∃ p ∈ tr, ∃ c, p.2 = .callback id c
  · obtain ⟨⟨s, e⟩, hp, c, rfl⟩ := hex
    exact h _ hp id (mem_singleton_self id)
  · have hnil : logOf (heard id) tr = [] := by
      refine flatMap_eq_nil_iff.2 fun p hp => ?_
      cases he : p.2 with
      | callback id' c =>
        refine if_neg ?_
        rintro rfl
        exact hex ⟨p, hp, c, he⟩
      | _ => rfl
    rw [hnil]
    rfl

/-- Two streams at a time: the first has an interim response and trailers, the second is reset. -/
def interleaved : List (Event ℕ) :=
  [.request 0, .register 0, .request 1, .register 1, .flushed 0, .flushed 1, .ready 0, .suspend 0,
    .callback 1 .beginHeaders, .callback 1 (.header (bytes ":status") (bytes "103")),
    .callback 1 (.header (bytes "link") (bytes "a")), .callback 1 (.frame false),
    .callback 3 .beginHeaders, .callback 3 (.header (bytes ":status") (bytes "200")),
    .callback 1 .beginHeaders, .callback 1 (.header (bytes ":status") (bytes "404")),
    .callback 3 (.frame false), .callback 3 (.data (bytes "other")),
    .callback 1 (.header (bytes "x") (bytes "y")), .callback 1 (.frame false),
    .callback 1 (.data (bytes "no")), .callback 1 (.data (bytes "pe")), .callback 1 (.frame false),
    .callback 1 .beginHeaders, .callback 1 (.header (bytes "t") (bytes "u")),
      .callback 1 (.frame true),
    .callback 3 (.close 2), .callback 1 (.close 0), .resume 0]

def interleavedResponse : Http2Response where
  status := 404
  headers := [⟨bytes "x", bytes "y"⟩]
  body := bytes "nope"
  trailers := [⟨bytes "t", bytes "u"⟩]

theorem response_complete_interleaved : ∃ tr, ∃ s₁ t : State ℕ, Run step {} tr s₁ ∧
    step s₁ (.take 0) = some t ∧ (0, 1, .ok interleavedResponse) ∈ results s₁ (.take 0) ∧
    ∃ m, hearAll (logOf (heard 1) tr) = some m ∧ interleavedResponse.body = m.body ∧
      interleavedResponse.trailers = m.trailers := by
  obtain ⟨tr, s₁, h, hd, hl, ht, hres⟩ : ∃ tr, ∃ s₁ : State ℕ, Run step {} tr s₁ ∧
      (∀ p ∈ tr, p.2.destroys = false) ∧
      (∀ p ∈ tr, ∀ id ∈ p.2.target, (hearAll (logOf (heard id) tr)).isSome = true) ∧
      (step s₁ (.take 0)).isSome = true ∧
      (0, 1, .ok interleavedResponse) ∈ results s₁ (.take 0) :=
    Run.exists_of_exec interleaved (by decide +kernel)
  obtain ⟨t, ht⟩ := isSome_iff_exists.1 ht
  have hrules : ∀ id, (hearAll (logOf (heard id) (tr ++ [(s₁, .take 0)]))).isSome = true := by
    intro id
    rw [logOf_snoc, show heard id s₁ (.take 0) = [] from rfl, append_nil]
    exact hearAll_isSome_of_callbacks hl id
  have hd' : ∀ p ∈ tr ++ [(s₁, .take 0)], p.2.destroys = false :=
    forall_mem_append.2 ⟨hd, forall_mem_singleton.2 rfl⟩
  obtain ⟨m, hm, -, -, -, -, -, -, -, -, -, hbody, htrailers⟩ :=
    response_complete (h.next ht) hd' hrules rfl hres
  exact ⟨tr, s₁, t, h, ht, hres, m, hm, hbody, htrailers⟩

end Client

end Manwe.Http2
