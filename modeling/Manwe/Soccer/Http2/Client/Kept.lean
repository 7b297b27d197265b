import Manwe.Soccer.Http2.Client.Responses

/-!
# Responses within the limits are returned

The other half of `Client.Responses`: a stream is rejected **only over a limit**, and given up only
by a timeout or the loss of the connection. So a request whose response was heard to its end, within
the limits and before any of these, returns it (`returned_run`).
-/

namespace Manwe.Http2

open Http List Http2Stream Message Option

/-- The limits of the client are kept. -/
structure Message.Fits (m : Message) : Prop where
  headerBytes : m.headerBytes ≤ kHttp2MaxHeaderBytes
  interims : m.interims ≤ kHttp2MaxInterimResponses
  body : m.body.length ≤ kHttp2MaxBodyBytes

variable {ι : Type} {m m' : Message} {st st' : Http2Stream ι}

/-! ### What is heard grows -/

variable {c : Callback} {value name : Bytes}

theorem hearField_counts (h : m.hearField name value = some m') :
    m'.headerBytes = m.headerBytes ∧ m.interims ≤ m'.interims ∧ m'.body = m.body := by
  rw [hearField] at h
  split at h
  case h_1 hs =>
    split at h <;> cases h
    rw [hearStatus]
    split
    · exact ⟨rfl, Nat.le_succ _, rfl⟩
    · exact ⟨rfl, le_rfl, rfl⟩
  case h_5 => cases h
  all_goals
    split at h <;> cases h
    exact ⟨rfl, le_rfl, rfl⟩

theorem Message.Fits.before (hf : m'.Fits) (h : m.next c = some m') : m.Fits := by
  obtain ⟨hb, hi, hl⟩ := hf
  cases c with
  | beginHeaders =>
    simp only [next] at h
    split at h <;> cases h <;> exact ⟨hb, hi, hl⟩
  | header =>
    obtain ⟨hb', hi', hl'⟩ := hearField_counts h
    rw [hb'] at hb
    rw [hl'] at hl
    exact ⟨by simp only at hb; omega, hi'.trans hi, hl⟩
  | data =>
    simp only [next] at h
    split at h <;> cases h
    rw [length_append] at hl
    exact ⟨hb, hi, (Nat.le_add_right _ _).trans hl⟩
  | frame =>
    simp only [next, hearFrame] at h
    split at h <;> cases h <;> exact ⟨hb, hi, hl⟩
  | close =>
    cases h
    exact ⟨hb, hi, hl⟩

/-! ### One callback -/

theorem headersRejected_addStatus (status : ℤ) :
    (st.addStatus status).1.headersRejected = st.headersRejected := by
  rw [addStatus]
  split <;> rfl

theorem headersRejected_addField (name value : Bytes) :
    (st.addField name value).headersRejected = st.headersRejected := by
  rw [addField]
  repeat' split
  all_goals rfl

/-- A status within the limits. -/
theorem addStatus_kept (h : m.hearField (bytes ":status") value = some m')
    (hint : st.interimCount = m.interims) (hfew : m'.interims ≤ kHttp2MaxInterimResponses) :
    (st.addStatus (atoi value)).2 = false := by
  rw [hearField] at h
  split at h
  case h_1 hs =>
    split at h <;> cases h
    next hv =>
    rw [addStatus, atoi_of_isStatus hv.2]
    split
    · next hz =>
      have h1 : 100 ≤ stoull value ∧ stoull value < 200 := by exact_mod_cast hz
      rw [hearStatus, if_pos h1] at hfew
      simpa [hint] using hfew
    · rfl
  all_goals simp [isPseudo_status] at h

theorem onHeader_kept (ht : TellsHeaders st m) (hr : st.headersRejected = false)
    (hdone : st.done = false) (h : m.next (.header name value) = some m') (hf : m'.Fits) :
    (st.onHeader name value).headersRejected = false := by
  have hbytes := (hearField_counts h).1
  have hlong : ¬ st.headerBytes + name.length + value.length + 32 > kHttp2MaxHeaderBytes := by
    rw [ht.headerBytes]
    have := hf.headerBytes
    rw [hbytes] at this
    exact not_lt.2 this
  rw [onHeader, hr, hdone, if_neg (by simp), storeHeader, decide_eq_false hlong]
  split
  · next hn =>
    subst hn
    rw [headersRejected_rejectHeaders, headersRejected_addStatus, Bool.false_or,
      addStatus_kept h (by exact ht.interims) hf.interims]
    simp
  · rw [headersRejected_rejectHeaders, if_neg Bool.false_ne_true, headersRejected_addField]
    simp

/-- **One callback within the limits** rejects nothing. -/
theorem Tells.kept (ht : Tells st m) (hh : st.headersRejected = false)
    (hb : st.bodyRejected = false) (h : m.hear c = some m') (hf : m'.Fits) :
    (st.on c).headersRejected = false ∧ (st.on c).bodyRejected = false := by
  obtain ⟨hclosed, hn⟩ := next_of_hear h
  have hdone : st.done = false := by simp [ht.done, hclosed]
  cases c with
  | beginHeaders | close => exact ⟨hh, hb⟩
  | header name value =>
    exact ⟨onHeader_kept (ht.header hh) hh hdone hn hf,
      (headersOnly_onHeader st name value).bodyRejected.trans hb⟩
  | data =>
    simp only [Message.next] at hn
    split at hn <;> cases hn
    have hlen := hf.body
    rw [length_append, ← (ht.body hb).1] at hlen
    rw [Http2Stream.on, Http2Stream.onDataChunk, hdone, hb, if_neg (by simp),
      if_neg (not_lt.2 hlen)]
    exact ⟨hh, rfl⟩
  | frame endStream => cases endStream <;> exact ⟨hh, hb⟩

/-- Nothing was given up, and within the limits nothing was rejected. -/
structure Whole (st : Http2Stream ι) (m : Message) : Prop where
  timedOut : st.timedOut = false
  lost : st.connectionLost = false
  kept : m.Fits → st.headersRejected = false ∧ st.bodyRejected = false

theorem Whole.on (hw : Whole st m) (ht : Tells st m) (h : m.hear c = some m') :
    Whole (st.on c) m' := by
  obtain ⟨htimed, hlost, -⟩ := on_marks st c
  refine ⟨htimed.trans hw.timedOut, hlost.trans hw.lost, fun hf => ?_⟩
  obtain ⟨hh, hb⟩ := hw.kept (hf.before (next_of_hear h).2)
  exact ht.kept hh hb h hf

namespace Client

variable [DecidableEq ι] {s t : State ι} {e : Event ι} {tr : List (State ι × Event ι)} {id : ℕ}
  {i : ι}

/-- A timeout that is not recorded for the stream leaves it alone. -/
theorem find_failStream (hs : step s (.failStream i) = some t)
    (hm : marks id s (.failStream i) = false) : t.streams.find id = s.streams.find id := by
  simp only [step] at hs
  split at hs <;> cases hs
  next id' hi =>
  rw [State.failStream]
  split
  · rfl
  · next st hst =>
    refine (Table.find_adjust _).trans ?_
    split
    · next heq =>
      subst heq
      have hst : s.streams.find id = some st := hst
      have hdone : st.done = true := by simpa [marks, State.unfinished, hst, hi] using hm
      change Option.map _ (s.streams.find id) = s.streams.find id
      rw [hst, map_some, fail, if_pos hdone]
    · rfl

theorem find_sweep (hs : step s (.sweep i) = some t) (hm : marks id s (.sweep i) = false) :
    t.streams.find id = s.streams.find id := by
  simp only [step] at hs
  split at hs <;> cases hs
  refine (Table.find_map _).trans ?_
  change Option.map _ (s.streams.find id) = s.streams.find id
  cases hst : s.streams.find id with
  | none => rfl
  | some st =>
    have hdone : st.done = true := by simpa [marks, State.unfinished, hst] using hm
    rw [map_some, lose, if_pos hdone]

omit [DecidableEq ι] in
theorem heardAll_snoc (h : hearAll (logOf (heard id) (tr ++ [(s, e)])) = some m') :
    ∃ m, hearAll (logOf (heard id) tr) = some m ∧ (heard id s e).foldlM hear m = some m' := by
  rw [logOf_snoc, hearAll_append] at h
  exact bind_eq_some_iff.1 h

/-- One step on a stream of the map. -/
theorem Whole.step (hs : step s e = some t) (hm : marks id s e = false)
    (htouch : Touch s id e (some st) (some st')) (hst : s.streams.find id = some st)
    (hst' : t.streams.find id = some st') (hkept : st'.consumed = false)
    (hheard : (heard id s e).foldlM hear m = some m')
    (ih : st.consumed = false → Whole st m ∧ Tells st m) : Whole st' m' := by
  have hsame : heard id s e = [] → m' = m := by
    intro hnil
    rw [hnil] at hheard
    cases hheard
    rfl
  cases htouch with
  | same quiet =>
    rw [hsame quiet]
    exact (ih hkept).1
  | @callback c =>
    obtain ⟨hw, ht⟩ := ih ((on_marks st c).2.2.symm.trans hkept)
    exact hw.on ht (by simpa [heard] using hheard)
  | fail | lose =>
    first
    | rw [find_failStream hs hm, hst] at hst'
    | rw [find_sweep hs hm, hst] at hst'
    rw [← some.inj hst'] at hkept ⊢
    rw [hsame rfl]
    exact (ih hkept).1
  | park =>
    rw [hsame rfl]
    obtain ⟨htimed, hlost, hfits⟩ := (ih hkept).1
    exact ⟨htimed, hlost, hfits⟩
  | take => cases hkept

variable (h : Run step {} tr s) (hd : ∀ p ∈ tr, p.2.destroys = false)

include h hd

/-- **A stream that was not given up is whole**, as long as its response is not taken. -/
theorem whole_run (hall : hearAll (logOf (heard id) tr) = some m)
    (hun : ∀ p ∈ tr, marks id p.1 p.2 = false)
    (hst : s.streams.find id = some st) (hkept : st.consumed = false) : Whole st m ∧
      Tells st m := by
  induction h generalizing st m with
  | start => cases hst
  | @next tr s t e hr hs ih =>
    have hd' : ∀ p ∈ tr, p.2.destroys = false := fun p hp => hd p (mem_append_left _ hp)
    have hun' : ∀ p ∈ tr, marks id p.1 p.2 = false := fun p hp => hun p (mem_append_left _ hp)
    have hm : marks id s e = false := hun (s, e) (by simp)
    obtain ⟨m₀, hall₀, hheard⟩ := heardAll_snoc hall
    have hwhole : Whole st m := by
      have htouch := touch_of_step (inv_run hr hd').find_nextId hs id
      rw [hst] at htouch
      cases hst₀ : s.streams.find id with
      | some =>
        rw [hst₀] at htouch
        exact Whole.step hs hm htouch hst₀ hst hkept hheard (ih hd' hall₀ hun' hst₀)
      | none =>
        rw [hst₀] at htouch
        cases htouch with
        | create => exact ⟨rfl, rfl, fun _ => ⟨rfl, rfl⟩⟩
        | refuse => cases hkept
    have htold := told_run (hr.next hs) hd (by rw [hall]; rfl) hst
    obtain hg | ⟨-, m', hm', ht⟩ := htold
    · rw [GivenUp, hwhole.timedOut, hwhole.lost, hkept] at hg
      simp at hg
    · cases hm'.symm.trans hall
      exact ⟨hwhole, ht⟩

/-- **The response that was heard is returned.** -/
theorem returned_run (hi : s.ops i = .resumed id) (hall : hearAll (logOf (heard id) tr) = some m)
    (hun : ∀ p ∈ tr, marks id p.1 p.2 = false) (hf : m.Fits) (hfinal : m.final = true)
    (hend : m.ended = true) (hclosed : m.closed = some 0) :
    ∃ resp, results s (.take i) = [(i, id, .ok resp)] ∧ resp.status = m.status ∧
      resp.headers = m.headers ∧ resp.body = m.body ∧ resp.trailers = m.trailers := by
  have hinv := inv_run h hd
  have hname : (s.ops i).stream = some id := by simp [hi]
  obtain ⟨st, hst⟩ := ne_none_iff_exists'.1 (hinv.named i id hname)
  obtain ⟨hw, ht⟩ := whole_run h hd hall hun hst (hinv.kept i id st hname hst)
  obtain ⟨hh, hb⟩ := hw.kept hf
  have hhead := ht.header hh
  have hok : st.outcome = .ok st.response := by
    have hcode : st.errorCode = 0 := by simp [ht.errorCode, hclosed]
    simp [outcome, hb, hh, hw.timedOut, hw.lost, hcode, ← hhead.final, hfinal, ht.ended, hend]
  refine ⟨st.response, ?_, hhead.status hfinal, hhead.headers, (ht.body hb).1, hhead.trailers⟩
  simp [results, hi, hst, hok]

end Client

end Manwe.Http2
