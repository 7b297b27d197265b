import Manwe.Soccer.Http.Lexical
import Manwe.Soccer.Http2.Client.Message
import Manwe.Soccer.Http2.Client.Waiters

/-!
# The callbacks and the message

Every callback keeps the stream object and the message in step (`Tells.on`), **up to the limits**:
once one is exceeded the object is rejected for good.
-/

namespace Manwe.Http2

open Http List Http2Stream Message Bool

variable {ι : Type}

/-! ### Fields -/

theorem not_isSpace_of_isDigit : ∀ c, isDigit c = true → isSpace c = false :=
  forall_byte (by decide +kernel)

variable {value name : Bytes} {st : Http2Stream ι} {tooLong : Bool}

/-- `std::atoi` of digits. -/
theorem atoi_of_isStatus (h : isStatus value = true) : atoi value = stoull value := by
  obtain ⟨hlen, hall⟩ := and_eq_true_iff.1 h
  have htake : value.takeWhile isDigit = value := takeWhile_eq_self_iff.2 (all_eq_true.1 hall)
  cases value with
  | nil => rfl
  | cons c cs =>
    have hc : isDigit c = true := all_eq_true.1 hall c mem_cons_self
    have hdrop : (c :: cs).dropWhile isSpace = c :: cs :=
      dropWhile_cons_of_neg (by rw [not_isSpace_of_isDigit c hc]; exact false_ne_true)
    rw [atoi, hdrop]
    split
    · next heq =>
      cases heq
      exact absurd hc (by decide)
    · next heq =>
      cases heq
      exact absurd hc (by decide)
    · rw [htake]

theorem isPseudo_status : isPseudo (bytes ":status") = true := by decide

theorem ne_status_of_not_isPseudo (h : isPseudo name = false) : name ≠ bytes ":status" := by
  rintro rfl
  cases h

/-- What is left of a stream object whose headers are rejected, or not. -/
theorem headersRejected_rejectHeaders (st : Http2Stream ι) (reject : Bool) :
    (st.rejectHeaders reject).headersRejected = (st.headersRejected || reject) := by
  cases reject <;> simp [rejectHeaders]

theorem rejectHeaders_of_kept {reject : Bool}
    (h : (st.rejectHeaders reject).headersRejected = false) :
    reject = false ∧ st.rejectHeaders reject = st := by
  rw [headersRejected_rejectHeaders, or_eq_false_iff] at h
  obtain ⟨-, rfl⟩ := h
  exact ⟨rfl, rfl⟩

/-- Nothing but the headers is touched. -/
structure HeadersOnly (st st' : Http2Stream ι) : Prop where
  done : st'.done = st.done
  errorCode : st'.errorCode = st.errorCode
  ended : st'.endStreamSeen = st.endStreamSeen
  bodyRejected : st'.bodyRejected = st.bodyRejected
  body : st'.response.body = st.response.body
  lost : st'.connectionLost = st.connectionLost
  timedOut : st'.timedOut = st.timedOut

theorem headersOnly_onHeader (st : Http2Stream ι) (name value : Bytes) :
    HeadersOnly st (st.onHeader name value) := by
  simp only [onHeader, storeHeader, rejectHeaders, addStatus, addField]
  split_ifs <;> exact ⟨rfl, rfl, rfl, rfl, rfl, rfl, rfl⟩

theorem storeHeader_status
    (h : (st.storeHeader (bytes ":status") value tooLong).headersRejected = false) :
    tooLong = false ∧ (st.addStatus (atoi value)).2 = false ∧
      st.storeHeader (bytes ":status") value tooLong = (st.addStatus (atoi value)).1 := by
  obtain ⟨hreject, heq⟩ := rejectHeaders_of_kept h
  obtain ⟨hlong, hmany⟩ := or_eq_false_iff.1 hreject
  exact ⟨hlong, hmany, heq⟩

theorem storeHeader_field (hname : isPseudo name = false)
    (h : (st.storeHeader name value tooLong).headersRejected = false) :
    tooLong = false ∧ st.storeHeader name value tooLong = st.addField name value := by
  rw [storeHeader, if_neg (ne_status_of_not_isPseudo hname)] at h ⊢
  obtain ⟨rfl, heq⟩ := rejectHeaders_of_kept h
  exact ⟨rfl, heq⟩

section

variable {st : Http2Stream ι} {name : Bytes} (value : Bytes) (hname : isPseudo name = false)

include hname

theorem addField_of_informational (hi : st.informational = true) : st.addField name value = st := by
  simp [hname, hi]

theorem addField_of_statusInBlock (hi : st.informational = false) (hb : st.statusInBlock = true) :
    st.addField name value
      = { st with response.headers := st.response.headers ++ [⟨name, value⟩] } := by
  simp [hname, hi, hb]

theorem addField_of_finalSeen (hi : st.informational = false) (hf : st.finalSeen = true)
    (hb : st.statusInBlock = false) :
    st.addField name value
      = { st with response.trailers := st.response.trailers ++ [⟨name, value⟩] } := by
  simp [hname, hi, hf, hb]

end

variable {m m' : Message} {name value : Bytes}

/-- A field that is not a pseudo-header. -/
theorem hearField_regular (hne : m.stage ≠ .opening) (h : m.hearField name value = some m') :
    isPseudo name = false := by
  rw [hearField] at h
  split at h
  · next hs => exact absurd hs hne
  all_goals
    cases hp : isPseudo name with
    | false => rfl
    | true => simp [hp] at h

/-- **A field within the limits** is told as it was heard. -/
theorem TellsHeaders.onHeader {st : Http2Stream ι} (h : TellsHeaders st m) (hdone : st.done = false)
    (hrej : st.headersRejected = false)
    (hm : { m with headerBytes := m.headerBytes + name.length + value.length + 32 }.hearField
      name value = some m')
    (hkept : (st.onHeader name value).headersRejected = false) :
    TellsHeaders (st.onHeader name value) m' := by
  rw [Http2Stream.onHeader, hrej, hdone, Bool.or_false, if_neg Bool.false_ne_true] at hkept ⊢
  obtain ⟨hflags, hbytes, hint, hshort, hfew, hfinal, hstatus, hheaders, htrailers⟩ := h
  by_cases hs : m.stage = .opening
  · -- the first field of the block says which one it is
    rw [hearField] at hm
    simp only [hs] at hm
    split at hm <;> cases hm
    next hname =>
    obtain ⟨rfl, hvalue⟩ := hname
    obtain ⟨hlong, hmany, heq⟩ := storeHeader_status hkept
    rw [heq]
    have hshort' : m.headerBytes + (bytes ":status").length + value.length + 32
        ≤ kHttp2MaxHeaderBytes := by
      rw [← hbytes]
      simpa using hlong
    simp only [Flags, hs] at hflags
    rw [atoi_of_isStatus hvalue, addStatus] at hmany ⊢
    rw [hearStatus]
    by_cases h1 : 100 ≤ stoull value ∧ stoull value < 200
    · have hz : (100 : ℤ) ≤ stoull value ∧ (stoull value : ℤ) < 200 := by exact_mod_cast h1
      rw [if_pos hz] at hmany
      rw [if_pos hz, if_pos h1]
      refine ⟨⟨hflags.1, rfl⟩, by rw [hbytes], by rw [hint], hshort', ?_, hfinal, hstatus, hheaders,
        htrailers⟩
      simpa [hint] using hmany
    · have hz : ¬((100 : ℤ) ≤ stoull value ∧ (stoull value : ℤ) < 200) := by exact_mod_cast h1
      rw [if_neg hz, if_neg h1]
      exact ⟨⟨rfl, rfl, rfl⟩, by rw [hbytes], hint, hshort', hfew, rfl, fun _ => rfl, hheaders,
        htrailers⟩
  · have hreg : isPseudo name = false := hearField_regular (by exact hs) hm
    obtain ⟨hlong, heq⟩ := storeHeader_field hreg hkept
    rw [heq]
    have hshort' : m.headerBytes + name.length + value.length + 32 ≤ kHttp2MaxHeaderBytes := by
      rw [← hbytes]
      simpa using hlong
    rw [hearField] at hm
    simp only [hreg, false_eq_true, if_false] at hm
    cases hst : m.stage with simp only [hst] at hm
    | opening => exact absurd hst hs
    | interim | final | trailers =>
      cases hm
      simp only [Flags, hst] at hflags
      first
      | rw [addField_of_informational value hreg (by exact hflags.2)]
      | rw [addField_of_statusInBlock value hreg (by exact hflags.2.1) (by exact hflags.2.2)]
      | rw [addField_of_finalSeen value hreg (by exact hflags.2.1) (by exact hflags.1)
          (by exact hflags.2.2)]
      exact ⟨hflags, by rw [hbytes], hint, hshort', hfew, hfinal, hstatus, by rw [hheaders],
        by rw [htrailers]⟩
    | waiting | body | ended => simp at hm

/-! ### Callbacks -/

/-- A field does not end the stream. -/
theorem hearField_ended (h : m.hearField name value = some m') :
    m.ended = false ∧ m'.ended = false ∧ m'.closed = m.closed ∧ m'.body = m.body := by
  rw [hearField] at h
  split at h
  case h_1 hs =>
    split at h <;> cases h
    rw [hearStatus]
    split <;> exact ⟨by simp [ended, hs], rfl, rfl, rfl⟩
  case h_2 hs | h_3 hs | h_4 hs =>
    split at h <;> cases h
    exact ⟨by simp [ended, hs], by simp [ended, hs], rfl, rfl⟩
  case h_5 => cases h

section

variable {st : Http2Stream ι} {m m' : Message}

theorem Tells.onBeginHeaders (h : Tells st m) (hm : m.next .beginHeaders = some m') :
    Tells st.onBeginHeaders m' := by
  simp only [Message.next] at hm
  split at hm <;> cases hm
  all_goals
    next hs =>
    refine ⟨h.done, h.errorCode, ?_, fun hr => ?_, h.body⟩
    · exact h.ended.trans (by simp [Message.ended, hs])
    · have hf := (h.header hr).flags
      simp only [Flags, hs] at hf
      exact { h.header hr with flags := by simp [Flags, onBeginHeaders, hf] }

theorem Tells.onHeader (h : Tells st m) (hdone : st.done = false) {name value : Bytes}
    (hm : m.next (.header name value) = some m') : Tells (st.onHeader name value) m' := by
  obtain ⟨he, he', hcl, hb⟩ := hearField_ended hm
  have honly := headersOnly_onHeader st name value
  refine ⟨?_, ?_, ?_, fun hr => ?_, fun hr => ?_⟩
  · rw [honly.done, h.done, hcl]
  · rw [honly.errorCode, h.errorCode, hcl]
  · rw [honly.ended, h.ended, he']
    exact he
  · cases hrej : st.headersRejected with
    | true =>
      rw [Http2Stream.onHeader, hrej, Bool.true_or, if_pos rfl, hrej] at hr
      cases hr
    | false => exact (h.header hrej).onHeader hdone hrej hm hr
  · rw [honly.body, hb]
    exact h.body (honly.bodyRejected ▸ hr)

theorem Tells.onDataChunk (h : Tells st m) (hdone : st.done = false) {chunk : Bytes}
    (hm : m.next (.data chunk) = some m') : Tells (st.onDataChunk chunk) m' := by
  simp only [Message.next] at hm
  split at hm <;> cases hm
  next hs =>
  have hheader : st.headersRejected = false →
      TellsHeaders (st.onDataChunk chunk) { m with body := m.body ++ chunk } := by
    intro hr
    rw [onDataChunk]
    split_ifs <;> exact { h.header hr with }
  have hcond : (st.done || st.bodyRejected) = st.bodyRejected := by rw [hdone, Bool.false_or]
  rw [onDataChunk, hcond] at hheader ⊢
  split_ifs at hheader ⊢ with hb hlong
  · refine ⟨h.done, h.errorCode, h.ended, hheader, fun hr => ?_⟩
    rw [hb] at hr
    cases hr
  · exact ⟨h.done, h.errorCode, h.ended, hheader, by simp⟩
  · refine ⟨h.done, h.errorCode, h.ended, hheader, fun hr => ?_⟩
    obtain ⟨heq, -⟩ := h.body hr
    refine ⟨by rw [heq], ?_⟩
    rw [length_append, ← heq]
    omega

variable {endStream : Bool}

/-- The end of a frame moves the stage on. -/
theorem hearFrame_cases (st : Http2Stream ι) (h : m.hearFrame endStream = some m') :
    m' = { m with stage := m'.stage } ∧ m.ended = false ∧ m'.ended = endStream ∧
      (Flags st m → Flags st m') := by
  unfold hearFrame at h
  cases hs : m.stage <;> cases endStream <;> simp only [hs] at h <;> cases h
  all_goals
    refine ⟨rfl, by simp [ended, hs], by simp [ended, hs], fun hf => ?_⟩
    simp only [Flags, hs] at hf ⊢
    tauto

theorem Tells.onFrameRecv (h : Tells st m) (hm : m.next (.frame endStream) = some m') :
    Tells (st.onFrameRecv endStream) m' := by
  obtain ⟨heq, hm0, hend, hflags⟩ := hearFrame_cases st hm
  have hheader : st.headersRejected = false → TellsHeaders st m' := by
    intro hr
    have hf := hflags (h.header hr).flags
    rw [heq] at hf ⊢
    exact { h.header hr with flags := hf }
  have hdone : st.done = m'.closed.isSome := by rw [heq, h.done]
  have hcode : st.errorCode = m'.closed.getD 0 := by rw [heq, h.errorCode]
  have hbody : st.bodyRejected = false →
      st.response.body = m'.body ∧ m'.body.length ≤ kHttp2MaxBodyBytes := by
    rw [heq]
    exact h.body
  cases endStream with
  | true => exact ⟨hdone, hcode, hend.symm, fun hr => { hheader hr with }, hbody⟩
  | false => exact ⟨hdone, hcode, h.ended.trans (hm0.trans hend.symm), hheader, hbody⟩

theorem Tells.onStreamClose (h : Tells st m) (hdone : st.done = false) {errorCode : ℕ}
    (hm : m.next (.close errorCode) = some m') : Tells (st.onStreamClose errorCode) m' := by
  cases hm
  refine ⟨rfl, ?_, h.ended, fun hr => { h.header hr with }, h.body⟩
  exact if_neg (by rw [hdone]; exact false_ne_true)

variable {c : Callback}

theorem next_of_hear (h : m.hear c = some m') : m.closed = none ∧ m.next c = some m' := by
  rw [hear] at h
  split at h
  · cases h
  · next hc => exact ⟨by simpa using hc, h⟩

/-- **A callback** keeps the stream object and the message in step. -/
theorem Tells.on (h : Tells st m) (hm : m.hear c = some m') : Tells (st.on c) m' := by
  obtain ⟨hc, hm⟩ := next_of_hear hm
  have hdone : st.done = false := by simp [h.done, hc]
  cases c with
  | beginHeaders => exact h.onBeginHeaders hm
  | header => exact h.onHeader hdone hm
  | data => exact h.onDataChunk hdone hm
  | frame => exact h.onFrameRecv hm
  | close => exact h.onStreamClose hdone hm

end

/-- Nobody can take the response any more, or nobody will. -/
def GivenUp (st : Http2Stream ι) : Prop :=
  st.timedOut = true ∨ st.connectionLost = true ∨ st.consumed = true

/-- A callback gives nothing up. -/
theorem on_marks (st : Http2Stream ι) (c : Callback) : (st.on c).timedOut = st.timedOut ∧
    (st.on c).connectionLost = st.connectionLost ∧ (st.on c).consumed = st.consumed := by
  cases c with
  | header name value =>
    have honly := headersOnly_onHeader st name value
    exact ⟨honly.timedOut, honly.lost, (Client.alike_onHeader st name value).2.2⟩
  | data =>
    simp only [on, onDataChunk]
    split_ifs <;> exact ⟨rfl, rfl, rfl⟩
  | frame endStream => cases endStream <;> exact ⟨rfl, rfl, rfl⟩
  | beginHeaders | close => exact ⟨rfl, rfl, rfl⟩

theorem GivenUp.on {st : Http2Stream ι} (h : GivenUp st) (c : Callback) : GivenUp (st.on c) := by
  obtain ⟨htimed, hlost, hconsumed⟩ := on_marks st c
  rw [GivenUp, htimed, hlost, hconsumed]
  exact h

end Manwe.Http2
