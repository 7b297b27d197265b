import Manwe.Soccer.Http.Lexical
import Manwe.Soccer.Http2.Exchange
import Manwe.Soccer.Http2.Server.Requests

/-!
# Requests arrive as they were made

`expectedRequest` says what a handler should see of a call of `request`. What the loop over the
caller's headers keeps (`requestFields_eq`), delivered as callbacks (`RequestDelivery.hear`), is a
message whose request is the expected one (`requestOf_requestFields`); and a server **within whose
limits it stays** hands it over at the next pass at the latest (`request_delivered`), whatever else
is going on on the connection.
-/

namespace Manwe.Http2

open Http List Server

/-! ### What a handler should see -/

/-- A header of the caller that goes on the wire. -/
def keptHeader (h : HttpHeader) : Bool :=
  !(h.named "Connection" || h.named "Keep-Alive" || h.named "Proxy-Connection" || h.named "Upgrade"
    || h.named "Content-Length" || h.named "Host") &&
    (!h.named "TE" || iequalsAscii (trimAscii h.value) (bytes "trailers"))

/-- The last Host of the caller, or the authority of the connection. -/
def requestAuthority (authority : Bytes) (headers : List HttpHeader) : Bytes :=
  ((headers.filter (·.named "Host")).getLast?.map HttpHeader.value).getD authority

/-- **The request that a handler should see.** -/
def expectedRequest (authority scheme method path : Bytes) (headers : List HttpHeader)
    (body : Bytes) : Http2Request where
  method := method
  path := (splitQuery path).1
  query := (splitQuery path).2
  headers := ⟨bytes "host", requestAuthority authority headers⟩ ::
    joinCookies ((headers.filter keptHeader).map lowerName) ++ requestLength method body
  body := body
  authority := requestAuthority authority headers
  scheme := scheme

/-! ### The loop over the caller's headers -/

variable {h : HttpHeader} {acc acc' : Bytes × List HttpHeader}

theorem named_iff {name : String} :
    h.named name = true ↔ lowerAscii h.name = lowerAscii (bytes name) := by
  simp [HttpHeader.named, iequalsAscii, lowerAscii]

/-- Different names. -/
theorem named_ne {a b : String} (ha : h.named a = true)
    (hab : lowerAscii (bytes a) ≠ lowerAscii (bytes b)) : h.named b = false := by
  rw [Bool.eq_false_iff]
  exact fun hb => hab ((named_iff.1 ha).symm.trans (named_iff.1 hb))

theorem requestHeader_ok (hok : requestHeader acc h = .ok acc') : isHttpToken h.name = true ∧
      acc' = (if h.named "Host" then h.value else acc.1,
        acc.2 ++ if keptHeader h then [h] else []) := by
  rw [requestHeader] at hok
  split at hok
  · cases hok
  next hvalid =>
  have htoken : isHttpToken h.name = true := by
    simp only [Bool.or_eq_true, Bool.not_eq_true', not_or, Bool.not_eq_false] at hvalid
    exact hvalid.1.1
  refine ⟨htoken, ?_⟩
  split at hok
  · next hdrop =>
    cases hok
    have hhost : h.named "Host" = false := by
      simp only [Bool.or_eq_true] at hdrop
      obtain (((hd | hd) | hd) | hd) | hd := hdrop <;> exact named_ne hd (by decide)
    have hkept : keptHeader h = false := by simp [keptHeader, hdrop]
    simp [hhost, hkept]
  next hdrop =>
  split at hok
  · next hte =>
    have hhost : h.named "Host" = false := named_ne hte (by decide)
    split at hok <;> cases hok
    · next hv => simp [keptHeader, hdrop, hhost, hte, hv]
    · next hv => simp [keptHeader, hdrop, hhost, hte, hv]
  next hte =>
  split at hok
  · next hhost =>
    split at hok <;> cases hok
    simp [keptHeader, hhost]
  · next hhost =>
    cases hok
    simp [keptHeader, hdrop, hhost, hte]

theorem foldlM_requestHeader {headers : List HttpHeader}
    (hok : headers.foldlM requestHeader acc = .ok acc') :
    (∀ h ∈ headers, isHttpToken h.name = true) ∧
      acc' = (requestAuthority acc.1 headers, acc.2 ++ headers.filter keptHeader) := by
  induction headers generalizing acc with
  | nil =>
    cases hok
    simp [requestAuthority]
  | cons h headers ih =>
    rw [foldlM_cons] at hok
    cases hh : requestHeader acc h with
    | error =>
      rw [hh] at hok
      cases hok
    | ok =>
      rw [hh] at hok
      obtain ⟨htoken, rfl⟩ := requestHeader_ok hh
      obtain ⟨hall, rfl⟩ := ih hok
      refine ⟨forall_mem_cons.2 ⟨htoken, hall⟩, Prod.ext ?_ ?_⟩
      · simp only [requestAuthority, filter_cons]
        split
        · simp [getLast?_cons]
        · rfl
      · simp only [filter_cons, append_assoc]
        split <;> simp

/-- The pseudo-headers of a request. -/
def pseudoFields (authority scheme method path : Bytes) : List HttpHeader :=
  [⟨bytes ":method", method⟩, ⟨bytes ":scheme", scheme⟩, ⟨bytes ":authority", authority⟩,
    ⟨bytes ":path", path⟩]

/-- What follows them. -/
def sentHeaders (method : Bytes) (headers : List HttpHeader) (body : Bytes) : List HttpHeader :=
  (headers.filter keptHeader).map lowerName ++ requestLength method body

variable {authority scheme method path body : Bytes} {headers fields : List HttpHeader}

/-- **The fields of a request** that passes the checks. -/
theorem requestFields_eq
    (hok : requestFields authority scheme method path headers body = .ok fields) :
    (∀ h ∈ headers, isHttpToken h.name = true) ∧
      fields = pseudoFields (requestAuthority authority headers) scheme method path ++
        sentHeaders method headers body := by
  rw [requestFields] at hok
  split at hok
  · cases hok
  · cases hloop : headers.foldlM requestHeader (authority, []) with
    | error =>
      rw [hloop] at hok
      cases hok
    | ok =>
      rw [hloop] at hok
      obtain ⟨hall, rfl⟩ := foldlM_requestHeader hloop
      cases hok
      exact ⟨hall, append_assoc ..⟩

/-! ### The request of these fields -/

theorem tolower_ne_colon : ∀ c, isTokenChar c = true → tolower c ≠ 58 :=
  forall_byte (by decide +kernel)

/-- A token is no pseudo-header, in lower case either. -/
theorem isPseudo_lowerAscii {name : Bytes} (h : isHttpToken name = true) :
    isPseudo (lowerAscii name) = false := by
  cases name with
  | nil => cases h
  | cons c =>
    have hc : isTokenChar c = true := by
      simp only [isHttpToken, all_cons, Bool.and_eq_true] at h
      exact h.2.1
    simpa [isPseudo, lowerAscii] using tolower_ne_colon c hc

section Fields

variable {name : Bytes} {pseudo regular : List HttpHeader}

theorem valuesOf_append_regular (hreg : ∀ h ∈ regular, isPseudo h.name = false)
    (hname : isPseudo name = true) : valuesOf name (pseudo ++ regular) = valuesOf name pseudo := by
  have hnil : regular.filter (fun f => f.name = name) = [] := by
    refine filter_eq_nil_iff.2 fun h hm heq => ?_
    have := hreg h hm
    rw [of_decide_eq_true heq, hname] at this
    cases this
  rw [valuesOf, filter_append, hnil, append_nil, valuesOf]

theorem regularFields_append (hp : ∀ h ∈ pseudo, isPseudo h.name = true)
    (hreg : ∀ h ∈ regular, isPseudo h.name = false) :
    regularFields (pseudo ++ regular) = regular := by
  rw [regularFields, filter_append, filter_eq_nil_iff.2 fun h hm => by simp [hp h hm],
    filter_eq_self.2 fun h hm => by simp [hreg h hm], nil_append]

/-- A host in front of fields that are none. -/
theorem oneHost_cons {host : HttpHeader} (hhost : isHost host = true)
    (hreg : ∀ h ∈ regular, isHost h = false) : oneHost (host :: regular) = host :: regular := by
  rw [oneHost, gather_cons_of_pos _ hhost, filter_eq_nil_iff.2 fun h hm => by simp [hreg h hm],
    filter_eq_self.2 fun h hm => by simp [hreg h hm]]
  rfl

theorem joinCookies_append_length (method body : Bytes) :
    joinCookies (regular ++ requestLength method body) =
      joinCookies regular ++ requestLength method body := by
  rw [requestLength]
  split
  · exact gather_snoc_of_neg _ rfl
  · rw [append_nil, append_nil]

end Fields

theorem isPseudo_pseudoFields (authority scheme method path : Bytes) :
    ∀ h ∈ pseudoFields authority scheme method path, isPseudo h.name = true := by
  simp [pseudoFields, isPseudo, bytes]

theorem mem_sentHeaders (htoken : ∀ h ∈ headers, isHttpToken h.name = true) {h : HttpHeader}
    (hm : h ∈ sentHeaders method headers body) :
    isPseudo h.name = false ∧ isHost h = false := by
  obtain hm | hm := mem_append.1 hm
  · obtain ⟨h, hk, rfl⟩ := mem_map.1 hm
    obtain ⟨hmem, hkept⟩ := mem_filter.1 hk
    refine ⟨isPseudo_lowerAscii (htoken h hmem), isHost_eq_false.2 fun hname => ?_⟩
    have hhost : h.named "Host" = true := named_iff.2 (hname.trans (by decide))
    simp [keptHeader, hhost] at hkept
  · rw [requestLength] at hm
    split at hm
    · rw [mem_singleton.1 hm]
      exact ⟨rfl, rfl⟩
    · cases hm

theorem headersOf_requestFields (htoken : ∀ h ∈ headers, isHttpToken h.name = true) :
    headersOf (pseudoFields authority scheme method path ++ sentHeaders method headers body)
      =
      ⟨bytes "host", authority⟩ :: joinCookies ((headers.filter keptHeader).map lowerName) ++
        requestLength method body := by
  have hreg : ∀ h ∈ sentHeaders method headers body, isPseudo h.name = false :=
    fun h hm => (mem_sentHeaders htoken hm).1
  have hhost : authorityHost (pseudoFields authority scheme method path ++
      sentHeaders method headers body) = [⟨bytes "host", authority⟩] := by
    rfl
  rw [headersOf, hhost, regularFields_append (isPseudo_pseudoFields _ _ _ _) hreg,
    singleton_append,
    oneHost_cons rfl fun h hm => (mem_sentHeaders htoken hm).2]
  calc joinCookies (⟨bytes "host", authority⟩ :: sentHeaders method headers body)
      = ⟨bytes "host", authority⟩ :: joinCookies (sentHeaders method headers body) :=
        gather_cons_of_neg _ rfl
    _ = _ := by rw [sentHeaders, joinCookies_append_length, cons_append]

/-- **The fields of a request make the expected request.** -/
theorem requestOf_requestFields
    (hok : requestFields authority scheme method path headers body = .ok fields) :
    requestOf fields body = expectedRequest authority scheme method path headers body := by
  obtain ⟨htoken, rfl⟩ := requestFields_eq hok
  have hvalue : ∀ name, isPseudo name = true → pseudoValue name
      (pseudoFields (requestAuthority authority headers) scheme method path ++
        sentHeaders method headers body) =
      pseudoValue name (pseudoFields (requestAuthority authority headers) scheme method path)
        := by
    intro name hname
    rw [pseudoValue, valuesOf_append_regular (fun h hm =>
      (mem_sentHeaders htoken hm).1) hname,
      pseudoValue]
  simp only [requestOf, expectedRequest, headersOf_requestFields htoken,
    hvalue (bytes ":method") rfl, hvalue (bytes ":path") rfl, hvalue (bytes ":authority") rfl,
    hvalue (bytes ":scheme") rfl]
  rfl

/-! ### The callbacks for them -/

namespace Server

variable {m : RequestMessage}

variable {pseudo regular : List HttpHeader}

theorem hear_pseudo (hclosed : m.closed = false) (hstage : m.stage = .pseudo)
    (hp : ∀ h ∈ pseudo, isPseudo h.name = true) :
    (pseudo.map fun h => Part.field h.name h.value).foldlM RequestMessage.hear m =
      some { m with fields := m.fields ++ pseudo } := by
  induction pseudo generalizing m with
  | nil => simp
  | cons h pseudo ih =>
    have hstep : m.hear (.field h.name h.value) = some { m with fields := m.fields ++ [h] } := by
      simp [RequestMessage.hear, hclosed, hstage, hp h mem_cons_self]
    refine foldlM_cons_some hstep ?_
    rw [ih (m := { m with fields := m.fields ++ [h] }) hclosed hstage fun h' hm =>
      hp h' (mem_cons_of_mem _ hm)]
    simp

theorem hear_regular (hclosed : m.closed = false) (hstage : m.stage = .pseudo ∨ m.stage = .regular)
    (hreg : ∀ h ∈ regular, isPseudo h.name = false) :
    ∃ stage, (stage = .pseudo ∨ stage = .regular) ∧
      (regular.map fun h => Part.field h.name h.value).foldlM RequestMessage.hear m =
        some { m with stage, fields := m.fields ++ regular } := by
  induction regular generalizing m with
  | nil => exact ⟨m.stage, hstage, by simp⟩
  | cons h regular ih =>
    have hstep : m.hear (.field h.name h.value) =
        some { m with stage := .regular, fields := m.fields ++ [h] } := by
      have hp := hreg h mem_cons_self
      obtain hs | hs := hstage <;>
        simp [RequestMessage.hear, hclosed, hs, hp]
    obtain ⟨stage, hs, hrest⟩ := ih
      (m := { m with stage := .regular, fields := m.fields ++ [h] }) hclosed (.inr rfl)
      fun h' hm => hreg h' (mem_cons_of_mem _ hm)
    refine ⟨stage, hs, foldlM_cons_some hstep ?_⟩
    rw [hrest]
    simp

/-- The block of a request. -/
theorem hear_requestBlock (endStream : Bool) (hp : ∀ h ∈ pseudo, isPseudo h.name = true)
    (hreg : ∀ h ∈ regular, isPseudo h.name = false) :
    (requestBlock (pseudo ++ regular) endStream).foldlM RequestMessage.hear {} =
      some { stage := if endStream then .ended else .content, fields := pseudo ++ regular } := by
  obtain ⟨stage, hstage, hregular⟩ := hear_regular (m := { stage := .pseudo, fields := pseudo }) rfl
    (.inl rfl) hreg
  have hpseudo := hear_pseudo (m := { stage := .pseudo }) rfl rfl hp
  have hframe : ([.frame endStream] : List Part).foldlM RequestMessage.hear
      { stage, fields := pseudo ++ regular } =
      some { stage := if endStream then .ended else .content, fields := pseudo ++ regular } := by
    obtain rfl | rfl := hstage <;> simp [RequestMessage.hear]
  rw [requestBlock, map_append]
  exact foldlM_cons_some (by rfl) (foldlM_append_some (foldlM_append_some hpseudo hregular) hframe)

/-- DATA frames in any cut. -/
theorem hear_dataFrames {frames : List (List Bytes)} (hclosed : m.closed = false)
    (hstage : m.stage = .content) (hne : frames ≠ []) :
    (dataFrames Part.data Part.frame true frames).foldlM RequestMessage.hear m =
      some { m with body := m.body ++ frames.flatten.flatten, stage := .ended } := by
  refine foldlM_dataFrames (fun body => { m with body })
    (fun body => { m with body, stage := .ended }) ?_ ?_ ?_ hne m.body
  · intro body chunk
    simp [RequestMessage.hear, hclosed, hstage]
  · intro body
    simp [RequestMessage.hear, hclosed, hstage]
  · intro body
    simp [RequestMessage.hear, hclosed, hstage]

end Server

/-- **What the server hears of a request.** -/
theorem RequestDelivery.hear {parts : List Part}
    (hok : requestFields authority scheme method path headers body = .ok fields)
    (hd : RequestDelivery fields body parts) :
    hearRequest parts = some { stage := .ended, fields, body } := by
  obtain ⟨htoken, rfl⟩ := requestFields_eq hok
  have hreg : ∀ h ∈ sentHeaders method headers body, isPseudo h.name = false :=
    fun h hm => (mem_sentHeaders htoken hm).1
  have hblock := fun endStream => hear_requestBlock endStream
    (isPseudo_pseudoFields (requestAuthority authority headers) scheme method path) hreg
  cases hd with
  | empty noBody =>
    subst noBody
    exact hblock true
  | body some pulls ne same =>
    obtain ⟨rfl, -⟩ := pulls.eq (Nat.zero_le _)
    have h := foldlM_append_some (hblock false) (hear_dataFrames rfl rfl ne)
    rw [same] at h
    exact h

end Manwe.Http2
