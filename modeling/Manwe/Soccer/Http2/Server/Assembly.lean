import Manwe.Soccer.Http2.Server.Message

/-!
# The callbacks and the request

`serverOnHeader` builds the header list field by field, with a flag for `host` and the place of the
cookie; `requestOf` speaks of the whole block. They agree after every field (`Assembled.store`),
because
**the pseudo-headers come first**: when `:authority` arrives there is no `host` yet that it would
have to overtake. The other callbacks keep the stream object and the message in step as well, up to
the limits (`Follows.touch`).
-/

namespace Manwe.Http2

open Http List ServerStream

namespace Server

variable {o : Http2ServerOptions} {fs : List HttpHeader} {f : HttpHeader} {name value body : Bytes}

/-! ### One field more -/

theorem valuesOf_snoc : valuesOf name (fs ++ [f]) =
    valuesOf name fs ++ if f.name = name then [f.value] else [] := by
  rw [valuesOf, filter_append, map_append, ← valuesOf]
  split
  · next h => simp [h]
  · next h => simp [h]

theorem pseudoValue_snoc : pseudoValue name (fs ++ [f]) =
    if f.name = name then f.value else pseudoValue name fs := by
  rw [pseudoValue, valuesOf_snoc]
  split
  · simp
  · rw [append_nil, pseudoValue]

theorem listBytes_snoc : listBytes (fs ++ [f]) =
    listBytes fs + (f.name.length + f.value.length + 32) := by
  simp [listBytes]

theorem regularFields_snoc_of_pos (h : isPseudo f.name = true) :
    regularFields (fs ++ [f]) = regularFields fs := by
  simp [regularFields, filter_append, h]

theorem regularFields_snoc_of_neg (h : isPseudo f.name = false) :
    regularFields (fs ++ [f]) = regularFields fs ++ [f] := by
  simp [regularFields, filter_append, h]

theorem authorityHost_snoc_of_ne (h : f.name ≠ bytes ":authority") :
    authorityHost (fs ++ [f]) = authorityHost fs := by
  rw [authorityHost, valuesOf_snoc, if_neg h, append_nil, authorityHost]

/-- The first `:authority` is the one that counts. -/
theorem authorityHost_snoc (h : f.name = bytes ":authority") : authorityHost (fs ++ [f]) =
    if authorityHost fs = [] then [⟨bytes "host", f.value⟩] else authorityHost fs := by
  rw [authorityHost, valuesOf_snoc, if_pos h, authorityHost]
  cases valuesOf (bytes ":authority") fs with
  | nil => rfl
  | cons => rfl

theorem authorityHost_all : ∀ h ∈ authorityHost fs, isHost h = true := by
  intro h hm
  obtain ⟨v, -, rfl⟩ : ∃ v, _ ∧ _ := by simpa [authorityHost] using hm
  rfl

theorem any_authorityHost : (authorityHost fs).any isHost = !(authorityHost fs).isEmpty := by
  cases hl : authorityHost fs with
  | nil => rfl
  | cons h => simp [authorityHost_all h (hl ▸ mem_cons_self)]

/-! ### The header list -/

theorem joinCookies_stable (a b : HttpHeader) (h : isCookie a = true) :
    isCookie ⟨a.name, a.value ++ bytes "; " ++ b.value⟩ = true := h

theorem isPseudo_host : isPseudo (bytes "host") = false := by decide

theorem isPseudo_cookie : isPseudo (bytes "cookie") = false := by decide

theorem isHost_eq_false : isHost f = false ↔ f.name ≠ bytes "host" := by simp [isHost]

theorem isCookie_eq_false : isCookie f = false ↔ f.name ≠ bytes "cookie" := by simp [isCookie]

variable {l : List HttpHeader}

/-- A `host` beside another one is dropped. -/
theorem oneHost_snoc_of_pos (h : l.any isHost = true) (hf : isHost f = true) :
    oneHost (l ++ [f]) = oneHost l := by
  have hany : (oneHost l).any isHost = true := (any_gather (fun _ _ h => h) l).trans h
  obtain ⟨i, hi⟩ := Option.isSome_iff_exists.1 (findIdx?_isSome.trans hany)
  rw [oneHost, gather_snoc_of_some (fun _ _ h => h) hf hi]
  exact modify_id ..

/-- Any other field comes last. -/
theorem oneHost_snoc_of_neg (h : l.any isHost = false ∨ isHost f = false) :
    oneHost (l ++ [f]) = oneHost l ++ [f] :=
  h.elim gather_snoc_of_none (gather_snoc_of_neg l)

theorem headersOf_snoc_pseudo (hp : isPseudo f.name = true) (hn : f.name ≠ bytes ":authority") :
    headersOf (fs ++ [f]) = headersOf fs := by
  rw [headersOf, authorityHost_snoc_of_ne hn, regularFields_snoc_of_pos hp, headersOf]

theorem ne_of_not_isPseudo (hp : isPseudo name = false) {n : Bytes} (hn : isPseudo n = true) : name
    ≠ n := by
  rintro rfl
  rw [hp] at hn
  cases hn

/-- A regular field that is kept, and no crumb of a cookie beside others, comes last. -/
theorem headersOf_snoc_regular (hp : isPseudo f.name = false)
    (hh : (authorityHost fs ++ regularFields fs).any isHost = false ∨ isHost f = false)
    (hc : isCookie f = false ∨ (headersOf fs).findIdx? isCookie = none) :
    headersOf (fs ++ [f]) = headersOf fs ++ [f] := by
  rw [headersOf, authorityHost_snoc_of_ne (ne_of_not_isPseudo hp (by decide)),
    regularFields_snoc_of_neg hp, ← append_assoc, oneHost_snoc_of_neg hh]
  obtain hc | hc := hc
  · exact gather_snoc_of_neg _ hc
  · refine gather_snoc_of_none ?_
    rw [← any_gather joinCookies_stable]
    exact Bool.eq_false_iff.2 fun h => by
      rw [← findIdx?_isSome, ← joinCookies, ← headersOf, hc] at h
      cases h

theorem headersOf_snoc_host (hf : isHost f = true)
    (hh : (authorityHost fs ++ regularFields fs).any isHost = true) :
    headersOf (fs ++ [f]) = headersOf fs := by
  have hname : f.name = bytes "host" := by simpa [isHost] using hf
  rw [headersOf, authorityHost_snoc_of_ne (by rw [hname]; decide),
    regularFields_snoc_of_neg (by rw [hname]; decide), ← append_assoc, oneHost_snoc_of_pos hh hf,
    headersOf]

theorem headersOf_snoc_crumb {i : ℕ} (hf : isCookie f = true)
    (hi : (headersOf fs).findIdx? isCookie = some i) :
    headersOf (fs ++ [f]) =
      (headersOf fs).modify i fun h => ⟨h.name, h.value ++ bytes "; " ++ f.value⟩ := by
  have hname : f.name = bytes "cookie" := by simpa [isCookie] using hf
  rw [headersOf, authorityHost_snoc_of_ne (by rw [hname]; decide),
    regularFields_snoc_of_neg (by rw [hname]; decide), ← append_assoc,
    oneHost_snoc_of_neg (.inr (isHost_eq_false.2 (by rw [hname]; decide)))]
  exact gather_snoc_of_some joinCookies_stable hf hi

/-! ### The stream object -/

/-- The head of the request, with the two marks that help to build it. -/
structure Assembled (st : ServerStream) (fs : List HttpHeader) (body : Bytes) : Prop where
  req : st.req = requestOf fs body
  hasHost : st.hasHost = (authorityHost fs ++ regularFields fs).any isHost
  cookie : st.cookieIndex = (headersOf fs).findIdx? isCookie

variable {st : ServerStream}

theorem requestOf_snoc_regular (hp : isPseudo f.name = false) :
    requestOf (fs ++ [f]) body = { requestOf fs body with headers := headersOf (fs ++ [f]) } := by
  have hm : f.name ≠ bytes ":method" := ne_of_not_isPseudo hp (by decide)
  have hpa : f.name ≠ bytes ":path" := ne_of_not_isPseudo hp (by decide)
  have hs : f.name ≠ bytes ":scheme" := ne_of_not_isPseudo hp (by decide)
  have ha : f.name ≠ bytes ":authority" := ne_of_not_isPseudo hp (by decide)
  simp only [requestOf, pseudoValue_snoc, if_neg hm, if_neg hpa, if_neg hs, if_neg ha]

variable {st' : ServerStream}

/-- A pseudo-header other than `:authority` leaves the header list alone. -/
theorem Assembled.pseudo (h : Assembled st fs body) (hp : isPseudo name = true)
    (hn : name ≠ bytes ":authority") (hreq : st'.req = requestOf (fs ++ [⟨name, value⟩]) body)
    (hhost : st'.hasHost = st.hasHost) (hcookie : st'.cookieIndex = st.cookieIndex) :
    Assembled st' (fs ++ [⟨name, value⟩]) body where
  req := hreq
  hasHost := by
    rw [authorityHost_snoc_of_ne hn, regularFields_snoc_of_pos hp, hhost]
    exact h.hasHost
  cookie := by
    rw [headersOf_snoc_pseudo hp hn, hcookie]
    exact h.cookie

theorem requestOf_snoc_authority : requestOf (fs ++ [⟨bytes ":authority", value⟩]) body =
    { requestOf fs body with
      authority := value
      headers := headersOf (fs ++ [⟨bytes ":authority", value⟩]) } := by
  simp +decide only [requestOf, pseudoValue_snoc, if_true, if_false]

variable (h : Assembled st fs body)

include h

theorem Assembled.setAuthority (hreg : regularFields fs = []) :
    Assembled (st.setAuthority value) (fs ++ [⟨bytes ":authority", value⟩]) body := by
  have hauth : authorityHost (fs ++ [⟨bytes ":authority", value⟩]) =
      if authorityHost fs = [] then [⟨bytes "host", value⟩] else authorityHost fs :=
        authorityHost_snoc rfl
  have hreg' : regularFields (fs ++ [⟨bytes ":authority", value⟩]) = [] :=
    (regularFields_snoc_of_pos (show isPseudo (bytes ":authority") = true by decide)).trans hreg
  have hhost : st.hasHost = !(authorityHost fs).isEmpty := by
    rw [h.hasHost, hreg, append_nil, any_authorityHost]
  rw [ServerStream.setAuthority]
  cases hl : authorityHost fs with
  | nil =>
    rw [hl, if_pos rfl] at hauth
    rw [hl] at hhost
    have hheaders : headersOf fs = [] := by rw [headersOf, hl, hreg]; rfl
    have hheaders' : headersOf (fs ++ [⟨bytes ":authority", value⟩]) = [⟨bytes "host", value⟩] := by
      rw [headersOf, hauth, hreg']
      rfl
    rw [if_neg (by simp [hhost])]
    refine ⟨?_, ?_, ?_⟩
    · rw [requestOf_snoc_authority, hheaders', h.req, show (requestOf fs body).headers = [] from
        hheaders]
      rfl
    · rw [hauth, hreg']
      rfl
    · rw [hheaders', h.cookie, hheaders]
      rfl
  | cons =>
    rw [hl, if_neg (by simp)] at hauth
    rw [hl] at hhost
    have hheaders : headersOf (fs ++ [⟨bytes ":authority", value⟩]) = headersOf fs := by
      rw [headersOf, hauth, hreg', headersOf, hl, hreg]
    rw [if_pos (show st.hasHost = true from hhost)]
    refine ⟨?_, ?_, ?_⟩
    · rw [requestOf_snoc_authority, hheaders, h.req]
      rfl
    · rw [hauth, hreg', h.hasHost, hl, hreg]
    · rw [hheaders, h.cookie]

/-- A regular field, by what it makes of the header list. -/
theorem Assembled.regular (hp : isPseudo f.name = false) (hsnoc : headersOf (fs ++ [f]) = l)
    (hreq : st'.req = { st.req with headers := l }) (hhost : st'.hasHost = (st.hasHost || isHost f))
    (hcookie : st'.cookieIndex = l.findIdx? isCookie) : Assembled st' (fs ++ [f]) body where
  req := by rw [requestOf_snoc_regular hp, hsnoc, hreq, h.req]
  hasHost := by
    rw [authorityHost_snoc_of_ne (ne_of_not_isPseudo hp (by decide)), regularFields_snoc_of_neg hp,
      ← append_assoc, any_append, ← h.hasHost, any_cons, any_nil, Bool.or_false, hhost]
  cookie := by rw [hsnoc, hcookie]

/-- A regular field at the end. -/
theorem Assembled.push (hp : isPseudo name = false) (hh : name ≠ bytes "host")
    (hc : name ≠ bytes "cookie") : Assembled (st.push name value) (fs ++ [⟨name, value⟩]) body := by
  have hhost : isHost ⟨name, value⟩ = false := isHost_eq_false.2 hh
  have hcookie : isCookie ⟨name, value⟩ = false := isCookie_eq_false.2 hc
  refine h.regular hp (headersOf_snoc_regular hp (.inr hhost) (.inl hcookie)) ?_ ?_ ?_
  · rw [ServerStream.push, h.req]
    rfl
  · rw [hhost, Bool.or_false]
    rfl
  · rw [findIdx?_snoc_of_neg _ hcookie]
    exact h.cookie

theorem Assembled.host :
    Assembled (if st.hasHost then st else { st.push (bytes "host") value with hasHost := true })
      (fs ++ [⟨bytes "host", value⟩]) body := by
  split
  · next hh =>
    refine h.regular isPseudo_host (headersOf_snoc_host rfl (h.hasHost ▸ hh)) ?_ ?_ h.cookie
    · rw [h.req]
      rfl
    · rw [hh]
      rfl
  · next hh =>
    have hh : (authorityHost fs ++ regularFields fs).any isHost = false := by
      rw [← h.hasHost]
      simpa using hh
    refine h.regular isPseudo_host (headersOf_snoc_regular isPseudo_host (.inl hh) (.inl rfl)) ?_
      (Bool.or_true _).symm ?_
    · rw [ServerStream.push, h.req]
      rfl
    · rw [findIdx?_snoc_of_neg _ rfl]
      exact h.cookie

theorem Assembled.addCookie :
    Assembled (st.addCookie value) (fs ++ [⟨bytes "cookie", value⟩]) body := by
  rw [ServerStream.addCookie]
  split
  · next i hi =>
    have hidx := h.cookie.symm.trans hi
    refine h.regular isPseudo_cookie (headersOf_snoc_crumb rfl hidx) ?_ (Bool.or_false _).symm ?_
    · rw [h.req]
      rfl
    · exact h.cookie.trans (findIdx?_modify (by exact fun _ => rfl) _ _).symm
  · next hi =>
    have hidx := h.cookie.symm.trans hi
    refine h.regular isPseudo_cookie (headersOf_snoc_regular isPseudo_cookie (.inr rfl) (.inr hidx))
      ?_ (Bool.or_false _).symm ?_
    · rw [ServerStream.push, h.req]
      rfl
    · have hlen : st.req.headers.length = (headersOf fs).length := by rw [h.req]; rfl
      rw [findIdx?_append, hidx]
      simp [isCookie, hlen]

/-- **One field**, in a block that has its pseudo-headers first. -/
theorem Assembled.store (hreg : isPseudo name = true → regularFields fs = []) :
    Assembled (st.store name value) (fs ++ [⟨name, value⟩]) body := by
  have hpseudo : ∀ n : Bytes, isPseudo n = true → n ≠ bytes ":authority" →
      headersOf (fs ++ [⟨n, value⟩]) = headersOf fs := fun n h1 h2 => headersOf_snoc_pseudo h1 h2
  rw [ServerStream.store]
  -- `:method`, `:path` and `:scheme`
  iterate 3
    split
    · next hn =>
      subst hn
      refine h.pseudo (by decide) (by decide) ?_ rfl rfl
      simp +decide only [requestOf, pseudoValue_snoc, h.req, if_true, if_false]
      rw [hpseudo] <;> decide
  split
  · next hn =>
    subst hn
    exact h.setAuthority (hreg rfl)
  next hm hpa hs ha =>
  split
  · next hp =>
    refine h.pseudo hp ha ?_ rfl rfl
    rw [h.req]
    simp only [requestOf, pseudoValue_snoc, if_neg hm, if_neg hpa, if_neg hs, if_neg ha,
      hpseudo _ hp ha]
  · next hp =>
    have hp : isPseudo name = false := by simpa using hp
    split
    · next hn =>
      subst hn
      exact h.host
    · next hh =>
      split
      · next hn =>
        subst hn
        exact h.addCookie
      · next hc => exact h.push hp hh hc

omit h

/-! ### The limits -/

theorem overHeaders_iff (st : ServerStream) (n : ℕ) : st.overHeaders o n = false ↔
    (o.maxHeaderListBytes ≠ 0 → st.headerBytes + n ≤ o.maxHeaderListBytes) ∧
      (o.maxHeaderCount ≠ 0 → st.req.headers.length < o.maxHeaderCount) := by
  simp [overHeaders, imp_iff_not_or]

/-- The header caps after one more field. -/
theorem RequestMessage.Within.field {m m' : RequestMessage} (hw : m.Within o)
    (hfields : m'.fields = m.fields ++ [f]) (hbody : m'.body = m.body)
    (hlist : o.maxHeaderListBytes ≠ 0 → listBytes m'.fields ≤ o.maxHeaderListBytes)
    (hcount : o.maxHeaderCount ≠ 0 → (headersOf m.fields).length < o.maxHeaderCount) : m'.Within o
      where
  list := hlist
  count := fun h0 gs g hpre => by
    rw [hfields] at hpre
    obtain heq | hpre := prefix_concat_iff.1 hpre
    · obtain ⟨rfl, -⟩ := append_inj' heq rfl
      exact hcount h0
    · exact hw.count h0 gs g hpre
  body := hbody ▸ hw.body

/-! ### The callbacks -/

theorem live_iff : live st = true ↔
    st.bodyRejected = false ∧ st.rejected = false ∧ st.responseSubmitted = false := by
  simp [live, and_assoc]

variable {m m' : RequestMessage}

theorem next_of_hear {c : Part} (h : m.hear c = some m') : m.next c = some m' := by
  rw [RequestMessage.hear] at h
  split at h
  · cases h
  · exact h

/-- A field of the request block. -/
theorem next_field (h : m.next (.field name value) = some m') :
    m'.fields = m.fields ++ [⟨name, value⟩] ∧ m'.body = m.body ∧ m.ended = false ∧
      m'.ended = false ∧
      m'.stage ≠ .idle ∧ (isPseudo name = true → m.stage = .pseudo) ∧
      (m'.stage = .pseudo → isPseudo name = true) := by
  simp only [RequestMessage.next] at h
  split at h <;> cases h <;> simp_all

variable {chunk : Bytes}

theorem next_data (h : m.next (.data chunk) = some m') :
    m.stage = .content ∧ m' = { m with body := m.body ++ chunk } := by
  simp only [RequestMessage.next] at h
  split at h <;> cases h
  exact ⟨‹_›, rfl⟩

variable {endStream : Bool}

theorem next_frame (h : m.next (.frame endStream) = some m') :
    m.ended = false ∧ m' = { m with stage := if endStream then .ended else .content } := by
  simp only [RequestMessage.next] at h
  split at h <;> cases h <;> exact ⟨by simp_all, rfl⟩

variable (hf : Follows o st m)

include hf

theorem Follows.onHeader (hm : m.next (.field name value) = some m') :
    Follows o (st.onHeader o name value) m' := by
  obtain ⟨hfields, hbody, hend, hend', hidle, hpseudo, hstage⟩ := next_field hm
  have hk := st.headOnly_onHeader o name value
  refine ⟨hidle, hk.started.trans (hf.started.trans (hend.trans hend'.symm)), fun hlive => ?_⟩
  obtain ⟨hbr, hrej, hsub⟩ := live_iff.1 hlive
  rw [hk.bodyRejected] at hbr
  rw [hk.submitted] at hsub
  rw [ServerStream.onHeader] at hrej ⊢
  split at hrej
  · next hr => exact absurd (hr.symm.trans hrej) (by simp)
  next hr =>
  split at hrej
  · cases hrej
  next hover =>
  rw [if_neg hr, if_neg hover]
  have ht := hf.tells (live_iff.2 ⟨hbr, by simpa using hr, hsub⟩)
  obtain ⟨hlist, hcount⟩ := (overHeaders_iff st _).1 (by simpa using hover)
  have hbytes : st.headerBytes + (name.length + value.length + 32) = listBytes m'.fields := by
    rw [hfields, listBytes_snoc, ht.headerBytes]
  have hreg : isPseudo name = true → regularFields m.fields = [] := fun hp => ht.pseudo (hpseudo hp)
  have hasm : Assembled { st with headerBytes := st.headerBytes + (name.length + value.length + 32)
    } m.fields m.body := ⟨ht.req, ht.hasHost, ht.cookie⟩
  obtain ⟨hreq, hhost, hcookie⟩ : Assembled _ (m.fields ++ [⟨name,
    value⟩]) m.body := hasm.store hreg
  rw [← hfields] at hreq hhost hcookie
  rw [← hbody] at hreq
  refine ⟨hreq, hhost, hcookie, (headerBytes_store _ _ _).trans hbytes, ?_, fun hp => ?_⟩
  · refine ht.within.field hfields hbody (fun h0 => hbytes ▸ hlist h0) fun h0 => ?_
    have := hcount h0
    rw [ht.req] at this
    exact this
  · rw [hfields, regularFields_snoc_of_pos (hstage hp)]
    exact hreg (hstage hp)

theorem Follows.takeChunk (hm : m.next (.data chunk) = some m')
    (fits : ¬ overBody o st chunk.length) : Follows o (st.takeChunk chunk) m' := by
  obtain ⟨hstage, rfl⟩ := next_data hm
  refine ⟨hf.begun, hf.started, fun hlive => ?_⟩
  obtain ⟨hreq, hhost, hcookie, hbytes, hw, hp⟩ := hf.tells (live_iff.2 (live_iff.1 hlive))
  have hbody : st.req.body = m.body := by rw [hreq]; rfl
  refine ⟨?_, hhost, hcookie, hbytes, ⟨hw.list, hw.count, fun h0 => ?_⟩, hp⟩
  · rw [takeChunk, hreq]
    rfl
  · rw [overBody, hbody] at fits
    rw [length_append]
    omega

/-- Of a stream that is given up only END_STREAM matters. -/
theorem Follows.dead (hidle : m'.stage ≠ .idle) (hstart : st'.handlerStarted = st.handlerStarted)
    (hend : m'.ended = m.ended) (hlive : live st' = false) : Follows o st' m' :=
  ⟨hidle, hstart.trans (hf.started.trans hend.symm), fun h => absurd (hlive.symm.trans h) (by simp)⟩

/-- The message is past its request block. -/
theorem Follows.frame (hm : m.next (.frame endStream) = some m') :
    Follows o { st with handlerStarted := endStream || st.handlerStarted } m' := by
  obtain ⟨hend, rfl⟩ := next_frame hm
  refine ⟨?_, ?_, fun hlive => ?_⟩
  · cases endStream <;> exact nofun
  · rw [hf.started, hend]
    cases endStream <;> rfl
  · obtain ⟨hreq, hhost, hcookie, hbytes, hw, hp⟩ := hf.tells (live_iff.2 (live_iff.1 hlive))
    refine ⟨hreq, hhost, hcookie, hbytes, ⟨hw.list, hw.count, hw.body⟩, fun h => ?_⟩
    cases endStream <;> cases h

theorem Follows.walked : Follows o st.walked m := by
  rw [ServerStream.walked]
  split
  · next hd => exact hf.dead hf.begun rfl rfl (by simp [live])
  · split
    · exact hf.dead hf.begun rfl rfl (by simp [live])
    · exact hf

omit hf

variable {s : State} {e : Event} {id : ℕ} {h h' : Handler} {st' : ServerStream}

theorem next_of_heard {c : Part} (hm : (heard id s e).foldlM RequestMessage.hear m = some m')
    (hs : heard id s e = [c]) : m.next c = some m' := by
  rw [hs] at hm
  exact next_of_hear (by simpa using hm)

/-- What is heard without an effect on the stream. -/
theorem Follows.quiet (hf : Follows o st m) (found : s.streams.find id = some st) (hq : Quiet o s e)
    (hm : (heard id s e).foldlM RequestMessage.hear m = some m') : Follows o st m' := by
  by_cases hs : heard id s e = []
  · rw [hs] at hm
    cases hm
    exact hf
  -- a callback about this stream
  cases e with simp [heard] at hs
  | beginHeaders =>
    have hn := next_of_heard hm (if_pos hs)
    simp only [RequestMessage.next] at hn
    split at hn
    · next heq => exact absurd (congrArg RequestMessage.stage heq) hf.begun
    · cases hn
  | trailer =>
    have hn := next_of_heard hm (if_pos hs)
    simp only [RequestMessage.next] at hn
    split at hn <;> cases hn
    exact hf
  | data =>
    subst hs
    obtain ⟨hstage, rfl⟩ := next_data (next_of_heard hm (if_pos rfl))
    refine hf.dead hf.begun rfl rfl ?_
    rw [live, hq st found]
    rfl
  | frame id' endStream =>
    have hn := hf.frame (next_of_heard hm (if_pos hs))
    rwa [show endStream = false from hq] at hn
  | close id' =>
    subst hs
    rw [show s.streams.find id' = none from hq] at found
    cases found
  | header => exact hq.elim

/-- **One step, one stream.** -/
theorem Follows.touch (hf : Follows o st m) (found : s.streams.find id = some st)
    (ht : Touch o s id e (some st) h (some st') h')
    (hm : (heard id s e).foldlM RequestMessage.hear m = some m') : Follows o st' m' := by
  have hsame : heard id s e = [] → m' = m := by
    intro hs
    rw [hs] at hm
    cases hm
    rfl
  cases ht with
  | same silent | move silent => rwa [hsame silent]
  | quiet quiet => exact hf.quiet found quiet hm
  | header => exact hf.onHeader (next_of_heard hm (if_pos rfl))
  | reject =>
    obtain ⟨hstage, rfl⟩ := next_data (next_of_heard hm (if_pos rfl))
    exact hf.dead hf.begun rfl rfl (by simp [live])
  | take receiving budget fits => exact hf.takeChunk (next_of_heard hm (if_pos rfl)) fits
  | complete => exact hf.frame (next_of_heard hm (if_pos rfl))
  | dispatch | pass =>
    rw [hsame rfl]
    exact hf.walked
  | finish | retire => rwa [hsame rfl]
  | submit =>
    rw [hsame rfl]
    exact hf.dead hf.begun rfl rfl (by simp [live])
  | leave =>
    rw [hsame rfl]
    refine ⟨hf.begun, hf.started, fun hlive => ?_⟩
    obtain ⟨hreq, hhost, hcookie, hbytes, hw, hp⟩ := hf.tells (live_iff.2 (live_iff.1 hlive))
    exact ⟨hreq, hhost, hcookie, hbytes, hw, hp⟩

end Server

end Manwe.Http2
