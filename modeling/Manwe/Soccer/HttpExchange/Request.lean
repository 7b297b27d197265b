import Manwe.Soccer.HttpClient
import Manwe.Soccer.HttpServer.Parses

/-!
# The request round trip

What `HttpClient` serialises, `HttpServer` parses back: `parseRequest` on the bytes of
`buildRequestHead` and the body, **in any segmentation and whatever follows**, returns the method,
the target split at its query, the header fields with trimmed values and the body, and takes exactly
those bytes (`parseRequest_buildRequestHead`).
-/

namespace Manwe.HttpExchange

open Http HttpClient HttpServer BufferedReader List Bool

variable {method host path connection : Bytes} {port bodySize : ℕ} {extra : List HttpHeader}

/-! ### What is sent -/

/-- The fields the client adds before the caller's. -/
def leadFields (host : Bytes) (port : ℕ) (extra : List HttpHeader) (connection : Bytes) :
    List HttpHeader :=
  (if extra.any (·.named "Host") then [] else [⟨bytes "Host", hostHeaderValue host port 80⟩]) ++
    ⟨bytes "Connection", connection⟩ ::
    (if extra.any fun h => !h.named "Host" && h.named "User-Agent" then []
      else [⟨bytes "User-Agent", bytes "manwe-soccer-http/0.3"⟩])

/-- The caller's fields, without a Content-Length. -/
def callerFields (extra : List HttpHeader) : List HttpHeader :=
  extra.filter fun h => !h.named "Content-Length"

/-- The length field that frames the body. -/
def lengthFields (method : Bytes) (bodySize : ℕ) : List HttpHeader :=
  if bodySize ≠ 0 ∨ expectsBody method then [⟨bytes "Content-Length", decimal bodySize⟩] else []

/-- The fields of a request, in the order in which they are sent. -/
def sentFields (method host : Bytes) (port : ℕ) (extra : List HttpHeader) (bodySize : ℕ)
    (connection : Bytes) : List HttpHeader :=
  leadFields host port extra connection ++ callerFields extra ++ lengthFields method bodySize

/-- The fields as the server is to see them: the caller's values are trimmed. -/
def receivedFields (method host : Bytes) (port : ℕ) (extra : List HttpHeader) (bodySize : ℕ)
    (connection : Bytes) : List HttpHeader :=
  leadFields host port extra connection ++ (callerFields extra).map trimmed ++
    lengthFields method bodySize

/-- The blank after the colon belongs to the value as it is sent. -/
def spaced (h : HttpHeader) : HttpHeader := ⟨h.name, 32 :: h.value⟩

theorem rawLine_spaced (h : HttpHeader) : rawLine (spaced h) = fieldLine h := by
  simp [rawLine, spaced, fieldLine, bytes]

theorem trimmed_spaced (h : HttpHeader) : trimmed (spaced h) = trimmed h := by
  rw [trimmed, spaced, trimAscii_blank, trimmed]

/-- The request head as the server takes it apart. -/
def sentHead (method host : Bytes) (port : ℕ) (path : Bytes) (extra : List HttpHeader)
    (bodySize : ℕ) (connection : Bytes) : RawHead where
  method := method
  target := path
  version := bytes "HTTP/1.1"
  fields := (sentFields method host port extra bodySize connection).map spaced

theorem flatMap_rawLine_spaced (fs : List HttpHeader) :
    (fs.map spaced).flatMap rawLine = fs.flatMap fieldLine := by
  rw [flatMap_map]
  congr 1
  funext h
  exact rawLine_spaced h

theorem buildRequestHead_eq : buildRequestHead method host port path extra bodySize connection =
      (sentHead method host port path extra bodySize connection).render := by
  have hversion : bytes " HTTP/1.1\r\n" = 32 :: bytes "HTTP/1.1" ++ crlf := by decide
  have hhost : ∀ v, bytes "Host: " ++ v ++ crlf = fieldLine ⟨bytes "Host", v⟩ := fun v => rfl
  have hconn : bytes "Connection: " ++ connection ++ crlf =
      fieldLine ⟨bytes "Connection", connection⟩ := rfl
  have hagent : bytes "User-Agent: manwe-soccer-http/0.3\r\n" =
      fieldLine ⟨bytes "User-Agent", bytes "manwe-soccer-http/0.3"⟩ := by decide
  have hlength : bytes "Content-Length: " ++ decimal bodySize ++ crlf =
      fieldLine ⟨bytes "Content-Length", decimal bodySize⟩ := rfl
  rw [buildRequestHead, RawHead.render, RawHead.requestLine, sentHead, flatMap_rawLine_spaced,
    hversion, hhost, hconn, hagent, hlength, sentFields, leadFields, callerFields, lengthFields]
  split_ifs <;> simp

/-! ### The fields are valid -/

theorem target_hostHeaderValue (h : hasTargetCtl host = false) :
    hasTargetCtl (hostHeaderValue host port 80) = false := by
  unfold hostHeaderValue
  split_ifs <;> simp only [hasTargetCtl_append, h, target_decimal] <;> decide

variable {f : HttpHeader}

variable (h : checkRequestParts method host path extra = true)

include h

/-- What `checkRequestParts` says about a caller's field. -/
theorem caller_of_check (hf : f ∈ extra) : ValidField f ∧ f.named "Transfer-Encoding" = false := by
  simp only [checkRequestParts, and_eq_true, all_eq_true, not_eq_true'] at h
  exact ⟨(h.2 f hf).1, (h.2 f hf).2⟩

theorem parts_of_check :
    isHttpToken method = true ∧ hasTargetCtl host = false ∧ hasTargetCtl path = false := by
  simp only [checkRequestParts, and_eq_true, not_eq_true'] at h
  exact ⟨h.1.1.1.1, h.1.1.2, h.1.2⟩

omit h

theorem mem_callerFields :
    f ∈ callerFields extra ↔ f ∈ extra ∧ f.named "Content-Length" = false := by
  simp [callerFields]

theorem mem_lengthFields (hf : f ∈ lengthFields method bodySize) :
    f = ⟨bytes "Content-Length", decimal bodySize⟩ := by
  unfold lengthFields at hf
  split at hf
  · exact mem_singleton.1 hf
  · cases hf

theorem valid_spaced (h : ValidField f) : ValidField (spaced f) := by
  refine ⟨h.1, ?_⟩
  exact h.2

variable (hhost : hasTargetCtl host = false)
  (hconn : connection = bytes "close" ∨ connection = bytes "keep-alive")

include hconn hhost

/-- The fields the client adds in front carry clean values under four fixed names. -/
theorem mem_leadFields (hf : f ∈ leadFields host port extra connection) :
    (f.name = bytes "Host" ∨ f.name = bytes "Connection" ∨ f.name = bytes "User-Agent") ∧
      hasTargetCtl f.value = false := by
  rcases mem_append.1 hf with hf | hf
  · split at hf
    · cases hf
    · obtain rfl := mem_singleton.1 hf
      exact ⟨.inl rfl, target_hostHeaderValue hhost⟩
  · rcases mem_cons.1 hf with rfl | hf
    · refine ⟨.inr (.inl rfl), ?_⟩
      rcases hconn with rfl | rfl <;> decide
    · split at hf
      · cases hf
      · obtain rfl := mem_singleton.1 hf
        exact ⟨.inr (.inr rfl), by decide⟩

omit hhost
include h

theorem valid_sentFields :
    ∀ f ∈ sentFields method host port extra bodySize connection, ValidField f := by
  intro f hf
  simp only [sentFields, mem_append] at hf
  rcases hf with (hf | hf) | hf
  · obtain ⟨hname, hvalue⟩ := mem_leadFields (parts_of_check h).2.1 hconn hf
    refine ⟨?_, value_of_target hvalue⟩
    rcases hname with hname | hname | hname <;> rw [hname] <;> decide
  · exact (caller_of_check h (mem_callerFields.1 hf).1).1
  · obtain rfl := mem_lengthFields hf
    exact ⟨(by decide : isHttpToken (bytes "Content-Length") = true),
      value_of_target (target_decimal _)⟩

/-! ### The framing checks pass -/

omit h
include hhost

theorem trimmed_receivedFields :
    (sentFields method host port extra bodySize connection).map trimmed =
      receivedFields method host port extra bodySize connection := by
  have hself : ∀ l : List HttpHeader, (∀ f ∈ l, hasTargetCtl f.value = false) →
      l.map trimmed = l := by
    intro l hl
    refine (map_congr_left fun f hf => ?_).trans (map_id l)
    rw [trimmed, trimAscii_target (hl f hf)]
    rfl
  rw [sentFields, receivedFields, map_append, map_append,
    hself _ fun f hf => (mem_leadFields hhost hconn hf).2, hself (lengthFields method bodySize)]
  intro f hf
  rw [mem_lengthFields hf]
  exact target_decimal _

/-- None of the fields in front has a name that matters for framing. -/
theorem named_leadFields {name : String} (hf : f ∈ leadFields host port extra connection)
    (hne : ∀ a ∈ ["Host", "Connection", "User-Agent"], (bytes a).map tolower ≠ (bytes name).map
      tolower) : f.named name = false := by
  simp only [forall_mem_cons] at hne
  rcases (mem_leadFields hhost hconn hf).1 with h | h | h
  · exact named_of_name h hne.1
  · exact named_of_name h hne.2.1
  · exact named_of_name h hne.2.2.1

omit hhost hconn

theorem countP_host_leadFields : (leadFields host port extra connection).countP (·.named "Host") =
      if extra.any (·.named "Host") then 0 else 1 := by
  have h₁ : HttpHeader.named ⟨bytes "Connection", connection⟩ "Host" = false :=
    named_of_name rfl (by decide)
  have h₂ : HttpHeader.named ⟨bytes "User-Agent", bytes "manwe-soccer-http/0.3"⟩ "Host" = false :=
    named_of_name rfl (by decide)
  have h₃ : HttpHeader.named ⟨bytes "Host", hostHeaderValue host port 80⟩ "Host" = true := by
    simp [HttpHeader.named, iequalsAscii]
  unfold leadFields
  split_ifs <;> simp [h₁, h₂, h₃]

/-- There is exactly one Host. -/
theorem countP_host_receivedFields (hone : extra.countP (·.named "Host") ≤ 1) :
    (receivedFields method host port extra bodySize connection).countP (·.named "Host") = 1 := by
  have hcaller : ((callerFields extra).map trimmed).countP (·.named "Host") =
      extra.countP (·.named "Host") := by
    rw [countP_trimmed, callerFields, countP_filter]
    refine countP_congr fun f _ => ?_
    simp only [and_eq_true, not_eq_true', and_iff_left_iff_imp]
    exact fun h => named_eq_false h (by decide)
  have hlength : (lengthFields method bodySize).countP (·.named "Host") = 0 := by
    refine countP_eq_zero.2 fun f hf => ?_
    rw [mem_lengthFields hf, named_of_name rfl (by decide)]
    exact false_ne_true
  rw [receivedFields, countP_append, countP_append, hcaller, hlength, countP_host_leadFields]
  split
  · next hany =>
    obtain ⟨f, hf, hnamed⟩ := any_eq_true.1 hany
    have : 0 < extra.countP (·.named "Host") := countP_pos_iff.2 ⟨f, hf, hnamed⟩
    omega
  · next hany =>
    have : extra.countP (·.named "Host") = 0 :=
      countP_eq_zero.2 fun f hf h => hany (any_eq_true.2 ⟨f, hf, h⟩)
    omega

/-- A property of the fields other than the length, part by part. -/
theorem forall_receivedFields {p : HttpHeader → Prop}
    (hlead : ∀ f ∈ leadFields host port extra connection, p f)
    (hcaller : ∀ f ∈ extra, f.named "Content-Length" = false → p (trimmed f))
    (hlength : p ⟨bytes "Content-Length", decimal bodySize⟩) :
    ∀ f ∈ receivedFields method host port extra bodySize connection, p f := by
  intro f hf
  simp only [receivedFields, mem_append, mem_map] at hf
  rcases hf with (hf | ⟨g, hg, rfl⟩) | hf
  · exact hlead f hf
  · obtain ⟨hg, hname⟩ := mem_callerFields.1 hg
    exact hcaller g hg hname
  · rw [mem_lengthFields hf]
    exact hlength

/-- The length the head announces, if any. -/
def announced (method : Bytes) (bodySize : ℕ) : Option ℕ :=
  if bodySize ≠ 0 ∨ expectsBody method then some bodySize else none

theorem announced_getD : (announced method bodySize).getD 0 = bodySize := by
  unfold announced
  split
  · rfl
  · next h => exact (not_not.1 (not_or.1 h).1).symm

include hhost hconn

theorem strictContentLength_received (hdigits : bodySize < 10 ^ 12) :
    strictContentLength (receivedFields method host port extra bodySize connection) 0 =
      .ok (announced method bodySize) := by
  have hrest : ∀ f ∈ leadFields host port extra connection ++ (callerFields extra).map trimmed,
      f.named "Content-Length" = false := by
    intro f hf
    rcases mem_append.1 hf with hf | hf
    · exact named_leadFields hhost hconn hf (by decide)
    · obtain ⟨g, hg, rfl⟩ := mem_map.1 hf
      exact (mem_callerFields.1 hg).2
  have hlengths : contentLengths none (receivedFields method host port extra bodySize connection) =
      .ok (announced method bodySize) := by
    rw [receivedFields, contentLengths_append hrest, lengthFields, announced]
    split
    · have hnamed : HttpHeader.named ⟨bytes "Content-Length", decimal bodySize⟩ "Content-Length" =
          true := by
        simp [HttpHeader.named, iequalsAscii]
      simp only [contentLengths, hnamed, isLength_decimal hdigits, stoull_decimal, if_true]
    · rfl
  rw [strictContentLength, hlengths]
  cases announced method bodySize <;> simp

omit hhost
include h

theorem checkFraming_received {o : HttpServerOptions}
    (hone : extra.countP (·.named "Host") ≤ 1)
    (hexpect : ∀ f ∈ extra, f.named "Expect" = true →
      iequalsAscii (trimAscii f.value) (bytes "100-continue") = true)
    (hdigits : bodySize < 10 ^ 12) (hbody : o.maxBodyBytes ≠ 0 → bodySize ≤ o.maxBodyBytes) :
    checkFraming o true (receivedFields method host port extra bodySize connection) =
      .ok (announced method bodySize) := by
  have hhost := (parts_of_check h).2.1
  have hte : hasTransferEncoding (receivedFields method host port extra bodySize connection) =
      false := by
    rw [hasTransferEncoding, any_eq_false]
    refine forall_receivedFields (fun f hf => ?_) (fun f hf _ => ?_) ?_
    · rw [named_leadFields hhost hconn hf (by decide)]
      exact false_ne_true
    · rw [named_trimmed, (caller_of_check h hf).2]
      exact false_ne_true
    · exact false_ne_true
  have hexp : ((receivedFields method host port extra bodySize connection).any fun h =>
      h.named "Expect" && !iequalsAscii h.value (bytes "100-continue")) = false := by
    rw [any_eq_false]
    refine forall_receivedFields (fun f hf => ?_) (fun f hf _ => ?_) ?_
    · rw [named_leadFields hhost hconn hf (by decide)]
      exact false_ne_true
    · rw [named_trimmed]
      cases hn : f.named "Expect" with
      | false => exact false_ne_true
      | true => simp [trimmed, hexpect f hf hn]
    · exact false_ne_true
  unfold checkFraming
  rw [if_neg (by simp [countP_host_receivedFields hone]),
    if_neg (by rw [hte]; exact false_ne_true),
    strictContentLength_received hhost hconn hdigits]
  dsimp only
  rw [announced_getD, if_neg fun h => absurd (hbody h.1) (not_le.2 h.2), hexp,
    if_neg Bool.false_ne_true]

omit h hconn

/-! ### The round trip -/

/-- **The head and the body stay within the server's limits**: those of the reader, of the options,
and the 12 digits of a Content-Length. -/
structure WithinLimits (o : HttpServerOptions) (maxLine : ℕ) (method host : Bytes) (port : ℕ)
    (path : Bytes) (extra : List HttpHeader) (body connection : Bytes) : Prop where
  requestLine : (method ++ [32] ++ path ++ bytes " HTTP/1.1\r\n").length ≤ maxLine
  fieldLine : ∀ f ∈ sentFields method host port extra body.length connection,
    (fieldLine f).length ≤ maxLine
  headBytes : o.maxHeaderBytes ≠ 0 →
    (buildRequestHead method host port path extra body.length connection).length ≤ o.maxHeaderBytes
  headCount : o.maxHeaderCount ≠ 0 →
    (sentFields method host port extra body.length connection).length ≤ o.maxHeaderCount
  bodyBytes : o.maxBodyBytes ≠ 0 → body.length ≤ o.maxBodyBytes
  digits : body.length < 10 ^ 12

theorem requestTarget_spec (hctl : hasTargetCtl path = false) (hfrag : 35 ∉ path) :
    requestTarget path ≠ [] ∧ hasTargetCtl (requestTarget path) = false ∧
      35 ∉ requestTarget path := by
  unfold requestTarget
  split
  · decide
  · next hne => exact ⟨hne, hctl, hfrag⟩

/-- The query is what follows the first question mark. -/
theorem splitQuery_spec (target : Bytes) : 63 ∉ (splitQuery target).1 ∧
      (target = (splitQuery target).1 ++ 63 :: (splitQuery target).2 ∨
        (target = (splitQuery target).1 ∧ (splitQuery target).2 = [])) := by
  unfold splitQuery
  cases hcut : cutAt 63 target with
  | none => exact ⟨cutAt_eq_none.1 hcut, .inr ⟨rfl, rfl⟩⟩
  | some =>
    obtain ⟨htarget, hnot⟩ := cutAt_eq_some.1 hcut
    exact ⟨hnot, .inl htarget⟩

/-- **The request round trip.** What the client lets through and serialises, the server parses back,
in any segmentation and whatever follows, and takes exactly those bytes. -/
theorem parseRequest_buildRequestHead (o : HttpServerOptions) (r : BufferedReader)
    (method host : Bytes) (port : ℕ) (path : Bytes) (extra : List HttpHeader)
    (body connection t : Bytes)
    (hcheck : checkRequestParts method host path extra = true) (hfrag : 35 ∉ path)
    (hconn : connection = bytes "close" ∨ connection = bytes "keep-alive")
    (hone : extra.countP (·.named "Host") ≤ 1)
    (hexpect : ∀ f ∈ extra, f.named "Expect" = true →
      iequalsAscii (trimAscii f.value) (bytes "100-continue") = true)
    (hlim : WithinLimits o r.maxLineBytes method host port (requestTarget path) extra body
      connection)
    (hacc : r.stream.accepts = true)
    (hp : r.pending = buildRequestHead method host port (requestTarget path) extra body.length
      connection ++ body ++ t) :
    ∃ req r', (parseRequest o).run r = .ok req r' ∧ r'.pending = t ∧ req.method = method ∧
      63 ∉ req.path ∧ (requestTarget path = req.path ++ 63 :: req.query ∨
        (requestTarget path = req.path ∧ req.query = [])) ∧
      req.headers = receivedFields method host port extra body.length connection ∧
      req.body = body := by
  obtain ⟨hmethod, hhost, hctl⟩ := parts_of_check hcheck
  obtain ⟨hne, htarget, hfrag'⟩ := requestTarget_spec hctl hfrag
  have htrim : (sentHead method host port (requestTarget path) extra body.length
    connection).fields.map
      trimmed = receivedFields method host port extra body.length connection := by
    rw [← trimmed_receivedFields hhost hconn, sentHead, map_map]
    exact map_congr_left fun f _ => trimmed_spaced f
  have hhead : tape.Reads (Admits r.maxLineBytes) (parseHead o)
      (sentHead method host port (requestTarget path) extra body.length connection).render
      ((sentHead method host port (requestTarget path) extra body.length connection).parsed
        (announced method body.length)) := by
    refine reads_parseHead rfl hmethod hne htarget hfrag' ?_ ?_ ?_ ?_ ?_ ?_
    · exact forall_mem_map.2 fun f hf => valid_spaced (valid_sentFields hcheck hconn f hf)
    · refine le_trans (le_of_eq ?_) hlim.requestLine
      simp [RawHead.requestLine, sentHead, bytes]
      omega
    · refine forall_mem_map.2 fun f hf => ?_
      rw [rawLine_spaced]
      exact hlim.fieldLine f hf
    · rw [← buildRequestHead_eq]
      exact hlim.headBytes
    · intro h
      rw [sentHead, length_map]
      exact hlim.headCount h
    · rw [htrim]
      exact checkFraming_received hcheck hconn hone hexpect hlim.digits hlim.bodyBytes
  rw [buildRequestHead_eq] at hp
  obtain ⟨r', hr, hp'⟩ := parseRequest_render hhead announced_getD hacc hp
  obtain ⟨hq, hsplit⟩ := splitQuery_spec (requestTarget path)
  exact ⟨_, r', hr, hp', rfl, hq, hsplit, htrim, rfl⟩

/-- A client asks before it sends its body. -/
def askingHeaders : List HttpHeader := [⟨bytes "Expect", bytes " 100-Continue"⟩]

/-- The request of such a client, two bytes of another behind it, in small portions. -/
def askingReader : BufferedReader where
  stream :=
    { rest := buildRequestHead (bytes "POST") (bytes "::1") 8080 (bytes "/a?b=c") askingHeaders 2
        (bytes "close") ++ bytes "hi" ++ bytes "GE"
      cuts := [3, 1, 40, 2] }
  capacity := 16

theorem parseRequest_buildRequestHead_asking :
    ∃ req r', (parseRequest {}).run askingReader = .ok req r' ∧ r'.pending = bytes "GE" ∧
      req.body = bytes "hi" := by
  obtain ⟨req, r', hr, hp, -, -, -, -, hbody⟩ :=
    parseRequest_buildRequestHead {} askingReader (bytes "POST") (bytes "::1") 8080
      (bytes "/a?b=c") askingHeaders (bytes "hi") (bytes "close") (bytes "GE")
      (by decide +kernel) (by decide +kernel) (.inl rfl) (by decide +kernel) (by decide +kernel)
      ⟨by decide +kernel, by decide +kernel, by decide +kernel, by decide +kernel,
        by decide +kernel, by decide +kernel⟩ rfl rfl
  exact ⟨req, r', hr, hp, hbody⟩

end Manwe.HttpExchange
