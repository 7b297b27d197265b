import Manwe.Soccer.HttpClient.Lines
import Manwe.Soccer.HttpServer

/-!
# The response round trip

What `HttpServer::writeResponse` writes, `HttpClient::readResponse` reads as **exactly one
response**, in any segmentation and whatever follows: a handler cannot split a response or add a
header to it through its reason, its header names, its values or its body
(`readResponse_writeResponse`).
-/

namespace Manwe.HttpExchange

open Http HttpClient HttpServer BufferedReader List

variable {resp : HttpResponse} {head : Bool} {bound : ℕ}

/-! ### What is sent -/

/-- The handler's fields, without those the server manages. -/
def handlerFields (resp : HttpResponse) : List HttpHeader :=
  resp.headers.filter fun h => !isServerManagedResponseHeader h

/-- The Content-Length of a response, at most one. -/
def framingFields (resp : HttpResponse) (head : Bool) : List HttpHeader :=
  if sentLength resp head = [] then [] else [⟨bytes "Content-Length", sentLength resp head⟩]

/-- The field that ends every head. -/
def closeField : HttpHeader := ⟨bytes "Connection", bytes "close"⟩

/-- The fields of a response, in the order in which they are sent. -/
def answerFields (resp : HttpResponse) (head : Bool) : List HttpHeader :=
  handlerFields resp ++ framingFields resp head ++ [closeField]

theorem responseHead_eq : responseHead resp head =
    statusLine (sentStatus resp) (sentReason resp) ++ crlf ++
      ((answerFields resp head).flatMap fieldLine ++ crlf) := by
  have hclose : bytes "Connection: close\r\n\r\n" = fieldLine closeField ++ crlf := by decide
  have hlength : bytes "Content-Length: " ++ sentLength resp head ++ crlf =
      fieldLine ⟨bytes "Content-Length", sentLength resp head⟩ := rfl
  rw [responseHead, hclose, hlength, answerFields, handlerFields, framingFields, statusLine]
  split_ifs <;> simp

/-! ### The fields are valid -/

variable {f : HttpHeader} {s bs : Bytes}

theorem digits_of_isLength (h : isLength s = true) : ∀ c ∈ s, isDigit c = true := by
  simp only [isLength, Bool.and_eq_true, all_eq_true] at h
  exact h.2

theorem digits_sentLength : ∀ c ∈ sentLength resp head, isDigit c = true := by
  unfold sentLength framedContentLength
  split_ifs with h₁ h₂ h₃ h₄
  · exact fun c => isDigit_decimal
  · exact fun c hc => absurd hc not_mem_nil
  · exact digits_of_isLength h₃
  · exact fun c hc => absurd hc not_mem_nil
  · exact fun c => isDigit_decimal

theorem target_of_digits (h : ∀ c ∈ s, isDigit c = true) : hasTargetCtl s = false :=
  hasTargetCtl_eq_false.2 fun c hc => (of_tokenChar c (tokenChar_of_digit (h c hc))).1

theorem mem_framingFields (hf : f ∈ framingFields resp head) :
    f = ⟨bytes "Content-Length", sentLength resp head⟩ := by
  unfold framingFields at hf
  split at hf
  · cases hf
  · exact mem_singleton.1 hf

theorem mem_handlerFields :
    f ∈ handlerFields resp ↔ f ∈ resp.headers ∧ isServerManagedResponseHeader f = false := by
  simp [handlerFields]

theorem safe_parts (h : unsafeHead resp = false) :
    hasFieldValueCtl resp.reason = false ∧ ∀ f ∈ resp.headers, ValidField f := by
  simp only [unsafeHead, Bool.or_eq_false_iff, any_eq_false, Bool.or_eq_true,
    Bool.not_eq_true', not_or, Bool.not_eq_false, Bool.not_eq_true] at h
  exact h

theorem valid_answerFields (h : unsafeHead resp = false) :
    ∀ f ∈ answerFields resp head, ValidField f := by
  intro f hf
  simp only [answerFields, mem_append, mem_singleton] at hf
  rcases hf with (hf | hf) | rfl
  · exact (safe_parts h).2 f (mem_handlerFields.1 hf).1
  · rw [mem_framingFields hf]
    exact ⟨(by decide : isHttpToken (bytes "Content-Length") = true),
      value_of_target (target_of_digits digits_sentLength)⟩
  · exact ⟨by decide, by decide⟩

theorem value_reasonPhrase (status : ℕ) :
    hasFieldValueCtl (bytes (reasonPhrase status)) = false := by
  unfold reasonPhrase
  split <;> decide

theorem value_sentReason (h : unsafeHead resp = false) :
    hasFieldValueCtl (sentReason resp) = false := by
  unfold sentReason
  split
  · exact value_reasonPhrase _
  · exact (safe_parts h).1

/-- The fields of the head the client has read. -/
def seenFields (resp : HttpResponse) (head : Bool) : List HttpHeader :=
  (handlerFields resp).map trimmed ++ framingFields resp head ++ [closeField]

/-- The handler's values are trimmed. -/
theorem trimmed_answerFields : (answerFields resp head).map trimmed = seenFields resp head := by
  have hframing : (framingFields resp head).map trimmed = framingFields resp head := by
    refine (map_congr_left fun f hf => ?_).trans (map_id _)
    rw [mem_framingFields hf, trimmed, trimAscii_target (target_of_digits digits_sentLength)]
    rfl
  rw [answerFields, map_append, map_append, hframing]
  rfl

/-! ### How the client frames it -/

/-- What is managed by the server is under none of the handler's names. -/
theorem named_handlerFields (hf : f ∈ (handlerFields resp).map trimmed) :
    f.named "Content-Length" = false ∧ f.named "Connection" = false ∧
      f.named "Transfer-Encoding" = false := by
  obtain ⟨g, hg, rfl⟩ := mem_map.1 hf
  have hm := (mem_handlerFields.1 hg).2
  simp only [isServerManagedResponseHeader, Bool.or_eq_false_iff] at hm
  exact ⟨hm.1.1.1.1.1, hm.1.1.1.1.2, hm.1.1.1.2⟩

theorem named_framingFields {name : String} (hf : f ∈ framingFields resp head)
    (hne : (bytes "Content-Length").map tolower ≠ (bytes name).map tolower) :
    f.named name = false := by
  rw [mem_framingFields hf]
  exact named_of_name rfl hne

theorem hasTransferEncoding_seen : hasTransferEncoding (seenFields resp head) = false := by
  rw [hasTransferEncoding, any_eq_false]
  intro f hf
  rw [Bool.not_eq_true]
  simp only [seenFields, mem_append, mem_singleton] at hf
  rcases hf with (hf | hf) | rfl
  · exact (named_handlerFields hf).2.2
  · exact named_framingFields hf (by decide)
  · decide

/-- The one Connection field closes the connection. -/
theorem keepAlive_seen {h : Head} (hh : h.resp.headers = seenFields resp head) :
    keepAlive h = false := by
  have hfold : ∀ l : List HttpHeader, (∀ f ∈ l, f.named "Connection" = false) →
      l.foldl (fun tokens f => if f.named "Connection" then
        (if tokens = [] then tokens else tokens ++ [44]) ++ f.value else tokens) [] = [] := by
    intro l
    induction l with
    | nil => exact fun _ => rfl
    | cons f fs ih =>
      intro hl
      obtain ⟨hf, hfs⟩ := forall_mem_cons.1 hl
      rw [foldl_cons, if_neg (by simp [hf])]
      exact ih hfs
  have htokens : connectionTokens h.resp.headers = bytes "close" := by
    rw [connectionTokens, hh, seenFields, foldl_append, hfold]
    · decide
    · intro f hf
      rcases mem_append.1 hf with hf | hf
      · exact (named_handlerFields hf).2.1
      · exact named_framingFields hf (by decide)
  have hclose : headerListHasToken (bytes "close") "close" = true := by decide
  rw [keepAlive, htokens, hclose]
  rfl

theorem strictContentLength_seen (hsend : sendBody (sentStatus resp) head = true)
    (hbody : resp.body.length ≤ maxBodyBytes) :
    strictContentLength (seenFields resp head) maxBodyBytes = .ok (some resp.body.length) := by
  have hlen : sentLength resp head = decimal resp.body.length := by
    rw [sentLength, framedContentLength, if_pos hsend]
  have hframing : framingFields resp head =
      [⟨bytes "Content-Length", decimal resp.body.length⟩] := by
    rw [framingFields, hlen, if_neg (decimal_ne_nil _)]
  have hdigits : resp.body.length < 10 ^ 12 := lt_of_le_of_lt hbody (by decide)
  have hnamed : HttpHeader.named ⟨bytes "Content-Length", decimal resp.body.length⟩
      "Content-Length" = true := by
    simp [HttpHeader.named, iequalsAscii]
  have hlengths : contentLengths none (seenFields resp head) = .ok (some resp.body.length) := by
    rw [seenFields, hframing, append_assoc,
      contentLengths_append fun f hf => (named_handlerFields hf).1]
    have hclose : closeField.named "Content-Length" = false := by decide
    simp only [contentLengths, cons_append, nil_append, hnamed,
      isLength_decimal hdigits, stoull_decimal, if_true, hclose, if_false, Bool.false_eq_true]
  rw [strictContentLength, hlengths]
  exact if_neg fun h => absurd hbody (not_le.2 h.2)

/-! ### The round trip -/

/-- What `writeResponse` writes. -/
def answer (resp : HttpResponse) (head : Bool) : Bytes :=
  responseHead resp head ++ if sendBody (sentStatus resp) head then resp.body else []

/-- What the client is to see: one response, closed after it. -/
def seen (resp : HttpResponse) (head : Bool) : HttpResponse where
  status := resp.status
  reason := trimAscii (if resp.reason = [] then bytes (reasonPhrase resp.status) else resp.reason)
  headers := seenFields resp head
  body := if head ∨ resp.status = 204 ∨ resp.status = 304 then [] else resp.body

theorem sendBody_eq (hlo : 200 ≤ resp.status) (hhi : resp.status ≤ 599) :
    sendBody (sentStatus resp) head = true ↔
      ¬ (head = true ∨ resp.status = 204 ∨ resp.status = 304) := by
  have hstatus : sentStatus resp = resp.status := if_pos ⟨by omega, hhi⟩
  have hno : ¬ resp.status < 200 := not_lt.2 hlo
  rw [hstatus]
  simp [sendBody, statusHasNoBody, hno, not_or]

theorem run_write_of {s : TcpStream} (h : s.accepts = true) :
    (TcpStream.write bs).run s = .ok () (s.push bs) := if_pos h

theorem run_write_of_not {s : TcpStream} (h : s.accepts = false) :
    (TcpStream.write bs).run s = .error (.socket "send") s := if_neg (by simp [h])

theorem writeResponse_outcome (resp : HttpResponse) (method : Bytes) (s : TcpStream) :
    (∃ e, (writeResponse resp method).run s = .error e s) ∨
      (unsafeHead resp = false ∧ (writeResponse resp method).run s =
        .ok () (s.push (answer resp (method == bytes "HEAD")))) := by
  unfold writeResponse
  by_cases hsafe : unsafeHead resp = true
  · rw [if_pos hsafe]
    exact .inl ⟨_, rfl⟩
  rw [if_neg hsafe, EStateM.run_bind]
  generalize (method == bytes "HEAD") = head
  cases hacc : s.accepts with
  | false => exact .inl ⟨.socket "send", by rw [run_write_of_not hacc]⟩
  | true =>
    refine .inr ⟨by simpa using hsafe, ?_⟩
    rw [run_write_of hacc]
    dsimp only
    split
    · next hsend =>
      simp only [Bool.and_eq_true] at hsend
      rw [run_write_of (s := s.push _) hacc, answer, if_pos hsend.1]
      simp [TcpStream.push]
    · next hsend =>
      have hnil : (if sendBody (sentStatus resp) head then resp.body else []) = [] := by
        split
        · next h => simpa [h] using hsend
        · rfl
      rw [answer, hnil, append_nil]
      rfl

/-- The head as the client has read it. -/
def seenHead (resp : HttpResponse) (head : Bool) : Head where
  resp := { seen resp head with body := [] }
  http10 := false
  headerBytes := (responseHead resp head).length
  consumed := (responseHead resp head).length

/-- **The client reads back one response**, whatever follows. -/
theorem reads_readResponse (hlo : 200 ≤ resp.status) (hhi : resp.status ≤ 599)
    (hsafe : unsafeHead resp = false) (hhead : (responseHead resp head).length ≤ maxHeaderBytes)
    (hbody : resp.body.length ≤ maxBodyBytes) (hbound : maxHeaderBytes ≤ bound) :
    tape.Reads (Admits bound) (readResponse head) (answer resp head)
      ⟨seen resp head, false, (answer resp head).length⟩ := by
  have hstatus : sentStatus resp = resp.status := if_pos ⟨by omega, hhi⟩
  have hreason : trimAscii (sentReason resp) = (seen resp head).reason := by
    rw [seen, sentReason, hstatus]
  have hread : tape.Reads (Admits bound) (readHead 0 0) (responseHead resp head)
      (seenHead resp head) := by
    have h : tape.Reads (Admits bound) (readHead 0 0)
        (statusLine (sentStatus resp) (sentReason resp) ++ crlf ++
          ((answerFields resp head).flatMap fieldLine ++ crlf)) _ :=
      reads_readHead (by omega) (by omega) (value_sentReason hsafe) (valid_answerFields hsafe)
        (by rw [← responseHead_eq]; exact hhead) hbound
    rwa [← responseHead_eq, trimmed_answerFields, hstatus, hreason] at h
  have hinterim : interim (seenHead resp head).resp.status = false := by
    have hno : ¬ resp.status < 200 := not_lt.2 hlo
    simp [seenHead, seen, interim, hno]
  have hfinal : tape.Reads (Admits bound) (readFinalHead maxInterimResponses 0 0)
      (responseHead resp head) (seenHead resp head) := by
    refine hread.bind_last (admits_stable bound) ?_
    rw [hinterim, if_neg Bool.false_ne_true]
    exact .pure
  have halive : keepAlive (seenHead resp head) = false := keepAlive_seen rfl
  have hte : hasTransferEncoding (seenHead resp head).resp.headers = false :=
    hasTransferEncoding_seen
  refine hfinal.bind (admits_stable bound) ?_
  rw [if_neg (by simp only [seenHead, seen]; omega), halive]
  by_cases hno : head = true ∨ resp.status = 204 ∨ resp.status = 304
  · have hsend : ¬ sendBody (sentStatus resp) head = true := fun h => (sendBody_eq hlo hhi).1 h hno
    rw [if_pos (by simpa [seenHead, seen, or_assoc] using hno), answer, if_neg hsend, append_nil]
    have hseen : (seenHead resp head).resp = seen resp head := by simp [seenHead, seen, hno]
    rw [hseen]
    exact .pure
  · have hsend : sendBody (sentStatus resp) head = true := (sendBody_eq hlo hhi).2 hno
    rw [if_neg (by simpa [seenHead, seen, or_assoc] using hno), hte, if_neg Bool.false_ne_true,
      answer, if_pos hsend, readPlainBody]
    have hlen : strictContentLength (seenHead resp head).resp.headers maxBodyBytes =
        .ok (some resp.body.length) := strictContentLength_seen hsend hbody
    rw [hlen]
    refine (reads_readExact (hbody.trans (by decide))).bind_last (admits_stable bound) ?_
    rw [if_neg (not_not.2 rfl), halive]
    have hseen : { (seenHead resp head).resp with body := resp.body } = seen resp head := by
      simp [seenHead, seen, hno]
    rw [hseen, length_append]
    exact .pure

/-- **The response round trip; no response splitting.** For every response a handler may return,
`writeResponse` throws before it has written a byte, or what it writes is read back as exactly one
response: the same status, the trimmed reason, the handler's headers without the managed ones, at
most one Content-Length, one Connection, and the body. -/
theorem readResponse_writeResponse (resp : HttpResponse) (method : Bytes) (s : TcpStream)
    (hlo : 200 ≤ resp.status) (hhi : resp.status ≤ 599) :
    (∃ e, (writeResponse resp method).run s = .error e s) ∨
    ∃ out, (writeResponse resp method).run s = .ok () (s.push out) ∧
      ∀ (r : BufferedReader) (t : Bytes), r.maxLineBytes = 64 * 1024 → r.pending = out ++ t →
        (responseHead resp (method == bytes "HEAD")).length ≤ maxHeaderBytes →
        resp.body.length ≤ maxBodyBytes →
        ∃ r', (readResponse (method == bytes "HEAD")).run r =
            .ok ⟨seen resp (method == bytes "HEAD"), false, out.length⟩ r' ∧ r'.pending = t := by
  obtain ⟨e, he⟩ | ⟨hsafe, hr⟩ := writeResponse_outcome resp method s
  · exact .inl ⟨e, he⟩
  · refine .inr ⟨_, hr, fun r t hbound hp hhead hbody => ?_⟩
    obtain ⟨r', hr', hm⟩ := reads_readResponse hlo hhi hsafe hhead hbody le_rfl r t hbound hp
    exact ⟨r', hr', append_cancel_left (hm.pending.symm.trans hp)⟩

/-- A handler that pads its values and states a length of its own. -/
def paddedResponse : HttpResponse where
  status := 404
  reason := bytes "Not here "
  headers := [⟨bytes "X-Id", bytes " 7 "⟩, ⟨bytes "content-length", bytes "99"⟩]
  body := bytes "gone"

/-- Its answer, one byte of another behind it, in small portions. -/
def paddedReader : BufferedReader where
  stream := { rest := answer paddedResponse false ++ bytes "H", cuts := [9, 1, 1, 30] }

theorem readResponse_writeResponse_padded : ∃ r', (readResponse false).run paddedReader =
        .ok ⟨seen paddedResponse false, false, (answer paddedResponse false).length⟩ r' ∧
      r'.pending = bytes "H" := by
  have hrun : (writeResponse paddedResponse (bytes "GET")).run { rest := [] } =
      .ok () (TcpStream.push { rest := [] } (answer paddedResponse false)) := rfl
  obtain ⟨e, he⟩ | ⟨out, hr, hread⟩ := readResponse_writeResponse paddedResponse (bytes "GET")
    { rest := [] } (by decide) (by decide)
  · cases he
  · have hout : answer paddedResponse false = out :=
      congrArg TcpStream.sent (EStateM.Result.ok.inj hr).2
    rw [hout]
    exact hread paddedReader (bytes "H") rfl (by rw [← hout]; rfl) (by decide +kernel)
      (by decide +kernel)

end Manwe.HttpExchange
