import Manwe.Soccer.HttpServer.Lines

/-!
# The grammar of accepted heads

`RawHead` is a request head as it stands on the wire, taken apart, and `RawHead.Accepted` says which
heads a server with given limits may act on: the framing is **unambiguous**. The lemmas are the
inversions of the pure checks of the parser.
-/

namespace Manwe.HttpServer

open Http

/-- A request head, with the field values as they were sent. -/
structure RawHead where
  method : Bytes
  target : Bytes
  version : Bytes
  fields : List HttpHeader
  deriving DecidableEq, Repr

/-- A header line as it is sent. -/
def rawLine (f : HttpHeader) : Bytes := f.name ++ 58 :: f.value ++ crlf

/-- The request line, without its CRLF. -/
def RawHead.requestLine (h : RawHead) : Bytes := h.method ++ 32 :: (h.target ++ 32 :: h.version)

/-- The bytes of a head. -/
def RawHead.render (h : RawHead) : Bytes :=
  h.requestLine ++ crlf ++ (h.fields.flatMap rawLine ++ crlf)

/-- **Heads with unambiguous framing**: `len` bytes of body follow. -/
structure RawHead.Accepted (o : HttpServerOptions) (h : RawHead) (len : ℕ) : Prop where
  method : isHttpToken h.method = true
  target_ne : h.target ≠ []
  /-- No space, control character or fragment in the target. -/
  target : ∀ c ∈ h.target, isTargetCtl c = false ∧ c ≠ 35
  version : h.version = bytes "HTTP/1.1" ∨ h.version = bytes "HTTP/1.0"
  name : ∀ f ∈ h.fields, isHttpToken f.name = true
  /-- No control character but tabs in a value: no bare CR, no bare LF, no NUL. -/
  value : ∀ f ∈ h.fields, ∀ c ∈ f.value, isFieldValueCtl c = false
  transferEncoding : ∀ f ∈ h.fields, f.named "Transfer-Encoding" = false
  /-- Every Content-Length is 1 to 12 digits, and they agree. -/
  contentLength : ∀ f ∈ h.fields, f.named "Content-Length" = true →
    isLength (trimAscii f.value) = true ∧ stoull (trimAscii f.value) = len
  noContentLength : (∀ f ∈ h.fields, f.named "Content-Length" = false) → len = 0
  host : h.version = bytes "HTTP/1.1" → h.fields.countP (·.named "Host") = 1
  headBytes : o.maxHeaderBytes ≠ 0 → h.render.length ≤ o.maxHeaderBytes
  headCount : o.maxHeaderCount ≠ 0 → h.fields.length ≤ o.maxHeaderCount
  bodyBytes : o.maxBodyBytes ≠ 0 → len ≤ o.maxBodyBytes

/-! ### The request line -/

variable {e : Fault}

/-- A protocol error is an exception. -/
theorem protocol_genuine (h : ∃ st what, e = .protocol st what) : e ≠ .spent ∧ e ≠ .waits := by
  obtain ⟨st, what, rfl⟩ := h
  exact ⟨nofun, nofun⟩

variable {line : Bytes}

theorem parseRequestLine_error (h : parseRequestLine line = .error e) :
    ∃ st what, e = .protocol st what := by
  unfold parseRequestLine malformedRequestLine at h
  (repeat' split at h) <;> cases h <;> exact ⟨_, _, rfl⟩

variable {http11 : Bool} {method target : Bytes}

/-- A request line that parses is made of three parts, each of its kind. -/
theorem parseRequestLine_ok (h : parseRequestLine line = .ok (method, target, http11)) :
    ∃ version, line = method ++ 32 :: (target ++ 32 :: version) ∧ isHttpToken method = true ∧
      target ≠ [] ∧ (∀ c ∈ target, isTargetCtl c = false ∧ c ≠ 35) ∧
      (version = bytes "HTTP/1.1" ∨ version = bytes "HTTP/1.0") ∧
      http11 = (version == bytes "HTTP/1.1") := by
  unfold parseRequestLine at h
  split at h
  · cases h
  next m rest hcut =>
  split at h
  · cases h
  next t version hcut' =>
  split_ifs at h with hparts _ hversion
  cases h
  simp only [Bool.or_eq_true, not_or, Bool.not_eq_true, Bool.not_eq_false',
    List.isEmpty_eq_false_iff, List.contains_eq_mem, decide_eq_false_iff_not] at hparts
  obtain ⟨⟨⟨hm, hne⟩, hctl⟩, hfrag⟩ := hparts
  refine ⟨version, ?_, hm, hne, fun c hc => ⟨hasTargetCtl_eq_false.1 hctl c hc, ?_⟩, ?_, rfl⟩
  · rw [(cutAt_eq_some.1 hcut).1, (cutAt_eq_some.1 hcut').1]
  · rintro rfl
    exact hfrag hc
  · by_contra hv
    exact hversion (not_or.1 hv)

/-- Three parts of their kinds parse. -/
theorem parseRequestLine_eq (hm : isHttpToken method = true)
    (hne : target ≠ []) (hctl : hasTargetCtl target = false) (hfrag : 35 ∉ target) :
    parseRequestLine (method ++ 32 :: (target ++ 32 :: bytes "HTTP/1.1")) =
      .ok (method, target, true) := by
  have hsp : 32 ∉ method := space_not_mem_target (target_of_token hm)
  have hbad : ¬ (!isHttpToken method || target.isEmpty || hasTargetCtl target ||
      target.contains 35) = true := by
    simp [hm, hne, hctl, hfrag]
  unfold parseRequestLine
  rw [cutAt_append hsp]
  dsimp only
  rw [cutAt_append (space_not_mem_target hctl)]
  dsimp only
  rw [if_neg hbad, if_neg (by decide), if_neg (by simp)]
  rfl

/-! ### Header fields -/

variable {o : HttpServerOptions} {count : ℕ}

theorem parseField_error (h : parseField o count line = .error e) :
    ∃ st what, e = .protocol st what := by
  unfold parseField at h
  (repeat' split at h) <;> cases h <;> exact ⟨_, _, rfl⟩

/-- A header line that parses is a token, a colon and a value. -/
theorem parseField_ok {h : HttpHeader} (hp : parseField o count line = .ok h) :
    ∃ f, line = f.name ++ 58 :: f.value ∧ isHttpToken f.name = true ∧
      hasFieldValueCtl f.value = false ∧ h = trimmed f ∧
      (o.maxHeaderCount ≠ 0 → count < o.maxHeaderCount) := by
  unfold parseField at hp
  split at hp
  · cases hp
  next name value hcut =>
  split_ifs at hp with hname hcount hctl
  cases hp
  refine ⟨⟨name, value⟩, (cutAt_eq_some.1 hcut).1, by simpa using hname, ?_, rfl, fun hne => ?_⟩
  · rwa [hasFieldValueCtl_trimAscii, Bool.not_eq_true] at hctl
  · exact not_le.1 fun hle => hcount ⟨hne, hle⟩

/-- A token, a colon and a value parse. -/
theorem parseField_eq {f : HttpHeader} (hname : isHttpToken f.name = true)
    (hvalue : hasFieldValueCtl f.value = false)
    (hcount : o.maxHeaderCount ≠ 0 → count < o.maxHeaderCount) :
    parseField o count (f.name ++ 58 :: f.value) = .ok (trimmed f) := by
  unfold parseField
  rw [cutAt_append (colon_not_mem_token hname)]
  dsimp only
  rw [if_neg (by simp [hname]), if_neg fun h => absurd (hcount h.1) (not_lt.2 h.2),
    if_neg (by simp [hasFieldValueCtl_trimAscii, hvalue])]
  rfl

/-! ### Framing -/

variable {headers : List HttpHeader}

theorem checkFraming_error (h : checkFraming o http11 headers = .error e) :
    ∃ st what, e = .protocol st what := by
  unfold checkFraming at h
  (repeat' split at h) <;> cases h <;> exact ⟨_, _, rfl⟩

/-- What the checks after the blank line establish. -/
theorem checkFraming_ok {len : Option ℕ} (h : checkFraming o http11 headers = .ok len) :
    (http11 = true → headers.countP (·.named "Host") = 1) ∧
    (∀ f ∈ headers, f.named "Transfer-Encoding" = false) ∧
    contentLengths none headers = .ok len ∧
    (o.maxBodyBytes ≠ 0 → len.getD 0 ≤ o.maxBodyBytes) := by
  unfold checkFraming at h
  split at h
  · cases h
  next hhost =>
  split at h
  · split at h <;> cases h
  next hte =>
  split at h
  · cases h
  next n hlen =>
  split_ifs at h with hbody
  cases h
  refine ⟨fun h11 => ?_, fun f hf => ?_, (strictContentLength_ok hlen).1, fun hne => ?_⟩
  · by_contra hne
    exact hhost ⟨h11, hne⟩
  · by_contra hf'
    exact hte (List.any_eq_true.2 ⟨f, hf, by simpa using hf'⟩)
  · exact not_lt.1 fun hlt => hbody ⟨hne, hlt⟩

end Manwe.HttpServer
