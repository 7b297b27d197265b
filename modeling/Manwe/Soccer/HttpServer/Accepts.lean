import Manwe.Soccer.Http.Body
import Manwe.Soccer.HttpServer.Grammar

/-!
# Only unambiguous requests are accepted

The loop over the header lines and the whole head of `parseRequest`, for every byte stream, every
segmentation and all limits: the parser returns only what stands on the wire as an accepted head
(`RawHead.Accepted`), and otherwise gives up inside the head (`Refusal`), before a byte of a body is
taken and before anything is written. `parseRequest_framing` is the statement for whole requests.
-/

namespace Manwe.HttpServer

open Http BufferedReader List EStateM Tape

variable {o : HttpServerOptions} {r : BufferedReader}

/-! ### The header lines -/

/-- The outcomes of the loop over the header lines. -/
inductive Fields (o : HttpServerOptions) (headers : List HttpHeader) (headerBytes : ℕ)
    (r : BufferedReader) : Result Fault BufferedReader (List HttpHeader) → Prop
  | read {fields r'} (hm : Moves r (fields.flatMap rawLine ++ crlf) r')
      (hv : ∀ f ∈ fields, ValidField f)
      (hbytes : o.maxHeaderBytes ≠ 0 →
        headerBytes + (fields.flatMap rawLine ++ crlf).length ≤ o.maxHeaderBytes)
      (hcount : o.maxHeaderCount ≠ 0 → fields = [] ∨
        headers.length + fields.length ≤ o.maxHeaderCount) :
      Fields o headers headerBytes r (.ok (headers ++ fields.map trimmed) r')
  | refused {e r'} (h : Refusal r e r') : Fields o headers headerBytes r (.error e r')

variable {headerBytes : ℕ} {headers : List HttpHeader} {h : RequestHead}

/-- One more line in front. -/
theorem Fields.cons {f : HttpHeader} {r₁ : BufferedReader}
    {res : Result Fault BufferedReader (List HttpHeader)} (hm : Moves r (rawLine f) r₁)
    (hv : ValidField f) (hcount : o.maxHeaderCount ≠ 0 → headers.length < o.maxHeaderCount)
    (h : Fields o (headers ++ [trimmed f]) (headerBytes + (rawLine f).length) r₁ res) :
    Fields o headers headerBytes r res := by
  have hctl := ctl_of_validField hv
  cases h with
  | @read fields r' hm' hv' hbytes hcount' =>
    have hread : Fields o headers headerBytes r (.ok (headers ++ (f :: fields).map trimmed) r') :=
      by
      refine .read ?_ (forall_mem_cons.2 ⟨hv, hv'⟩) (fun hne => ?_) (fun hne => .inr ?_)
      · rw [flatMap_cons, append_assoc]
        exact hm.trans hm'
      · rw [flatMap_cons, append_assoc, length_append]
        omega
      · have h₁ := hcount hne
        rw [length_cons]
        rcases hcount' hne with rfl | h₂
        · exact h₁
        · rw [length_append, length_singleton] at h₂
          omega
    rwa [map_cons, append_cons] at hread
  | refused h => exact .refused (h.after hm hctl (by simp))

theorem headTooLarge_eq_false (h : ¬ headTooLarge o headerBytes = true)
    (hne : o.maxHeaderBytes ≠ 0) :
    headerBytes ≤ o.maxHeaderBytes := by
  by_contra hlt
  exact h (by simp [headTooLarge, hne, not_le.1 hlt])

theorem readFields_outcome {fuel headerBytes : ℕ} (hf : r.pending.length < fuel) :
    Fields o headers headerBytes r ((readFields o fuel headers headerBytes).run r) := by
  induction fuel generalizing r headers headerBytes with
  | zero => omega
  | succ fuel ih =>
    rw [readFields, run_bind]
    have hout := readHeadLine_outcome false headerBytes r
    generalize (readHeadLine false headerBytes).run r = res at hout ⊢
    cases hout with
    | refused h => exact .refused h
    | eof hm =>
      dsimp only
      split <;> exact .refused (.thrown hm not_mem_nil nofun nofun)
    | @line l r₁ hm hctl =>
      dsimp only
      split
      · exact .refused (.thrown_line hm hctl nofun nofun)
      · next hlarge =>
        have hbytes := headTooLarge_eq_false hlarge
        cases l with
        | nil =>
          have hread : Fields o headers headerBytes r
              (.ok (headers ++ ([] : List HttpHeader).map trimmed) r₁) :=
            .read hm (fun _ h => absurd h not_mem_nil) hbytes (fun _ => .inl rfl)
          rwa [map_nil, append_nil] at hread
        | cons x l =>
          rw [run_bind, run_ofExcept]
          cases hp : parseField o headers.length (x :: l) with
          | error =>
            obtain ⟨h₁, h₂⟩ := protocol_genuine (parseField_error hp)
            exact .refused (.thrown_line hm hctl h₁ h₂)
          | ok =>
            obtain ⟨f, hline, hname, hvalue, rfl, hcount⟩ := parseField_ok hp
            have hraw : x :: l ++ crlf = rawLine f := by rw [hline, rawLine]
            have hlen : (x :: l).length + 2 = (rawLine f).length := by
              rw [← hraw, length_append]
              rfl
            rw [hraw] at hm
            rw [hlen]
            refine .cons hm ⟨hname, hvalue⟩ hcount (ih ?_)
            have := congrArg length hm.pending
            rw [length_append] at this
            omega

/-! ### The head -/

/-- What the parser makes of a raw head. -/
def RawHead.parsed (h : RawHead) (len : Option ℕ) : RequestHead :=
  { method := h.method, target := h.target, http11 := h.version == bytes "HTTP/1.1"
    headers := h.fields.map trimmed, len }

/-- The outcomes of `parseHead`. -/
inductive Heads (o : HttpServerOptions) (r : BufferedReader) :
    Result Fault BufferedReader RequestHead → Prop
  | read {h : RawHead} {len : Option ℕ} {r'} (hm : Moves r h.render r')
      (ha : h.Accepted o (len.getD 0)) : Heads o r (.ok (h.parsed len) r')
  | refused {e r'} (h : Refusal r e r') : Heads o r (.error e r')

theorem withinHead_fields {fields : List HttpHeader} (hv : ∀ f ∈ fields, ValidField f) :
    WithinHead (fields.flatMap rawLine ++ crlf) := by
  induction fields with
  | nil => exact withinHead_of_dropLast (by decide)
  | cons f fs ih =>
    obtain ⟨hf, hfs⟩ := forall_mem_cons.1 hv
    rw [flatMap_cons, append_assoc, rawLine]
    exact (ih hfs).cons (ctl_of_validField hf) (by simp)

/-- The checks of the parser are those of the grammar. -/
theorem accepted_of_checks {h : RawHead} {len : Option ℕ} (hmethod : isHttpToken h.method = true)
    (hne : h.target ≠ []) (htarget : ∀ c ∈ h.target, isTargetCtl c = false ∧ c ≠ 35)
    (hversion : h.version = bytes "HTTP/1.1" ∨ h.version = bytes "HTTP/1.0")
    (hv : ∀ f ∈ h.fields, ValidField f)
    (hbytes : o.maxHeaderBytes ≠ 0 → h.render.length ≤ o.maxHeaderBytes)
    (hcount : o.maxHeaderCount ≠ 0 → h.fields.length ≤ o.maxHeaderCount)
    (hcheck : checkFraming o (h.version == bytes "HTTP/1.1") (h.fields.map trimmed) = .ok len) :
    h.Accepted o (len.getD 0) := by
  obtain ⟨hhost, hte, hcl, hbody⟩ := checkFraming_ok hcheck
  obtain ⟨hlen, hnone, -⟩ := contentLengths_ok hcl
  simp only [forall_mem_map, named_trimmed] at hte hlen hnone
  refine ⟨hmethod, hne, htarget, hversion, fun f hf => (hv f hf).1,
    fun f hf => hasFieldValueCtl_eq_false.1 (hv f hf).2, hte, fun f hf hn => ?_, fun hn => ?_,
    fun h11 => ?_, hbytes, hcount, hbody⟩
  · obtain ⟨hl, rfl⟩ := hlen f hf hn
    exact ⟨hl, rfl⟩
  · rw [hnone hn]
    rfl
  · rw [← countP_trimmed]
    exact hhost (by simp [h11])

theorem parseHead_outcome (o : HttpServerOptions) (r : BufferedReader) :
    Heads o r ((parseHead o).run r) := by
  rw [parseHead, run_bind]
  have hout := readHeadLine_outcome true 0 r
  generalize (readHeadLine true 0).run r = res at hout ⊢
  cases hout with
  | refused h => exact .refused h
  | eof hm => exact .refused (.thrown hm not_mem_nil nofun nofun)
  | @line l r₁ hm hctl =>
    dsimp only
    rw [run_bind, run_ofExcept]
    cases hp : parseRequestLine l with
    | error =>
      obtain ⟨h₁, h₂⟩ := protocol_genuine (parseRequestLine_error hp)
      exact .refused (.thrown_line hm hctl h₁ h₂)
    | ok p =>
      obtain ⟨method, target, http11⟩ := p
      obtain ⟨version, hline, hmethod, hne, htarget, hversion, rfl⟩ := parseRequestLine_ok hp
      dsimp only
      split
      · exact .refused (.thrown_line hm hctl nofun nofun)
      · have hl : l ≠ [] := by rw [hline]; simp
        rw [run_bind, run_get]
        dsimp only
        rw [run_bind]
        have hfields : Fields o [] (0 + (l.length + 2)) r₁ _ :=
          readFields_outcome (Nat.lt_succ_self r₁.pending.length)
        generalize (readFields o (r₁.pending.length + 1) [] (0 + (l.length + 2))).run r₁ = res
          at hfields ⊢
        cases hfields with
        | refused h => exact .refused (h.after hm hctl hl)
        | @read fields r₂ hm' hv hbytes hcount =>
          dsimp only
          rw [nil_append, run_bind, run_ofExcept]
          let h : RawHead := ⟨method, target, version, fields⟩
          cases hc : checkFraming o (version == bytes "HTTP/1.1") (fields.map trimmed) with
          | error e =>
            obtain ⟨h₁, h₂⟩ := protocol_genuine (checkFraming_error hc)
            have href : Refusal r₁ e r₂ :=
              ⟨⟨_, hm', withinHead_fields hv⟩, h₁, fun he => absurd he h₂⟩
            exact .refused (href.after hm hctl hl)
          | ok len =>
            have hrender : h.render = l ++ crlf ++ (fields.flatMap rawLine ++ crlf) := by
              rw [hline]
              rfl
            have hacc : h.Accepted o (len.getD 0) := by
              refine accepted_of_checks hmethod hne htarget hversion hv (fun hne => ?_)
                (fun hne => ?_) hc
              · have := hbytes hne
                rw [hrender, length_append, length_append]
                simp only [crlf, length_cons, length_nil] at this ⊢
                omega
              · rcases hcount hne with rfl | hle
                · exact Nat.zero_le _
                · simpa using hle
            exact .read (by rw [hrender]; exact hm.trans hm') hacc

/-! ### Whole requests -/

theorem sendContinue_ok {r r' : BufferedReader} (hr : (sendContinue h).run r = .ok () r') :
    r'.pending = r.pending := by
  unfold sendContinue at hr
  split at hr
  · obtain ⟨-, rfl⟩ := write_ok hr
    rfl
  · cases hr
    rfl

/-- The body is what follows, as long as announced. -/
theorem parseBody_ok {r r' : BufferedReader} {req : HttpRequest}
    (hr : (parseBody h).run r = .ok req r') :
    ∃ body, body.length = h.len.getD 0 ∧ r.pending = body ++ r'.pending ∧
      req = h.request body := by
  obtain ⟨⟨⟩, r₁, hr₁, hr⟩ := run_bind_ok.1 hr
  obtain ⟨body, r₂, hr₂, hr⟩ := run_bind_ok.1 hr
  cases hr
  obtain ⟨l, hm, -, rfl, hlen⟩ :=
    local_readBody (P := fun _ => True) le_rfl r₁ body r' trivial hr₂ trivial
  exact ⟨body, hlen, (sendContinue_ok hr₁).symm.trans hm.pending, rfl⟩

/-- **Only unambiguous requests are accepted.** For every stream of bytes in every segmentation and
all limits: what `parseRequest` returns stood on the wire as an accepted head and exactly the body
it announces; and where no accepted head stands at the front of the stream the parser throws (or is
still waiting for the end of the head), with no byte taken beyond the empty line and nothing
written. -/
theorem parseRequest_framing (o : HttpServerOptions) (r : BufferedReader) :
    (∀ req r', (parseRequest o).run r = .ok req r' →
      ∃ (h : RawHead) (body : Bytes), h.Accepted o body.length ∧
        r.pending = h.render ++ body ++ r'.pending ∧
        req.method = h.method ∧ (req.path, req.query) = splitQuery h.target ∧
        req.headers = h.fields.map trimmed ∧ req.body = body) ∧
    ((¬ ∃ (h : RawHead) (len : ℕ) (t : Bytes), h.Accepted o len ∧ r.pending = h.render ++ t) →
      ∃ e r' taken, (parseRequest o).run r = .error e r' ∧ e ≠ .spent ∧
        (e = .waits → r.stream.ending = .silent ∧ Unfinished r.pending) ∧
        r.pending = taken ++ r'.pending ∧ WithinHead taken ∧
        r'.stream.sent = r.stream.sent) := by
  have hout := parseHead_outcome o r
  refine ⟨fun req r' hr => ?_, fun hno => ?_⟩
  · obtain ⟨h, r₁, hr₁, hr₂⟩ := run_bind_ok.1 hr
    rw [hr₁] at hout
    cases hout with
    | @read h len _ hm ha =>
      obtain ⟨body, hlen, hp, rfl⟩ := parseBody_ok hr₂
      refine ⟨h, body, ?_, ?_, rfl, rfl, rfl, rfl⟩
      · rw [hlen]
        exact ha
      · rw [hm.pending, hp, append_assoc]
  · rw [parseRequest, run_bind]
    generalize (parseHead o).run r = res at hout ⊢
    cases hout with
    | @read h len r₁ hm ha => exact absurd ⟨h, _, r₁.pending, ha, hm.pending⟩ hno
    | @refused e r' h =>
      obtain ⟨taken, hm, hw⟩ := h.taken
      exact ⟨e, r', taken, rfl, h.genuine, h.waits, hm.pending, hw, hm.sent⟩

/-- A request with a body, and a stream that starts with a bare LF. -/
def postedReader : BufferedReader where
  stream :=
    { rest := bytes "POST /a HTTP/1.1\r\nHost: h\r\ncontent-length: 2\r\n\r\nhiX"
      cuts := [5, 1, 30] }

def bareReader : BufferedReader where
  stream := { rest := bytes "\n" }

theorem parseRequest_framing_posted :
    (∃ h : RawHead, h.Accepted {} 2 ∧ postedReader.pending = h.render ++ bytes "hi" ++ bytes "X") ∧
    ∃ e r', (parseRequest {}).run bareReader = .error e r' ∧ e ≠ .spent ∧ e ≠ .waits := by
  refine ⟨?_, ?_⟩
  · have hv : (match (parseRequest {}).run postedReader with
        | .ok req r' => req.body == bytes "hi" && r'.pending == bytes "X"
        | .error _ _ => false) = true := by decide +kernel
    cases hr : (parseRequest {}).run postedReader with
    | error =>
      rw [hr] at hv
      cases hv
    | ok req r' =>
      rw [hr] at hv
      simp only [Bool.and_eq_true, beq_iff_eq] at hv
      obtain ⟨h, body, ha, hp, -, -, -, rfl⟩ := (parseRequest_framing {} postedReader).1 req r' hr
      rw [hv.1] at ha hp
      exact ⟨h, ha, by rw [hp, hv.2]⟩
  · have hno : ¬ ∃ (h : RawHead) (len : ℕ) (t : Bytes), h.Accepted {} len ∧
        bareReader.pending = h.render ++ t := by
      rintro ⟨h, len, t, -, hp⟩
      have := congrArg length hp
      simp only [RawHead.render, crlf, length_append, length_cons, length_nil] at this
      have hone : bareReader.pending.length = 1 := by decide
      omega
    obtain ⟨e, r', taken, hr, hs, hw, -⟩ := (parseRequest_framing {} bareReader).2 hno
    exact ⟨e, r', hr, hs, fun he => by cases (hw he).1⟩

end Manwe.HttpServer
