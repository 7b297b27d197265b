import Manwe.Soccer.HttpServer.Accepts

/-!
# Well-formed requests are parsed

The converse of `Accepts`: a head within the limits that passes the checks, with its body behind it,
is parsed as it stands, however it arrives, and exactly its bytes are taken
(`parseRequest_render`).
-/

namespace Manwe.HttpServer

open Http BufferedReader List RawHead Tape

variable {o : HttpServerOptions} {bound : ℕ} {headerBytes : ℕ}

theorem headTooLarge_of_le (h : o.maxHeaderBytes ≠ 0 → headerBytes ≤ o.maxHeaderBytes) :
    headTooLarge o headerBytes = false := by
  by_cases hne : o.maxHeaderBytes = 0
  · simp [headTooLarge, hne]
  · simp [headTooLarge, h hne]

theorem length_rawLine (f : HttpHeader) :
    (rawLine f).length = (f.name ++ 58 :: f.value).length + 2 := by
  rw [rawLine, length_append]
  rfl

/-- Header lines on the tape are read, up to the blank one. -/
theorem reads_readFields {fuel : ℕ} {fields headers : List HttpHeader}
    (hv : ∀ f ∈ fields, ValidField f) (hl : ∀ f ∈ fields, (rawLine f).length ≤ bound)
    (hblank : 2 ≤ bound)
    (hbytes : o.maxHeaderBytes ≠ 0 →
      headerBytes + (fields.flatMap rawLine ++ crlf).length ≤ o.maxHeaderBytes)
    (hcount : o.maxHeaderCount ≠ 0 → headers.length + fields.length ≤ o.maxHeaderCount)
    (hf : fields.length < fuel) :
    tape.Reads (Admits bound) (readFields o fuel headers headerBytes)
      (fields.flatMap rawLine ++ crlf) (headers ++ fields.map trimmed) := by
  induction fields generalizing fuel headers headerBytes with
  | nil =>
    cases fuel with
    | zero => exact absurd hf (Nat.not_lt_zero _)
    | succ =>
      rw [readFields, map_nil, append_nil, flatMap_nil]
      have hline := reads_readHeadLine (l := []) false headerBytes rfl hblank
      refine hline.bind_last (admits_stable bound) ?_
      have hlarge : headTooLarge o (headerBytes + (([] : Bytes).length + 2)) = false :=
        headTooLarge_of_le hbytes
      dsimp only
      rw [hlarge, if_neg Bool.false_ne_true]
      exact .pure
  | cons f fs ih =>
    obtain ⟨hvf, hvs⟩ := forall_mem_cons.1 hv
    obtain ⟨hlf, hls⟩ := forall_mem_cons.1 hl
    cases fuel with
    | zero => exact absurd hf (Nat.not_lt_zero _)
    | succ fuel =>
      rw [readFields, flatMap_cons, append_assoc]
      rw [flatMap_cons, append_assoc, length_append] at hbytes
      have hlen := length_rawLine f
      have hline : tape.Reads (Admits bound) _ (rawLine f) _ :=
        reads_readHeadLine false headerBytes (ctl_of_validField hvf) (by omega)
      refine hline.bind (admits_stable bound) ?_
      have hlarge : headTooLarge o (headerBytes + ((f.name ++ 58 :: f.value).length + 2)) = false :=
        headTooLarge_of_le fun hne => by have := hbytes hne; omega
      dsimp only
      rw [hlarge, if_neg Bool.false_ne_true]
      have hfield : parseField o headers.length (f.name ++ 58 :: f.value) = .ok (trimmed f) :=
        parseField_eq hvf.1 hvf.2 fun hne => by
          have := hcount hne
          rw [length_cons] at this
          omega
      have htail : tape.Reads (Admits bound) (readFields o fuel (headers ++ [trimmed f])
            (headerBytes + ((f.name ++ 58 :: f.value).length + 2)))
          (fs.flatMap rawLine ++ crlf) (headers ++ (f :: fs).map trimmed) := by
        have hcat : headers ++ (f :: fs).map trimmed = headers ++ [trimmed f] ++ fs.map trimmed :=
          by
          simp
        rw [hcat]
        refine ih hvs hls (fun hne => ?_) (fun hne => ?_) (Nat.lt_of_succ_lt_succ hf)
        · omega
        · have := hcount hne
          rw [length_cons] at this
          rw [length_append, length_singleton]
          omega
      split
      · next heq => cases heq
      · next heq => simp at heq
      · next heq =>
        cases heq
        exact (Reads.ofExcept hfield).bind_nil (admits_stable bound) htail

variable {len : Option ℕ}

/-- **A head on the tape is parsed.** -/
theorem reads_parseHead {h : RawHead} (hversion : h.version = bytes "HTTP/1.1")
    (hmethod : isHttpToken h.method = true) (hne : h.target ≠ [])
    (htarget : hasTargetCtl h.target = false) (hfrag : 35 ∉ h.target)
    (hv : ∀ f ∈ h.fields, ValidField f) (hline : h.requestLine.length + 2 ≤ bound)
    (hl : ∀ f ∈ h.fields, (rawLine f).length ≤ bound)
    (hbytes : o.maxHeaderBytes ≠ 0 → h.render.length ≤ o.maxHeaderBytes)
    (hcount : o.maxHeaderCount ≠ 0 → h.fields.length ≤ o.maxHeaderCount)
    (hcheck : checkFraming o true (h.fields.map trimmed) = .ok len) :
    tape.Reads (Admits bound) (parseHead o) h.render (h.parsed len) := by
  have hctl : hasCtlLineBreak h.requestLine = false := by
    rw [requestLine, hasCtlLineBreak_append, hasCtlLineBreak_cons, hasCtlLineBreak_append,
      hasCtlLineBreak_cons, ctlLineBreak_of_value (value_of_target (target_of_token hmethod)),
      ctlLineBreak_of_value (value_of_target htarget), hversion]
    decide
  have hlen : h.render.length = h.requestLine.length + 2 +
      (h.fields.flatMap rawLine ++ crlf).length := by
    simp only [render, length_append]
    rfl
  refine (reads_readHeadLine true 0 hctl hline).bind (admits_stable bound) ?_
  have hlarge : headTooLarge o (0 + (h.requestLine.length + 2)) = false :=
    headTooLarge_of_le fun hne => by have := hbytes hne; omega
  have hparse : parseRequestLine h.requestLine = .ok (h.method, h.target, true) := by
    rw [requestLine, hversion]
    exact parseRequestLine_eq hmethod hne htarget hfrag
  refine (Reads.ofExcept hparse).bind_nil (admits_stable bound) ?_
  dsimp only
  rw [hlarge, if_neg Bool.false_ne_true]
  refine .get fun r _ hpre => ?_
  have hfuel : h.fields.length < r.pending.length + 1 := by
    have h₁ := hpre.length_le
    have h₂ : h.fields.length ≤ (h.fields.flatMap rawLine).length :=
      length_le_flatMap (fun f => by simp [rawLine]) h.fields
    have h₃ : tape.pending r = r.pending := rfl
    rw [length_append, h₃] at h₁
    omega
  have hfields : tape.Reads (Admits bound)
      (readFields o (r.pending.length + 1) [] (0 + (h.requestLine.length + 2))) _ _ :=
    reads_readFields hv hl (by omega) (fun hne => by have := hbytes hne; omega)
      (fun hne => by simpa using hcount hne) hfuel
  refine hfields.bind_last (admits_stable bound) ?_
  refine (Reads.ofExcept hcheck).bind_nil (admits_stable bound) ?_
  have hparsed : h.parsed len = ⟨h.method, h.target, true, h.fields.map trimmed, len⟩ := by
    rw [parsed, hversion]
    rfl
  rw [hparsed]
  exact .pure

/-- **A request on the tape is parsed**, and exactly its bytes are taken. -/
theorem parseRequest_render {h : RawHead} {body t : Bytes} {r : BufferedReader}
    (hhead : tape.Reads (Admits r.maxLineBytes) (parseHead o) h.render (h.parsed len))
    (hlen : len.getD 0 = body.length) (hacc : r.stream.accepts = true)
    (hp : r.pending = h.render ++ body ++ t) :
    ∃ r', (parseRequest o).run r = .ok ((h.parsed len).request body) r' ∧ r'.pending = t := by
  rw [append_assoc] at hp
  obtain ⟨r₁, hr₁, hm₁⟩ := hhead r (body ++ t) rfl hp
  have hp₁ : r₁.pending = body ++ t := append_cancel_left (hm₁.pending.symm.trans hp)
  obtain ⟨r₂, hr₂, hp₂⟩ : ∃ r₂, (sendContinue (h.parsed len)).run r₁ = .ok () r₂ ∧
      r₂.pending = r₁.pending := by
    unfold sendContinue
    split
    · exact ⟨_, run_write kContinue (hm₁.accepts.trans hacc), rfl⟩
    · exact ⟨r₁, rfl, rfl⟩
  obtain ⟨r₃, hr₃, hm₃⟩ := reads_readBody (P := fun _ => True)
    (.socket "HttpServer: truncated request body") [] (le_refl body.length) r₂ t trivial
    (hp₂.trans hp₁)
  refine ⟨r₃, ?_, append_cancel_left (hm₃.pending.symm.trans (hp₂.trans hp₁))⟩
  rw [parseRequest, run_bind_of_ok hr₁, parseBody, run_bind_of_ok hr₂]
  dsimp only [parsed]
  rw [hlen, run_bind_of_ok hr₃]
  rfl

end Manwe.HttpServer
