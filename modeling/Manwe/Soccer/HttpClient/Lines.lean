import Manwe.Soccer.Http.Fields
import Manwe.Soccer.HttpClient

/-!
# Response heads on the tape

The lines of a response head as the client reads them: a status line and header lines that stand on
the tape are taken as they are, whatever follows (`reads_readHead`).
-/

namespace Manwe.HttpClient

open Http BufferedReader List Nat

variable {l : Bytes} {bound : ℕ}

theorem stripLineEnd_crlf (l : Bytes) : stripLineEnd (l ++ crlf) = .ok l := by
  have hlast : (l ++ crlf).getLast? = some 10 := by simp [crlf]
  have hdrop : (l ++ crlf).dropLast = l ++ [13] := by rw [append_crlf, dropLast_concat]
  rw [stripLineEnd, hdrop, hlast, dropLast_concat, if_neg]
  simp [crlf]

theorem fieldLine_eq (f : HttpHeader) : fieldLine f = (f.name ++ 58 :: 32 :: f.value) ++ crlf := by
  simp [fieldLine, bytes]

variable {f : HttpHeader} {fields : List HttpHeader} {status : ℕ} {reason : Bytes}

theorem ctl_fieldLine (h : ValidField f) :
    hasCtlLineBreak (f.name ++ 58 :: 32 :: f.value) = false := by
  have hblank : hasFieldValueCtl (32 :: f.value) = false := by exact h.2
  exact ctl_of_validField (f := ⟨f.name, 32 :: f.value⟩) ⟨h.1, hblank⟩

/-- A field that may be sent is parsed back. -/
theorem parseHeaderLine_fieldLine (h : ValidField f) :
    parseHeaderLine (fieldLine f) = .ok (trimmed f) := by
  have hcut : cutAt 58 (f.name ++ 58 :: 32 :: f.value) = _ := cutAt_append (colon_not_mem_token h.1)
  simp only [parseHeaderLine, fieldLine_eq, stripLineEnd_crlf, bind, Except.bind, hcut]
  rw [if_neg (by simp [h.1]), trimAscii_blank,
    if_neg (by simp [hasFieldValueCtl_trimAscii, h.2])]
  rfl

theorem reads_line (hctl : hasCtlLineBreak l = false) (hl : l.length + 2 ≤ bound) :
    tape.Reads (Admits bound) readLine (l ++ crlf) (l ++ crlf) := by
  rw [append_crlf]
  exact reads_readLine (lf_not_mem hctl) (by simp; omega)

theorem Head.grow_grow (h : Head) (a b : List HttpHeader) (m n : ℕ) :
    (h.grow a m).grow b n = h.grow (a ++ b) (m + n) := by
  simp [Head.grow, add_assoc]

/-- Header lines on the tape are read, up to the blank one. -/
theorem reads_readHeaders {fuel : ℕ} {h : Head} (hv : ∀ f ∈ fields, ValidField f)
    (hbytes : h.headerBytes + (fields.flatMap fieldLine ++ crlf).length ≤ maxHeaderBytes)
    (hbound : maxHeaderBytes ≤ bound) (hf : fields.length < fuel) :
    tape.Reads (Admits bound) (readHeaders fuel h) (fields.flatMap fieldLine ++ crlf)
      (h.grow (fields.map trimmed) (fields.flatMap fieldLine ++ crlf).length) := by
  induction fields generalizing fuel h with
  | nil =>
    cases fuel with
    | zero => exact absurd hf (not_lt_zero _)
    | succ =>
      have hbytes : h.headerBytes + 2 ≤ maxHeaderBytes := hbytes
      have hline : tape.Reads (Admits bound) readLine ([] ++ crlf) ([] ++ crlf) :=
        reads_line rfl (by simp only [length_nil]; omega)
      refine hline.bind_last (admits_stable bound) ?_
      have hsmall : ¬ (h.grow [] ([] ++ crlf).length).headerBytes > maxHeaderBytes :=
        not_lt.2 hbytes
      rw [if_neg hsmall, if_neg (by decide), if_pos (by rfl)]
      exact .pure
  | cons f fs ih =>
    obtain ⟨hvf, hvs⟩ := forall_mem_cons.1 hv
    cases fuel with
    | zero => exact absurd hf (not_lt_zero _)
    | succ fuel =>
      rw [flatMap_cons, append_assoc, length_append] at hbytes
      have hsmall : ¬ (h.grow [] (fieldLine f).length).headerBytes > maxHeaderBytes := by
        simp only [Head.grow]
        omega
      have hlen : (fieldLine f).length = (f.name ++ 58 :: 32 :: f.value).length + 2 := by
        rw [fieldLine_eq, length_append]
        rfl
      have hline : tape.Reads (Admits bound) readLine (fieldLine f) (fieldLine f) := by
        rw [fieldLine_eq]
        exact reads_line (ctl_fieldLine hvf) (by omega)
      have hne : fieldLine f ≠ crlf := fun heq => by
        have := congrArg length heq
        rw [hlen, length_append, length_cons] at this
        simp only [crlf, length_cons, length_nil] at this
        omega
      have hlast : (fieldLine f).getLast? = some 10 := by
        rw [fieldLine_eq, append_crlf, getLast?_concat]
      rw [readHeaders, flatMap_cons, append_assoc]
      refine hline.bind (admits_stable bound) ?_
      rw [if_neg hsmall, if_neg (by rw [fieldLine_eq]; simp), if_neg hne, if_neg (not_not.2 hlast)]
      refine (Tape.Reads.ofExcept (parseHeaderLine_fieldLine hvf)).bind_nil (admits_stable bound) ?_
      have htail : tape.Reads (Admits bound)
          (readHeaders fuel (h.grow [trimmed f] (fieldLine f).length)) _ _ :=
        ih hvs (by simp only [Head.grow]; omega) (lt_of_succ_lt_succ hf)
      rw [Head.grow_grow] at htail ⊢
      rw [length_append]
      exact htail

/-! ### The status line -/

theorem length_decimal {n : ℕ} (hlo : 100 ≤ n) (hhi : n < 1000) : (decimal n).length = 3 := by
  rw [decimal, length_map]
  have h₁ := (length_toDigits_le_iff (b := 10) (k := 3) (by decide) (by decide)).2 hhi
  have h₂ : ¬ (toDigits 10 n).length ≤ 2 := fun h =>
    absurd ((length_toDigits_le_iff (by decide) (by decide)).1 h) (by omega)
  omega

/-- The status line of a response. -/
def statusLine (status : ℕ) (reason : Bytes) : Bytes :=
  bytes "HTTP/1.1 " ++ (decimal status ++ 32 :: reason)

theorem parseStatusLine_eq (hlo : 100 ≤ status) (hhi : status < 1000) :
    parseStatusLine (statusLine status reason ++ crlf) = .ok (status, trimAscii reason, false) := by
  have hlen := length_decimal hlo hhi
  have hsp : 32 ∉ decimal status := space_not_mem_target (target_decimal status)
  have hdigits : (decimal status).all isDigit = true := all_eq_true.2 fun c hc => isDigit_decimal hc
  have hlong : ¬ (statusLine status reason).length < 12 := by
    simp only [statusLine, length_append, hlen, length_cons]
    have : (bytes "HTTP/1.1 ").length = 9 := by decide
    omega
  unfold parseStatusLine
  rw [stripLineEnd_crlf]
  generalize hrest : decimal status ++ 32 :: reason = rest
  have hline : statusLine status reason =
      72 :: 84 :: 84 :: 80 :: 47 :: 49 :: 46 :: 49 :: 32 :: rest := by
    rw [statusLine, hrest]
    rfl
  rw [hline] at hlong ⊢
  change (if _ then _ else _) = _
  rw [if_neg (by simp only [not_or]; exact ⟨hlong, by decide, by decide⟩), ← hrest,
    cutAt_append hsp]
  rw [if_neg (by simp [hlen, hdigits]), stoull_decimal]
  rfl

/-- **A response head on the tape is read.** -/
theorem reads_readHead (hlo : 100 ≤ status) (hhi : status < 1000)
    (hreason : hasFieldValueCtl reason = false) (hv : ∀ f ∈ fields, ValidField f)
    (hbytes : (statusLine status reason ++ crlf ++
      (fields.flatMap fieldLine ++ crlf)).length ≤ maxHeaderBytes)
    (hbound : maxHeaderBytes ≤ bound) :
    tape.Reads (Admits bound) (readHead 0 0)
      (statusLine status reason ++ crlf ++ (fields.flatMap fieldLine ++ crlf))
      { resp := { status, reason := trimAscii reason, headers := fields.map trimmed }
        http10 := false
        headerBytes :=
          (statusLine status reason ++ crlf ++ (fields.flatMap fieldLine ++ crlf)).length
        consumed :=
          (statusLine status reason ++ crlf ++ (fields.flatMap fieldLine ++ crlf)).length } := by
  rw [length_append] at hbytes
  have hctl : hasCtlLineBreak (statusLine status reason) = false := by
    rw [statusLine, hasCtlLineBreak_append, hasCtlLineBreak_append, hasCtlLineBreak_cons,
      ctlLineBreak_of_value (value_of_target (target_decimal status)),
      ctlLineBreak_of_value hreason]
    decide
  have hlen : (statusLine status reason ++ crlf).length = (statusLine status reason).length + 2 :=
    by
    rw [length_append]
    rfl
  have hline : tape.Reads (Admits bound) readLine _ _ := reads_line hctl (by omega)
  have hfuel : fields.length < maxHeaderBytes + 2 := by
    have h₁ : fields.length ≤ (fields.flatMap fieldLine).length :=
      length_le_flatMap (fun f => by simp [fieldLine_eq]) fields
    have h₂ : (fields.flatMap fieldLine ++ crlf).length = (fields.flatMap fieldLine).length + 2 :=
      length_append
    omega
  have hheaders : tape.Reads (Admits bound) (readHeaders (maxHeaderBytes + 2) _) _ _ :=
    reads_readHeaders (h := ⟨{ status, reason := trimAscii reason }, false,
      0 + (statusLine status reason ++ crlf).length,
      0 + (statusLine status reason ++ crlf).length⟩) hv (by simp only; omega) hbound hfuel
  refine hline.bind (admits_stable bound) ?_
  refine (Tape.Reads.ofExcept (parseStatusLine_eq hlo hhi)).bind_nil (admits_stable bound) ?_
  have happ : (statusLine status reason ++ crlf ++ (fields.flatMap fieldLine ++ crlf)).length =
      (statusLine status reason ++ crlf).length + (fields.flatMap fieldLine ++ crlf).length :=
    length_append
  rw [happ]
  simpa [Head.grow] using hheaders

end Manwe.HttpClient
