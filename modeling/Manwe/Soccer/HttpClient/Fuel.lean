import Manwe.Soccer.HttpClient
import Manwe.Soccer.Http.Body
import Manwe.Soccer.Http.Fields

/-!
# The loops of the client end

The loops of `HttpClient::readResponse` are modelled with fuel. Each round of them takes at least
one byte, of the header block, of the trailers or of the body, and each of these has a cap; the fuel
is the cap, so it **never runs out** and `spent` is not an outcome of a response.
-/

namespace Manwe.HttpClient

open Http BufferedReader List Nat MonadExcept EStateM

variable {α γ : Type}

/-- The program does not run out of fuel. -/
def Fed (m : EStateM Fault BufferedReader α) : Prop := ∀ r r', m.run r ≠ .error .spent r'

theorem Fed.pure (a : α) : Fed (Pure.pure a : EStateM Fault BufferedReader α) :=
  fun _ _ h => nomatch h

variable {fuel : ℕ} {x : Except Fault α} {e : Fault} {f : α → EStateM Fault BufferedReader γ}
  {c : Prop}

theorem Fed.throw (he : e ≠ .spent) : Fed (throw e : EStateM Fault BufferedReader α) := by
  intro r r' h
  exact he (Result.error.inj h).1

theorem Fed.fail (what : String) :
    Fed (MonadExcept.throw (fail what) : EStateM Fault BufferedReader α) :=
  .throw nofun

/-- A sequence, where the second part may use what is known of the first one's result. -/
theorem Fed.bind {m : EStateM Fault BufferedReader α} (hm : Fed m)
    (hf : ∀ r a r', m.run r = .ok a r' → Fed (f a)) : Fed (m >>= f) := by
  intro r r' h
  rcases Tape.run_bind_error.1 h with h | ⟨a, r₁, ha, h⟩
  · exact hm r r' h
  · exact hf r a r₁ ha r₁ r' h

theorem Fed.ite [Decidable c] {m m' : EStateM Fault BufferedReader α} (ht : c → Fed m)
    (he : ¬ c → Fed m') : Fed (if c then m else m') := by
  split
  · next h => exact ht h
  · next h => exact he h

/-- A check that has faults of its own. -/
theorem Fed.check (hx : ∀ e, x = .error e → e ≠ .spent) (hf : ∀ a, x = .ok a → Fed (f a)) :
    Fed (ofExcept x >>= f) := by
  cases x with
  | error e => exact fun r r' h => hx e rfl (Result.error.inj h).1
  | ok a => exact fun r r' h => hf a rfl r r' h

theorem Dry.ne_spent {r : BufferedReader} (h : Dry r e) : e ≠ .spent := by
  cases h <;> nofun

theorem fed_readLine : Fed readLine := by
  intro r r' h
  have hout := readLine_outcome r
  rw [h] at hout
  cases hout with
  | dry _ _ he => exact Dry.ne_spent he rfl

theorem fed_readExact {n : ℕ} (hn : n ≤ maxExact) : Fed (readExact n) := by
  intro r r' h
  have hout := readExact_outcome hn r
  rw [h] at hout
  cases hout with
  | dry _ _ he => exact Dry.ne_spent he rfl

theorem fed_readBody {truncated : Fault} (ht : truncated ≠ .spent) (n : ℕ) (body : Bytes) :
    Fed (readBody truncated n n body) := by
  intro r r' h
  obtain ⟨bs, r₁, hr, -⟩ | ⟨e, r₁, c, hr, -, he, -⟩ := readBody_outcome truncated body le_rfl r
  · rw [hr] at h
    cases h
  · rw [hr] at h
    obtain ⟨rfl, -⟩ := Result.error.inj h
    rcases he with rfl | he
    · exact ht rfl
    · exact Dry.ne_spent he rfl

/-! ### The checks on a line -/

/-- A check fails with a message, if at all. -/
def Says (x : Except Fault α) : Prop := ∀ e, x = .error e → e ≠ .spent

theorem Says.ok (a : α) : Says (.ok a) := nofun

theorem Says.fail (what : String) : Says (.error (fail what) : Except Fault α) := by
  rintro e he rfl
  cases he

theorem Says.bind {f : α → Except Fault γ} (hx : Says x) (hf : ∀ a, Says (f a)) :
    Says (x >>= f) := by
  intro e he
  cases x with
  | error =>
    cases he
    exact hx e rfl
  | ok a => exact hf a e he

theorem Says.ite [Decidable c] {x y : Except Fault α} (hx : Says x) (hy : Says y) :
    Says (if c then x else y) := by
  split
  · exact hx
  · exact hy

theorem says_stripLineEnd (line : Bytes) : Says (stripLineEnd line) := .ite (.fail _) (.ok _)

theorem says_parseStatusLine (raw : Bytes) : Says (parseStatusLine raw) := by
  refine .bind (says_stripLineEnd raw) fun line => ?_
  split
  · exact .ite (.fail _) (.ite (.fail _) (.ok _))
  · exact .fail _

theorem says_parseHeaderLine (raw : Bytes) : Says (parseHeaderLine raw) := by
  refine .bind (says_stripLineEnd raw) fun line => ?_
  split
  · exact .fail _
  · exact .ite (.fail _) (.ite (.fail _) (.ok _))

theorem says_hexSize (digits value : ℕ) (line : Bytes) : Says (hexSize digits value line) := by
  induction line generalizing digits value with
  | nil => exact .ok _
  | cons c rest ih =>
    rw [hexSize]
    split
    · exact .ok _
    · exact .ite (.fail _) (ih _ _)

theorem says_parseChunkSize (line : Bytes) : Says (parseChunkSize line) := by
  refine .ite (.fail _) ?_
  have hsize := says_hexSize 0 0 line.dropLast.dropLast
  generalize hexSize 0 0 line.dropLast.dropLast = x at hsize
  cases x with
  | error e =>
    intro e' he
    cases he
    exact hsize e rfl
  | ok => exact .ite (.fail _) (.ok _)

/-! ### The loops -/

theorem fed_readHeaders {h : Head} (hf : maxHeaderBytes + 1 < h.headerBytes + fuel)
    (hpos : 0 < fuel) : Fed (readHeaders fuel h) := by
  induction fuel generalizing h with
  | zero => exact absurd hpos (lt_irrefl 0)
  | succ fuel ih =>
    refine .bind fed_readLine fun _ line _ _ => ?_
    refine .ite (fun _ => .fail _) fun hmax => .ite (fun _ => .fail _) fun hne =>
      .ite (fun _ => .pure _) fun _ => .ite (fun _ => .fail _) fun _ =>
      .check (says_parseHeaderLine line) fun field _ => ?_
    have hlen : 0 < line.length := length_pos_of_ne_nil hne
    simp only [Head.grow, gt_iff_lt, not_lt] at hmax
    exact ih (by simp only [Head.grow]; omega) (by omega)

theorem fed_readHead (headerBytes consumed : ℕ) : Fed (readHead headerBytes consumed) := by
  refine .bind fed_readLine fun _ line _ _ => .ite (fun _ => .fail _) fun _ =>
    .check (says_parseStatusLine line) fun p _ => ?_
  exact fed_readHeaders (by dsimp only; omega) (succ_pos _)

theorem fed_readFinalHead (left headerBytes consumed : ℕ) :
    Fed (readFinalHead left headerBytes consumed) := by
  induction left generalizing headerBytes consumed with
  | zero => exact .fail _
  | succ left ih =>
    exact .bind (fed_readHead _ _) fun _ h _ _ => .ite (fun _ => ih _ _) fun _ => .pure _

theorem fed_readChunks {chunked : Bytes} (consumed : ℕ)
    (hf : maxBodyBytes + 1 < chunked.length + fuel) (hpos : 0 < fuel) :
    Fed (readChunks fuel chunked consumed) := by
  induction fuel generalizing chunked consumed with
  | zero => exact absurd hpos (lt_irrefl 0)
  | succ fuel ih =>
    refine .bind fed_readLine fun _ line _ _ => .check (says_parseChunkSize line) fun size _ => ?_
    refine .ite (fun _ => .pure _) fun h0 => .ite (fun _ => .fail _) fun hmax => ?_
    have htrunc : fail "truncated chunked body" ≠ .spent := nofun
    refine .bind (fed_readBody htrunc size chunked) fun r chunked' r' hbody => ?_
    obtain ⟨bs, rfl, hlen⟩ : ∃ bs, chunked' = chunked ++ bs ∧ bs.length = size := by
      obtain ⟨bs, r₁, hr, -, hlen⟩ | ⟨e, r₁, c, hr, -⟩ :=
        readBody_outcome (fail "truncated chunked body") chunked (le_refl size) r
      · rw [hr] at hbody
        cases hbody
        exact ⟨bs, rfl, hlen⟩
      · rw [hr] at hbody
        cases hbody
    refine .bind (fed_readExact (by decide)) fun _ terminator _ _ => .ite (fun _ =>
      .fail _) fun _ =>
      ih _ ?_ ?_
    · rw [length_append]
      omega
    · omega

theorem fed_readTrailers {fuel trailerBytes : ℕ} (consumed : ℕ)
    (hf : maxHeaderBytes + 1 < trailerBytes + fuel) (hpos : 0 < fuel) :
    Fed (readTrailers fuel trailerBytes consumed) := by
  induction fuel generalizing trailerBytes consumed with
  | zero => exact absurd hpos (lt_irrefl 0)
  | succ fuel ih =>
    refine .bind fed_readLine fun _ line _ _ => .ite (fun _ => .fail _) fun hmax =>
      .ite (fun _ => .fail _) fun hlast => .ite (fun _ => .pure _) fun _ => ?_
    have hlen : 0 < line.length := by
      refine length_pos_of_ne_nil ?_
      rintro rfl
      exact hlast (by decide)
    exact ih _ (by omega) (by omega)

theorem fed_readToEof {body : Bytes} (hf : maxBodyBytes + 1 < body.length + fuel)
    (hpos : 0 < fuel) :
    Fed (readToEof fuel body) := by
  induction fuel generalizing body with
  | zero => exact absurd hpos (lt_irrefl 0)
  | succ fuel ih =>
    refine .bind (fun _ _ h => nomatch h) fun _ r _ _ => .ite (fun _ => .pure _) fun _ => ?_
    refine .bind (fed_readExact (by decide)) fun _ chunk _ _ => .ite (fun _ => .pure _) fun hne =>
      .ite (fun _ => .fail _) fun hmax => ih ?_ ?_
    · have hlen : 0 < chunk.length := length_pos_of_ne_nil hne
      rw [length_append]
      omega
    · omega

theorem fed_readChunkedBody (h : Head) : Fed (readChunkedBody h) := by
  refine .ite (fun _ => .fail _) fun _ => ?_
  refine .bind (fed_readChunks _ (by simp) (succ_pos _)) fun _ p _ _ => ?_
  exact .bind (fed_readTrailers _ (by simp) (succ_pos _)) fun _ n _ _ => .pure _

theorem fed_readPlainBody (h : Head) : Fed (readPlainBody h) := by
  rw [readPlainBody]
  cases hlen : strictContentLength h.resp.headers maxBodyBytes with
  | error => exact .throw nofun
  | ok len =>
    cases len with
    | none => exact .bind (fed_readToEof (by simp) (succ_pos _)) fun _ body _ _ => .pure _
    | some n =>
      have hn : n ≤ maxExact := ((strictContentLength_ok hlen).2 (by decide)).trans (by decide)
      exact .bind (fed_readExact hn) fun _ body _ _ => .ite (fun _ => .fail _) fun _ => .pure _

/-- **`readResponse` returns, throws or waits**: its loops do not run out of fuel. -/
theorem fed_readResponse (headRequest : Bool) : Fed (readResponse headRequest) := by
  refine .bind (fed_readFinalHead _ _ _) fun _ h _ _ => ?_
  exact .ite (fun _ => .pure _) fun _ => .ite (fun _ => .pure _) fun _ =>
    .ite (fun _ => fed_readChunkedBody h) fun _ => fed_readPlainBody h

end Manwe.HttpClient
