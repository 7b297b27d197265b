import Manwe.Soccer.Http.Body
import Manwe.Soccer.Http.Fields
import Manwe.Soccer.HttpClient

/-!
# A response is a function of its own bytes

Where `readResponse` reports that the connection may be used again, the response was read off the
bytes it counts as consumed and off nothing else, whatever the segmentation and whatever follows
(`local_readResponse`). Part by part, this is because every line that is acted on ends in its
delimiter, and every count is read in full; only the body that ends with the stream depends on what
comes after, and it is never reported as reusable.
-/

namespace Manwe.HttpClient

open Http BufferedReader List Nat

variable {bound : ℕ}

/-! ### The head -/

variable {line : Bytes}

theorem local_readHeaders (fuel : ℕ) (h : Head) :
    tape.Local (Admits bound) (fun _ => True) (fun l h' => h'.consumed = h.consumed + l.length)
      (readHeaders fuel h) := by
  induction fuel generalizing h with
  | zero => exact .throw
  | succ fuel ih =>
    refine .bind (admits_stable bound) (local_readLine bound) (fun line l _ hl => ?_)
      fun line hline => ?_
    · obtain ⟨rfl, -⟩ := hl
      refine .ite (fun _ => .throw) fun _ => .ite (fun _ => .throw) fun _ =>
        .ite (fun _ => .pure fun _ => ?_) fun _ => .ite (fun _ => .throw) fun _ => ?_
      · rw [append_nil]
        rfl
      · refine .check (admits_stable bound) fun field _ => (ih _).mono fun l' h' hc => ?_
        rw [hc, length_append]
        simp only [Head.grow]
        omega
    · refine .ite (fun _ => .throw) fun _ => .ite (fun _ => .throw) fun _ =>
        .ite (fun hcrlf => ?_) fun _ => .ite (fun _ => .throw) fun h => absurd hline h
      rw [hcrlf] at hline
      exact absurd rfl hline

/-- A line without its delimiter is not acted on. -/
theorem stripLineEnd_error (h : ¬ line.getLast? = some 10) :
    stripLineEnd line = .error (fail "line not terminated by CRLF") :=
  if_pos (.inr (.inr h))

theorem parseStatusLine_error (h : ¬ line.getLast? = some 10) :
    parseStatusLine line = .error (fail "line not terminated by CRLF") := by
  rw [parseStatusLine, stripLineEnd_error h]
  rfl

theorem local_readHead (headerBytes consumed : ℕ) :
    tape.Local (Admits bound) (fun _ => True) (fun l h => h.consumed = consumed + l.length)
      (readHead headerBytes consumed) := by
  refine .bind (admits_stable bound) (local_readLine bound) (fun line l _ hl => ?_)
    fun line hline => ?_
  · obtain ⟨rfl, -⟩ := hl
    refine .ite (fun _ => .throw) fun _ => .check (admits_stable bound) fun p _ =>
      (local_readHeaders _ _).mono fun l' h hc => ?_
    rw [hc, length_append]
    simp only
    omega
  · refine .ite (fun _ => .throw) fun _ => ?_
    rw [parseStatusLine_error hline]
    exact .of_error fun s => ⟨_, s, rfl⟩

theorem local_readFinalHead (left headerBytes consumed : ℕ) :
    tape.Local (Admits bound) (fun _ => True) (fun l h => h.consumed = consumed + l.length)
      (readFinalHead left headerBytes consumed) := by
  induction left generalizing headerBytes consumed with
  | zero => exact .throw
  | succ left ih =>
    refine .bind_all (admits_stable bound) (local_readHead headerBytes consumed) fun h l hl => ?_
    refine .ite (fun _ => (ih _ _).mono fun l' h' hc => ?_) fun _ => .pure fun _ => ?_
    · rw [hc, hl, length_append, add_assoc]
    · rw [append_nil]
      exact hl

/-! ### The body -/

theorem parseChunkSize_error (h : ¬ line.getLast? = some 10) :
    parseChunkSize line = .error (fail "malformed chunk size line") :=
  if_pos (.inr (.inr (.inr h)))

theorem local_readChunks (fuel : ℕ) (chunked : Bytes) (consumed : ℕ) :
    tape.Local (Admits bound) (fun _ => True) (fun l p => p.2 = consumed + l.length)
      (readChunks fuel chunked consumed) := by
  induction fuel generalizing chunked consumed with
  | zero => exact .throw
  | succ fuel ih =>
    refine .bind (admits_stable bound) (local_readLine bound) (fun line l _ hl => ?_)
      fun line hline => ?_
    · obtain ⟨rfl, -⟩ := hl
      refine .check (admits_stable bound) fun size _ => .ite (fun _ => .pure fun _ => ?_) fun _ =>
        .ite (fun _ => .throw) fun _ => ?_
      · rw [append_nil]
      refine .bind_all (admits_stable bound) (local_readBody le_rfl) fun body l₁ hl₁ => ?_
      refine .bind (admits_stable bound) (local_readExact (by decide)) (fun term l₂ hterm hl₂ => ?_)
        fun term hterm => ?_
      · subst hl₂
        refine .ite (fun _ => .throw) fun _ => (ih _ _).mono fun l₃ p hp => ?_
        simp only [hp, length_append, hl₁.2, hterm]
        omega
      · refine .ite (fun _ => .throw) fun hcrlf => ?_
        rw [not_not.1 hcrlf] at hterm
        exact absurd rfl hterm
    · rw [parseChunkSize_error hline]
      exact .of_error fun s => ⟨_, s, rfl⟩

theorem local_readTrailers (fuel trailerBytes consumed : ℕ) :
    tape.Local (Admits bound) (fun _ => True) (fun l n => n = consumed + l.length)
      (readTrailers fuel trailerBytes consumed) := by
  induction fuel generalizing trailerBytes consumed with
  | zero => exact .throw
  | succ fuel ih =>
    refine .bind (admits_stable bound) (local_readLine bound) (fun line l hlast hl => ?_)
      fun line hline => ?_
    · obtain ⟨rfl, -⟩ := hl
      refine .ite (fun _ => .throw) fun _ => .ite (fun _ => .throw) fun _ =>
        .ite (fun _ => .pure fun _ => ?_) fun _ => (ih _ _).mono fun l' n hn => ?_
      · rw [append_nil]
      · rw [hn, length_append, add_assoc]
    · exact .ite (fun _ => .throw) fun _ => .ite (fun _ => .throw) fun h => absurd hline h

/-- The reply may be followed by another on the same connection, and counts its bytes. -/
def Counts (consumed : ℕ) (l : Bytes) (reply : Reply) : Prop := reply.consumed = consumed + l.length

theorem local_readChunkedBody (h : Head) :
    tape.Local (Admits bound) (fun _ => True) (Counts h.consumed) (readChunkedBody h) := by
  refine .ite (fun _ => .throw) fun _ => ?_
  refine .bind_all (admits_stable bound) (local_readChunks _ _ _) fun p l hl => ?_
  refine .bind_all (admits_stable bound) (local_readTrailers _ _ _) fun n l' hn => .pure fun _ => ?_
  rw [Counts, hn, hl, append_nil, length_append, add_assoc]

theorem local_readPlainBody (h : Head) :
    tape.Local (Admits bound) (·.reusable = true) (Counts h.consumed) (readPlainBody h) := by
  rw [readPlainBody]
  cases hlen : strictContentLength h.resp.headers maxBodyBytes with
  | error => exact .throw
  | ok len =>
    cases len with
    | none =>
      refine Tape.Never.local (.bind fun body => .pure ?_)
      exact Bool.false_ne_true
    | some n =>
      have hn : n ≤ maxExact := ((strictContentLength_ok hlen).2 (by decide)).trans (by decide)
      refine .bind (admits_stable bound) (local_readExact hn) (fun body l hbody hl => ?_)
        fun body hbody => ?_
      · subst hl
        refine .ite (fun _ => .throw) fun _ => .pure fun _ => ?_
        rw [Counts, append_nil]
      · exact .ite (fun _ => .throw) fun h => absurd (not_not.1 h) hbody

/-- **A reusable response is a function of the bytes it has consumed.** -/
theorem local_readResponse (headRequest : Bool) :
    tape.Local (Admits bound) (·.reusable = true) (Counts 0) (readResponse headRequest) := by
  refine .bind_all (admits_stable bound) (local_readFinalHead _ _ _) fun h l hl => ?_
  rw [zero_add] at hl
  have hcounts : ∀ l' reply, Counts h.consumed l' reply → Counts 0 (l ++ l') reply := by
    intro l' reply hc
    rw [Counts, hc, hl, zero_add, length_append]
  refine .ite (fun _ => Tape.Never.local (.pure ?_)) fun _ =>
    .ite (fun _ => .pure fun _ => hcounts [] _ rfl) fun _ => .ite (fun _ => ?_) fun _ => ?_
  · exact Bool.false_ne_true
  · intro s a s' hs hr _
    obtain ⟨l', hm, hrd, hq⟩ := local_readChunkedBody h s a s' hs hr trivial
    exact ⟨l', hm, hrd, hcounts l' a hq⟩
  · exact (local_readPlainBody h).mono hcounts

end Manwe.HttpClient
