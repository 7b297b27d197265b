import Manwe.Soccer.HttpClient.Fuel
import Manwe.Soccer.HttpClient.Local
import Manwe.Soccer.PooledRequest.Owners

/-!
# Exchanges on one connection

What the peer sends on a connection falls into **consecutive ranges**, one for each response read
off it: the reader of an exchange starts where the last one ended, because a connection goes back
to the pool only if its reader has nothing left in the buffer (`exchange_clean`). With
`HttpClient.local_readResponse` each range decides its response alone, so no byte of one exchange
is seen by another.
-/

namespace Manwe.PooledRequest

open Function List Nat

open Http HttpClient HttpConnectionPool BufferedReader

variable {ι : Type} {req : ι → Request}

/-! ### One exchange -/

/-- The line limit of the readers of the pooled path. -/
def lineLimit : ℕ := 64 * 1024

/-- The response is what `readResponse` makes of the bytes `b`, on some reader. -/
def Parses (b : Bytes) (a : Answer) : Prop :=
  ∃ r r' : BufferedReader, r.maxLineBytes = lineLimit ∧ r.pending = b ∧
    (readResponse a.head).run r = .ok a.reply r'

/-- The response is what `readResponse` makes of `b` **whatever follows**, and counts `b`. -/
structure Whole (b : Bytes) (a : Answer) : Prop where
  reads : tape.Reads (Admits lineLimit) (readResponse a.head) b a.reply
  reusable : a.reply.reusable = true
  consumed : a.reply.consumed = b.length

/-- A new reader that holds `b` and is at the end of its stream. -/
def readerOf (b : Bytes) : BufferedReader where
  stream := { rest := b }
  eof_rest := fun h => absurd h Bool.false_ne_true

variable {b rest : Bytes} {a : Answer}

theorem Whole.parses (h : Whole b a) : Parses b a := by
  obtain ⟨r', hr, -⟩ := h.reads (readerOf b) [] rfl (append_nil b).symm
  exact ⟨readerOf b, r', rfl, rfl, hr⟩

variable {q : Request} {writes expired : Bool} {reply : Reply} {r : BufferedReader}

/-- An exchange that returns has read its response on a reader of its own, with an empty buffer. -/
theorem exchange_ok {s : TcpStream} (h : exchange q writes s = .ok reply r) :
    ∃ r₀ : BufferedReader, r₀.maxLineBytes = lineLimit ∧ r₀.unread = [] ∧ r₀.stream.rest = s.rest ∧
      r₀.stream.total = 0 ∧ (readResponse q.head).run r₀ = .ok reply r := by
  obtain ⟨⟨⟩, r₀, hw, hr⟩ := Tape.run_bind_ok.1 h
  obtain ⟨-, rfl⟩ := write_ok hw
  exact ⟨_, rfl, rfl, rfl, rfl, hr⟩

theorem exchange_parses {s : TcpStream} (h : exchange q writes s = .ok reply r) :
    Parses s.rest ⟨q.head, reply⟩ := by
  obtain ⟨r₀, hmax, hun, hrest, -, hr⟩ := exchange_ok h
  exact ⟨r₀, r, hmax, by rw [pending, hun, hrest, nil_append], hr⟩

/-- **A clean exchange takes exactly its response off the socket.** -/
theorem exchange_clean {s : TcpStream} (h : exchange q writes s = .ok reply r)
    (hc : clean reply r = true) : ∃ b, s.rest = b ++ r.stream.rest ∧ Whole b ⟨q.head, reply⟩ := by
  obtain ⟨r₀, hmax, hun, hrest, htotal, hr⟩ := exchange_ok h
  obtain ⟨hreuse, hcount⟩ : reply.reusable = true ∧ r.stream.total = reply.consumed := by
    simpa [clean] using hc
  obtain ⟨b, hmoves, hreads, hb⟩ := local_readResponse q.head r₀ reply r hmax hr hreuse
  have hb : reply.consumed = b.length := by rwa [Counts, zero_add] at hb
  have htot := hmoves.total
  rw [hun, htotal, hcount, hb] at htot
  have hunread : r.unread = [] := length_eq_zero_iff.1 (by simpa using htot)
  refine ⟨b, ?_, hreads, hreuse, hb⟩
  have hp := hmoves.pending
  rwa [pending, pending, hun, hunread, hrest, nil_append, nil_append] at hp

/-- An exchange returns, throws or waits for the peer. -/
theorem exchange_ne_spent (q : Request) (writes : Bool) (s : TcpStream) (r : BufferedReader) :
    exchange q writes s ≠ .error .spent r := by
  refine Fed.bind (fun r₀ r' h => ?_) (fun _ _ _ _ => fed_readResponse q.head) (reader s writes) r
  unfold write EStateM.run at h
  dsimp only at h
  split at h <;> cases h

/-! ### The story of a connection -/

/-- The peer's bytes fall into one range for each answer: **every answer but the last** is what its
range reads as whatever follows, and counts it; the last is what is made of its range. -/
def Apart (sent : Bytes) (answers : List Answer) : Prop :=
  ∃ (ranges : List Bytes) (rest : Bytes), sent = ranges.flatten ++ rest ∧
    Forall₂ Parses ranges answers ∧ ∀ p ∈ (ranges.zip answers).dropLast, Whole p.1 p.2

variable {answers : List Answer} {ranges : List Bytes}

theorem apart_of_whole (h : Forall₂ Whole ranges answers) :
    Apart (ranges.flatten ++ rest) answers :=
  ⟨ranges, rest, rfl, h.imp fun _ _ => Whole.parses,
    fun _ hp => forall₂_zip h (dropLast_subset _ hp)⟩

/-- After whole answers, one more. -/
theorem apart_snoc (h : Forall₂ Whole ranges answers) (ha : Parses b a) :
    Apart (ranges.flatten ++ b) (answers ++ [a]) := by
  refine ⟨ranges ++ [b], [], by simp, ?_, fun p hp => ?_⟩
  · exact rel_append (h.imp fun _ _ => Whole.parses) (.cons ha .nil)
  · rw [zip_append h.length_eq, zip_cons_cons, zip_nil_left, dropLast_concat] at hp
    exact forall₂_zip h hp

/-- What is known of a connection that can still be used: the answers so far cover the beginning
of what the peer sends, and the rest is what the stream still holds. -/
def Live (sent rest : Bytes) (answers : List Answer) : Prop :=
  ∃ ranges : List Bytes, sent = ranges.flatten ++ rest ∧ Forall₂ Whole ranges answers

/-- What is known of the connection `c` after the run `tr`. -/
structure Story (req : ι → Request) (tr : List (State ι × Event ι)) (s : State ι) (c : ℕ) :
    Prop where
  /-- nothing is sent on a connection before it is dialled -/
  undialled : s.dialled ≤ c → logOf (sentOn c) tr = [] ∧ logOf (answered req c) tr = []
  live : ∀ p, At s p c → Live (logOf (sentOn c) tr) (s.streams c).rest (logOf (answered req c) tr)
  apart : Apart (logOf (sentOn c) tr) (logOf (answered req c) tr)

theorem Story.init (c : ℕ) : Story req [] ({} : State ι) c where
  undialled := fun _ => ⟨rfl, rfl⟩
  live := fun p hp => absurd (Owned.init.dialled p c hp) (not_lt_zero c)
  apart := ⟨[], [], rfl, .nil, fun _ hp => nomatch hp⟩

variable {c : ℕ} {s : State ι}

/-- A step that leaves the connection alone. -/
theorem Story.frame {tr : List (State ι × Event ι)} {t : State ι} {e : Event ι}
    (h : Story req tr s c) (hsent : sentOn c s e = []) (hans : answered req c s e = [])
    (hd : s.dialled ≤ t.dialled) (hat : ∀ p, At t p c → ∃ q, At s q c)
    (hstream : (t.streams c).rest = (s.streams c).rest) : Story req (tr ++ [(s, e)]) t c := by
  have hs : logOf (sentOn c) (tr ++ [(s, e)]) = logOf (sentOn c) tr := by
    rw [logOf_snoc, hsent, append_nil]
  have ha : logOf (answered req c) (tr ++ [(s, e)]) = logOf (answered req c) tr := by
    rw [logOf_snoc, hans, append_nil]
  refine ⟨fun hc => ?_, fun p hp => ?_, ?_⟩
  · rw [hs, ha]
    exact h.undialled (hd.trans hc)
  · obtain ⟨q, hq⟩ := hat p hp
    rw [hs, ha, hstream]
    exact h.live q hq
  · rw [hs, ha]
    exact h.apart

/-! ### Every step keeps the story -/

variable {i : ι}

/-- An exchange on another connection leaves nothing here. -/
theorem answered_of_ne {d : ℕ} {reused : Bool} (hi : s.calls i = .holding d reused)
    (h : d ≠ c) : answered req c s (.exchange i writes expired) = [] := by
  simp only [answered, hi, if_neg h]

theorem answered_ok {reused : Bool} (hi : s.calls i = .holding c reused)
    (h : exchange (req i) writes (s.streams c) = .ok reply r) :
    answered req c s (.exchange i writes expired) = [⟨(req i).head, reply⟩] := by
  simp only [answered, hi, if_true, h]

theorem answered_error {reused : Bool} {e : Fault}
    (hi : s.calls i = .holding c reused) (h : exchange (req i) writes (s.streams c) = .error e r) :
    answered req c s (.exchange i writes expired) = [] := by
  simp only [answered, hi, if_true, h]

variable {tr : List (State ι × Event ι)} {s t : State ι}

/-- The last answer of a connection that is not handed back. -/
theorem Story.last {reused : Bool} (h : Story req tr s c) (hi : s.calls i = .holding c reused) :
    Apart (logOf (sentOn c) tr)
      (logOf (answered req c) tr ++ answered req c s (.exchange i writes expired)) := by
  obtain ⟨ranges, hsent, hwhole⟩ := h.live (some i) ⟨reused, hi⟩
  rw [hsent]
  cases hx : exchange (req i) writes (s.streams c) with
  | ok =>
    rw [answered_ok hi hx]
    exact apart_snoc hwhole (exchange_parses hx)
  | error =>
    rw [answered_error hi hx, append_nil]
    exact apart_of_whole hwhole

/-- The answer of a connection that is handed back covers the next range. -/
theorem Live.snoc {sent rest' : Bytes} (h : Live sent rest answers) (hrest : rest = b ++ rest')
    (ha : Whole b a) : Live sent rest' (answers ++ [a]) := by
  obtain ⟨ranges, rfl, hwhole⟩ := h
  exact ⟨ranges ++ [b], by simp [hrest], rel_append hwhole (.cons ha .nil)⟩

theorem Live.apart {sent : Bytes} (h : Live sent rest answers) : Apart sent answers := by
  obtain ⟨ranges, rfl, hwhole⟩ := h
  exact apart_of_whole hwhole

variable [DecidableEq ι]

theorem story_step {e : Event ι} (ho : Owned s) (h : Story req tr s c) (hc : Change req s e t) :
    Story req (tr ++ [(s, e)]) t c := by
  have hat : ∀ p, At t p c → (∃ q, At s q c) ∨ c = s.dialled ∧ ∃ i stream, e = .dial i stream :=
    fun p hp => at_of_change hc hp
  cases hc with
  | wait quiet _ | pass quiet _ _ _ | reuse quiet _ _ =>
    refine h.frame (sentOn_quiet quiet c) (answered_quiet quiet c) le_rfl (fun p hp => ?_) rfl
    exact (hat p hp).resolve_right (by rintro ⟨-, i, stream, rfl⟩; cases quiet)
  | @dial i stream _ =>
    by_cases hcd : c = s.dialled
    · obtain ⟨hsent, hans⟩ := h.undialled hcd.ge
      have hsent' : logOf (sentOn c) (tr ++ [(s, .dial i stream)]) = stream.rest := by
        rw [logOf_snoc, hsent, sentOn, if_pos hcd.symm, nil_append]
      have hans' : logOf (answered req c) (tr ++ [(s, .dial i stream)]) = [] := by
        rw [logOf_snoc, hans]
        rfl
      have hlive : Live stream.rest stream.rest [] := ⟨[], rfl, .nil⟩
      refine ⟨fun hle => ?_, fun p _ => ?_, ?_⟩
      · exact absurd (lt_of_succ_le hle) (hcd ▸ lt_irrefl c)
      · rw [hsent', hans', hcd]
        simpa only [State.set, State.read, update_self] using hlive
      · rw [hsent', hans']
        exact hlive.apart
    · refine h.frame (if_neg (Ne.symm hcd)) rfl (le_succ _) (fun p hp => ?_) ?_
      · exact (hat p hp).resolve_right fun hd => hcd hd.1
      · simp only [State.set, State.read, update_of_ne hcd]
  | @handBack i d reused writes expired reply r pool holds got clean =>
    obtain rfl | hd := eq_or_ne d c
    · obtain ⟨b, hrest, hwhole⟩ := exchange_clean got clean
      have hlive := (h.live (some i) ⟨reused, holds⟩).snoc hrest hwhole
      have hans : logOf (answered req d) (tr ++ [(s, .exchange i writes expired)]) =
          logOf (answered req d) tr ++ [⟨(req i).head, reply⟩] := by
        rw [logOf_snoc, answered_ok holds got]
      have hsent : logOf (sentOn d) (tr ++ [(s, .exchange i writes expired)]) =
          logOf (sentOn d) tr := by
        rw [logOf_snoc]
        exact append_nil _
      refine ⟨fun hle => ?_, fun p _ => ?_, ?_⟩
      · exact absurd (ho.dialled (some i) d ⟨reused, holds⟩) (not_lt.2 hle)
      · rw [hans, hsent]
        simpa only [State.set, State.read, update_self] using hlive
      · rw [hans, hsent]
        exact hlive.apart
    · refine h.frame rfl (answered_of_ne holds hd) le_rfl (fun p hp => ?_) ?_
      · exact (hat p hp).resolve_right (by rintro ⟨-, j, stream, hj⟩; cases hj)
      · simp only [State.set, State.read, update_of_ne (Ne.symm hd)]
  | @drop i d reused writes expired stream call holds after =>
    obtain rfl | hd := eq_or_ne d c
    · refine ⟨fun hle => ?_, fun p hp => absurd hp (not_at_drop ho holds after p), ?_⟩
      · exact absurd (ho.dialled (some i) d ⟨reused, holds⟩) (not_lt.2 hle)
      · rw [logOf_snoc, logOf_snoc]
        have hlast : Apart (logOf (sentOn d) tr ++ [])
            (logOf (answered req d) tr ++ answered req d s (.exchange i writes expired)) := by
          rw [append_nil]
          exact h.last holds
        exact hlast
    · refine h.frame rfl (answered_of_ne holds hd) le_rfl (fun p hp => ?_) ?_
      · exact (hat p hp).resolve_right (by rintro ⟨-, j, stream, hj⟩; cases hj)
      · simp only [State.set, State.read, update_of_ne (Ne.symm hd)]

theorem story_run (h : Run (step req) {} tr s) (c : ℕ) : Story req tr s c := by
  induction h with
  | start => exact .init c
  | next hr hs ih => exact story_step (owned_run hr) ih (change_of_step hs)

/-- A connection that a call puts into the pool has given exactly the bytes its response counts. -/
theorem rest_of_handedBack {reused : Bool} (ho : Owned s) (hi : s.calls i = .holding c reused)
    (hstep : step req s (.exchange i writes expired) = some t) (hc : c ∈ t.pool.streams) :
    ∃ reply r, exchange (req i) writes (s.streams c) = .ok reply r ∧ reply.reusable = true ∧
      (s.streams c).rest.length = reply.consumed + (t.streams c).rest.length := by
  cases change_of_step hstep with
  | wait quiet | pass quiet | reuse quiet => cases quiet
  | handBack holds got clean _ =>
    cases hi.symm.trans holds
    obtain ⟨b, hrest, hwhole⟩ := exchange_clean got clean
    refine ⟨_, _, got, hwhole.reusable, ?_⟩
    simp only [State.set, State.read, update_self]
    rw [hrest, length_append, hwhole.consumed]
  | drop holds after =>
    cases hi.symm.trans holds
    exact absurd hc (not_at_drop ho holds after none)

/-- **Pooled exchanges cannot leak into each other.** A reusable response is a function of the bytes
it has consumed; a connection goes to the pool only if exactly those were read off the socket; and
in every run the responses read off one connection are parsed from consecutive ranges of what the
peer sends on it. -/
theorem pooledRequest_apart (req : ι → Request) :
    (∀ (headRequest : Bool) (r r' : BufferedReader) (reply : Reply),
      (readResponse headRequest).run r = .ok reply r' → reply.reusable = true →
      reply.consumed ≤ r.pending.length ∧
      ∀ r₂ : BufferedReader, r₂.maxLineBytes = r.maxLineBytes →
        r₂.pending.take reply.consumed = r.pending.take reply.consumed →
        ∃ r₂', (readResponse headRequest).run r₂ = .ok reply r₂') ∧
    ∀ (tr : List (State ι × Event ι)) (s : State ι), Run (step req) {} tr s →
      (∀ p ∈ tr, ∀ i writes expired c reused t, p.2 = .exchange i writes expired →
        p.1.calls i = .holding c reused → step req p.1 p.2 = some t → c ∈ t.pool.streams →
        ∃ reply r, exchange (req i) writes (p.1.streams c) = .ok reply r ∧ reply.reusable = true ∧
          (p.1.streams c).rest.length = reply.consumed + (t.streams c).rest.length) ∧
      ∀ c, Apart (logOf (sentOn c) tr) (logOf (answered req c) tr) := by
  refine ⟨fun head r r' reply hr hreuse => ?_, fun tr s hrun => ⟨?_, fun c => ?_⟩⟩
  · obtain ⟨b, hmoves, hreads, hb⟩ := local_readResponse head r reply r' rfl hr hreuse
    have hb : reply.consumed = b.length := by rwa [Counts, zero_add] at hb
    have hp : r.pending = b ++ r'.pending := hmoves.pending
    refine ⟨by rw [hp, hb, length_append]; exact le_add_right _ _, fun r₂ hmax htake => ?_⟩
    rw [hp, hb, take_left] at htake
    have hp₂ : r₂.pending = b ++ r₂.pending.drop b.length := by
      conv_lhs => rw [← take_append_drop b.length r₂.pending, htake]
    obtain ⟨r₂', hr₂, -⟩ := hreads r₂ (r₂.pending.drop b.length) hmax hp₂
    exact ⟨r₂', hr₂⟩
  · rintro ⟨u, e⟩ hp i writes expired c reused t rfl hi hstep hc
    obtain ⟨tr', -, hr, -, -⟩ := hrun.before hp
    exact rest_of_handedBack (owned_run hr) hi hstep hc
  · exact (story_run hrun c).apart

/-! ### Two requests on one connection -/

/-- What the peer answers with. -/
def twoReplies : Bytes := bytes "HTTP/1.1 200 OK\r\nContent-Length: 2\r\n\r\nhi" ++
    bytes "HTTP/1.1 404 Not Found\r\nContent-Length: 0\r\n\r\n"

def twoCalls (i : Bool) : Request where
  key := bytes "example.org:80"
  message := bytes (if i then "GET /b HTTP/1.1\r\n\r\n" else "GET /a HTTP/1.1\r\n\r\n")
  head := false
  idempotent := true

/-- The second call takes the connection of the first out of the pool. -/
def reused : List (Event Bool) :=
  [.start false, .acquire false false, .dial false { rest := twoReplies, cuts := [40] },
    .exchange false true false, .tick 5, .start true, .acquire true false,
    .exchange true true false]

theorem pooledRequest_apart_reused : ∃ tr s, Run (step twoCalls) {} tr s ∧ s.dialled = 1 ∧
      (logOf (answered twoCalls 0) tr).map (·.reply.resp.status) = [200, 404] ∧
      Apart (logOf (sentOn 0) tr) (logOf (answered twoCalls 0) tr) := by
  have hr : Run (step twoCalls) {} _ _ := .follow reused (by decide +kernel)
  exact ⟨_, _, hr, by decide +kernel, by decide +kernel,
    ((pooledRequest_apart twoCalls).2 _ _ hr).2 0⟩

end Manwe.PooledRequest
