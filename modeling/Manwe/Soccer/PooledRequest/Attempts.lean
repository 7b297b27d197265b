import Manwe.Soccer.PooledRequest.Runs

/-!
# When a request is repeated

A call puts its request on **at most two connections**: after an attempt on a pooled connection
failed in time it dials another one, once, if the method is idempotent and no response was seen.
Whether one was seen is settled by `readResponse` when it has the first line. A connection that
breaks off inside that line, or brings more than the limit without its end, counts as one that sent
nothing; where that does not happen (`unbroken`), not a byte was received before a request is
repeated.
-/

namespace Manwe.PooledRequest

open Http HttpClient HttpConnectionPool BufferedReader Tape EStateM Function

variable {ι : Type} [DecidableEq ι] {req : ι → Request} {s t : State ι} {e : Event ι} {i : ι}

/-- `HttpClient::isIdempotentMethod`. -/
def isIdempotentMethod (m : Bytes) : Bool :=
  ["GET", "HEAD", "PUT", "DELETE", "OPTIONS", "TRACE"].any fun idem => iequalsAscii m (bytes idem)

/-- What `pooledRequest` makes of its arguments. -/
def requests (method key message : ι → Bytes) (i : ι) : Request where
  key := key i
  message := message i
  head := iequalsAscii (method i) (bytes "HEAD")
  idempotent := isIdempotentMethod (method i)

/-- One attempt, with the number of bytes the reads have returned. -/
structure Attempt where
  reused : Bool
  expired : Bool
  received : ℕ
  deriving DecidableEq

def received : Result Fault BufferedReader Reply → ℕ
  | .ok _ r | .error _ r => r.stream.total

/-- The attempts of the call `i`. -/
def attempts (req : ι → Request) (i : ι) (s : State ι) : Event ι → List Attempt
  | .exchange j writes expired =>
    match s.calls j with
    | .holding c reused =>
      if j = i then [⟨reused, expired, received (exchange (req j) writes (s.streams c))⟩] else []
    | _ => []
  | _ => []

/-- The first line of a reused connection comes, or its read fails **before the first byte**. -/
def unbroken (req : ι → Request) (s : State ι) : Event ι → Bool
  | .exchange i writes _ =>
    match s.calls i with
    | .holding c true =>
      match (do write (req i).message; readLine).run
        (reader (s.streams c) writes) with
      | .ok _ _ => true
      | .error _ r => r.stream.total == 0
    | _ => true
  | _ => true

/-! ### One attempt -/

variable {r : BufferedReader}

/-- An empty line is the end of a stream that has brought nothing. -/
theorem total_of_readLine_nil {r' : BufferedReader} (hu : r.unread = [])
    (h : readLine.run r = .ok [] r') : r'.stream.total = r.stream.total := by
  have hout := readLine_outcome r
  rw [h] at hout
  generalize hres : Result.ok [] r' = res at hout
  cases hout with
  | found => simp at hres
  | ended hm =>
    obtain ⟨hnil, rfl⟩ := Result.ok.inj hres
    have hp := hm.pending
    have htotal := hm.total
    rw [← show [] = r.pending from hnil] at hp htotal
    obtain ⟨hu', -⟩ : r'.unread = [] ∧ _ := List.append_eq_nil_iff.1 hp.symm
    simpa [hu, hu'] using htotal
  | long | dry => cases hres

variable {q : Request} {writes : Bool}

/-- An attempt that fails before a line was seen has received nothing, or fails in its first
line. -/
theorem exchange_unseen {σ : TcpStream} {f : Fault} (h : exchange q writes σ = .error f r)
    (hsaw : sawResponse q writes σ = false) : r.stream.total = 0 ∨
      (do write q.message; readLine).run (reader σ writes) = .error f r := by
  obtain hw | ⟨⟨⟩, r₁, hw, hr⟩ := run_bind_error.1 h
  · exact .inr (run_bind_error.2 (.inl hw))
  · have hhead : ∀ f' r', (readHead 0 0).run r₁ = .error f' r' → f = f' ∧ r = r' := by
      intro f' r' hf
      have hf : (readResponse q.head).run r₁ = .error f' r' :=
        run_bind_error.2 (.inl (run_bind_error.2 (.inl hf)))
      exact Result.error.inj (hr.symm.trans hf)
    cases hl : readLine.run r₁ with
    | error f' r' =>
      obtain ⟨rfl, rfl⟩ := hhead f' r' (run_bind_error.2 (.inl hl))
      exact .inr (run_bind_error.2 (.inr ⟨(), r₁, hw, hl⟩))
    | ok line r' =>
      have hnil : line = [] := by simpa [sawResponse, run_bind_of_ok hw, hl] using hsaw
      subst hnil
      obtain ⟨-, rfl⟩ := hhead _ r' (run_bind_error.2 (.inr ⟨[], r', hl, rfl⟩))
      obtain ⟨-, rfl⟩ := write_ok hw
      exact .inl (total_of_readLine_nil rfl hl)

/-! ### One call -/

/-- The attempt may be followed by another. -/
structure Repeats (q : Request) (a : Attempt) : Prop where
  idempotent : q.idempotent = true
  reused : a.reused = true
  expired : a.expired = false
  received : a.received = 0

/-- What a call has tried before an attempt, or before it gives up. -/
def Before (q : Request) (l : List Attempt) : Prop := l = [] ∨ ∃ a, l = [a] ∧ Repeats q a

/-- What a call can have tried in all. -/
def Done (q : Request) (l : List Attempt) : Prop :=
  l.length ≤ 1 ∨ ∃ a b, l = [a, b] ∧ Repeats q a ∧ b.reused = false

/-- What a call has tried, by where it stands. -/
def Tried (q : Request) (l : List Attempt) : Call → Prop
  | .idle | .acquiring | .holding _ true => l = []
  | .dialling | .holding _ false => Before q l
  | .returned _ | .failed => Done q l

variable {l : List Attempt}

theorem Before.done (h : Before q l) : Done q l := by
  obtain rfl | ⟨a, rfl, -⟩ := h
  · exact .inl (Nat.zero_le 1)
  · exact .inl le_rfl

/-- An attempt with nothing after it. -/
theorem Tried.last {c : ℕ} {a : Attempt}
    (h : Tried q l (.holding c a.reused)) : Done q (l ++ [a]) := by
  cases hr : a.reused with
  | true =>
    rw [hr] at h
    rw [show l = [] from h]
    exact .inl le_rfl
  | false =>
    rw [hr] at h
    obtain rfl | ⟨b, rfl, hb⟩ := (show Before q l from h)
    · exact .inl le_rfl
    · exact .inr ⟨b, a, rfl, hb, hr⟩

/-- An exchange ends the call, or the call dials again. -/
theorem exchange_step {expired : Bool} (hs : step req s (.exchange i writes expired) = some t) :
    ∃ c reused call, s.calls i = .holding c reused ∧ t.calls = update s.calls i call ∧
      ((∃ resp, call = .returned resp) ∨ call = .failed ∨ call = .dialling ∧ expired = false ∧
        reused = true ∧ (req i).idempotent = true ∧
        ∃ f r, exchange (req i) writes (s.streams c) = .error f r ∧
          sawResponse (req i) writes (s.streams c) = false) := by
  simp only [step] at hs
  repeat' first | cases hs | split at hs
  · next c reused hi _ reply _ _ =>
    refine ⟨c, reused, .returned reply.resp, hi, ?_, .inl ⟨_, rfl⟩⟩
    split <;> rfl
  · next c reused hi _ f r hx _ hre =>
    simp only [Bool.and_eq_true, Bool.not_eq_true'] at hre
    obtain ⟨⟨⟨hexp, hreused⟩, hidem⟩, hsaw⟩ := hre
    exact ⟨c, reused, _, hi, rfl, .inr (.inr ⟨rfl, hexp, hreused, hidem, f, r, hx, hsaw⟩)⟩
  · next c reused hi _ _ _ _ _ _ => exact ⟨c, reused, _, hi, rfl, .inr (.inl rfl)⟩

theorem tried_step (hs : step req s e = some t) (hok : unbroken req s e = true)
    (h : Tried (req i) l (s.calls i)) : Tried (req i) (l ++ attempts req i s e) (t.calls i) := by
  have hset {j : ι} {c call : Call} (hj : s.calls j = c)
      (hc : Tried (req i) l c → Tried (req i) l call) :
      Tried (req i) (l ++ []) (update s.calls j call i) := by
    obtain rfl | hij := eq_or_ne i j
    · simpa using hc (hj ▸ h)
    · simpa [hij] using h
  cases e with simp only [step] at hs
  | tick | configure =>
    cases hs
    exact (List.append_nil l).symm ▸ h
  | start | dial =>
    split at hs <;> cases hs
    next hj => exact hset hj id
  | dialFails =>
    split at hs <;> cases hs
    next hj => exact hset hj Before.done
  | acquire =>
    split at hs
    · next hj =>
      split at hs <;> cases hs
      · exact hset hj .inl
      · exact hset hj fun h => by split <;> exact h
    · cases hs
  | exchange j =>
    obtain ⟨c, reused, call, hj, ht, hcall⟩ := exchange_step hs
    simp only [attempts, hj, ht]
    obtain rfl | hij := eq_or_ne j i
    · rw [hj] at h
      rw [if_pos rfl, update_self]
      obtain ⟨resp, rfl⟩ | rfl | ⟨rfl, rfl, rfl, hidem, f, r, hx, hsaw⟩ := hcall
      · exact h.last
      · exact h.last
      · rw [show l = [] from h]
        refine .inr ⟨_, rfl, hidem, rfl, rfl, ?_⟩
        simp only [hx, received]
        obtain hzero | hline := exchange_unseen hx hsaw
        · exact hzero
        · simpa [unbroken, hj, hline] using hok
    · simpa [hij, Ne.symm hij] using h

theorem tried_run {tr : List (State ι × Event ι)} (h : Run (step req) {} tr s)
    (hok : ∀ p ∈ tr, unbroken req p.1 p.2 = true) (i : ι) :
    Tried (req i) (logOf (attempts req i) tr) (s.calls i) := by
  refine h.induct (fun s e => unbroken req s e = true) hok rfl fun _ _ ih hok hs => ?_
  rw [logOf_snoc]
  exact tried_step hs hok ih

theorem Tried.done : ∀ {call : Call}, Tried q l call → Done q l
  | .idle, h | .acquiring, h | .holding _ true, h => Before.done (.inl h)
  | .dialling, h | .holding _ false, h => Before.done h
  | .returned _, h | .failed, h => h

/-- **A request is repeated only when it is safe**: there are two attempts at most, and a second
one is made on a new connection, for an idempotent method, after an attempt on a pooled connection
whose deadline had not expired and on which no byte was received. -/
theorem pooledRequest_repeats {method key message : ι → Bytes} {tr : List (State ι × Event ι)}
    (h : Run (step (requests method key message)) {} tr s)
    (hok : ∀ p ∈ tr, unbroken (requests method key message) p.1 p.2 = true) (i : ι) :
    Done (requests method key message i) (logOf (attempts (requests method key message) i) tr) :=
  (tried_run h hok i).done

/-- Two requests for one host. -/
def gets : Bool → Request :=
  requests (fun _ => bytes "GET") (fun _ => []) fun _ => bytes "GET / HTTP/1.1\r\n\r\n"

/-- The pooled connection breaks after `n` bytes of what `twoReplies` has. -/
def breaksAfter (n : ℕ) : List (Event Bool) := [.start false, .acquire false false,
    .dial false { rest := twoReplies.take n, cuts := [40], ending := .reset },
    .exchange false true false, .start true, .acquire true false, .exchange true true false,
    .dial true { rest := twoReplies.take 40 }, .exchange true true false]

theorem pooledRequest_repeats_reset :
    ∃ tr s, Run (step gets) {} tr s ∧ (logOf (attempts gets true) tr).length = 2 ∧
      Done (gets true) (logOf (attempts gets true) tr) := by
  have h : Run (step gets) {} _ _ := .follow (breaksAfter 40) (by decide +kernel)
  exact ⟨_, _, h, by decide +kernel, pooledRequest_repeats h (by decide +kernel) true⟩

/-- **A reset inside the first line**: the request is repeated after four bytes of a response. -/
theorem request_repeated : ∃ tr s, Run (step gets) {} tr s ∧
    (logOf (attempts gets true) tr).map (·.received) = [4, 40] :=
  Run.exists_of_exec (breaksAfter 44) (by decide +kernel)

end Manwe.PooledRequest
