import Manwe.Data.Table
import Manwe.Soccer.Http.Lexical
import Manwe.Transition.Run

/-!
# The pool of HTTP/2 connections

`Http2ConnectionPool` (`Http2.cpp`): one connection for each host, port and TLS configuration,
shared by every caller that asks for it while it is open. The table is keyed by a **string built by
hand**: host, port and options, set off by bars. `acquire` looks the key up under the mutex,
connects outside of it, and files the new connection with `insertLocked`, which prefers a live
connection another caller has filed meanwhile.

A connection is known by its number, in the order of connecting. It is closed for the pool from some
moment on; which one is up to the environment.

The key tells configurations apart as long as no option has a bar in it (`Target.key_inj`): the bars
are then the last six of the key, whatever the host.
-/

namespace Manwe.Http2.ConnectionPool

open Http List

variable {ι : Type} [DecidableEq ι]

/-- `TlsClientOptions`, without the timeouts. -/
structure TlsClientOptions where
  insecureNoVerifyCert : Bool := false
  insecureNoVerifyName : Bool := false
  caBundleFile : Bytes := []
  caBundleDir : Bytes := []
  clientCertFile : Bytes := []
  clientKeyFile : Bytes := []
  alpnProtocols : Bytes := []
  deriving DecidableEq

/-- `Http2ConnectionPool::keyOf`. -/
def keyOf (host : Bytes) (port : ℕ) : Bytes := host ++ [58] ++ decimal port

/-- A flag as the key spells it. -/
def flag (b : Bool) : UInt8 := if b then 49 else 48

/-- The key of `acquire`. -/
def tlsKey (host : Bytes) (port : ℕ) (opts : TlsClientOptions) : Bytes :=
  keyOf host port ++ [124] ++ opts.caBundleFile ++ [124] ++ opts.clientCertFile ++ [124] ++
    opts.alpnProtocols ++ [124] ++ opts.caBundleDir ++ [124] ++ opts.clientKeyFile ++ [124] ++
    [flag opts.insecureNoVerifyCert, flag opts.insecureNoVerifyName]

/-- What a call asks for: `acquirePlain` comes without options. -/
structure Target where
  host : Bytes
  port : ℕ
  opts : Option TlsClientOptions
  deriving DecidableEq

def Target.key (t : Target) : Bytes := match t.opts with
  | none => keyOf t.host t.port
  | some opts => tlsKey t.host t.port opts

/-- Where a call stands. -/
inductive Call where
  | idle
  /-- nothing live was found under the key -/
  | connecting (target : Target)
  /-- before `insertLocked` -/
  | connected (target : Target) (conn : ℕ)
  | returned (target : Target) (conn : ℕ)
  | failed
  deriving DecidableEq

/-- `kMaxEntries`. -/
def maxEntries : ℕ := 256

structure State (ι : Type) where
  entries : Table Bytes ℕ := .empty
  limit : ℕ := maxEntries
  /-- connections made so far -/
  made : ℕ := 0
  closed : ℕ → Bool := fun _ => false
  calls : ι → Call := fun _ => .idle

/-- A caller is at its next place. -/
def State.put (s : State ι) (i : ι) (c : Call) : State ι :=
  { s with calls := Function.update s.calls i c }

/-- `Http2ConnectionPool::insertLocked`: the connection to use, and the table. -/
def insertLocked (s : State ι) (k : Bytes) (conn : ℕ) : ℕ × Table Bytes ℕ :=
  match s.entries.find k with
  | some found =>
    if s.closed found then (conn, s.entries.adjust k fun _ => conn) else (found, s.entries)
  | none =>
    if s.entries.size ≥ s.limit then
      let live := s.entries.filter fun _ c => !s.closed c
      if live.size ≥ s.limit then (conn, live) else (conn, live.emplace k conn)
    else (conn, s.entries.emplace k conn)

/-- The keys `evict` drops: the plain one, and the ones that go on with a bar. -/
def evicts (k ek : Bytes) : Bool :=
  ek == k || (ek.length > k.length && ek.take k.length == k && ek[k.length]? == some 124)

inductive Event (ι : Type) where
  /-- the first section of `acquire` and `acquirePlain` -/
  | acquire (i : ι) (target : Target)
  | connect (i : ι)
  | connectFails (i : ι)
  /-- the second section -/
  | insert (i : ι)
  | evict (host : Bytes) (port : ℕ)
  /-- a connection is closed, or takes no more requests -/
  | close (conn : ℕ)
  deriving DecidableEq

def step (s : State ι) : Event ι → Option (State ι)
  | .acquire i t =>
    match s.calls i with
    | .idle =>
      match s.entries.find t.key with
      | some c =>
        if s.closed c then
          some ({ s with entries := s.entries.erase t.key }.put i (.connecting t))
        else some (s.put i (.returned t c))
      | none => some (s.put i (.connecting t))
    | _ => none
  | .connect i =>
    match s.calls i with
    | .connecting t => some ({ s with made := s.made + 1 }.put i (.connected t s.made))
    | _ => none
  | .connectFails i =>
    match s.calls i with
    | .connecting _ => some (s.put i .failed)
    | _ => none
  | .insert i =>
    match s.calls i with
    | .connected t c =>
      let used := insertLocked s t.key c
      some ({ s with entries := used.2 }.put i (.returned t used.1))
    | _ => none
  | .evict host port =>
    some { s with entries := s.entries.filter fun ek _ => !evicts (keyOf host port) ek }
  | .close c => some { s with closed := Function.update s.closed c true }

/-! ### The key -/

/-- No option has a bar in it. -/
def TlsClientOptions.Unbarred (o : TlsClientOptions) : Prop :=
  124 ∉ o.caBundleFile ∧ 124 ∉ o.clientCertFile ∧ 124 ∉ o.alpnProtocols ∧ 124 ∉ o.caBundleDir ∧
    124 ∉ o.clientKeyFile

instance (o : TlsClientOptions) : Decidable o.Unbarred :=
  inferInstanceAs (Decidable (_ ∧ _ ∧ _ ∧ _ ∧ _))

def Target.Unbarred (t : Target) : Prop := ∀ o ∈ t.opts, o.Unbarred

instance (t : Target) : Decidable t.Unbarred :=
  inferInstanceAs (Decidable (∀ o ∈ t.opts, TlsClientOptions.Unbarred o))

/-- A separator the last parts do not have sets them off. -/
theorem append_sep_inj {x x' y y' : Bytes} {c : UInt8} (hy : c ∉ y) (hy' : c ∉ y')
    (h : x ++ [c] ++ y = x' ++ [c] ++ y') : x = x' ∧ y = y' := by
  simp only [append_assoc, singleton_append] at h
  obtain ⟨m, hx, hm⟩ | ⟨m, hx, hm⟩ := append_eq_append_iff.1 h
  · cases m with
    | nil => exact ⟨by simpa using hx.symm, by simpa using hm⟩
    | cons =>
      obtain ⟨-, rfl⟩ := cons.inj hm
      exact absurd (mem_append_right _ mem_cons_self) hy
  · cases m with
    | nil => exact ⟨by simpa using hx, by simpa using hm.symm⟩
    | cons =>
      obtain ⟨-, rfl⟩ := cons.inj hm
      exact absurd (mem_append_right _ mem_cons_self) hy'

theorem flag_inj {a b : Bool} (h : flag a = flag b) : a = b := by
  revert a b
  decide

theorem notMem_decimal {c : UInt8} (hc : isDigit c = false) (n : ℕ) : c ∉ decimal n :=
  fun h => by rw [isDigit_decimal h] at hc; cases hc

variable {host host' : Bytes} {port port' : ℕ}

theorem keyOf_inj (h : keyOf host port = keyOf host' port') : host = host' ∧ port = port' := by
  obtain ⟨rfl, hp⟩ := append_sep_inj (notMem_decimal rfl _) (notMem_decimal rfl _) h
  exact ⟨rfl, by rw [← stoull_decimal port, hp, stoull_decimal]⟩

theorem flags_unbarred (a b : Bool) : (124 : UInt8) ∉ [flag a, flag b] := by
  revert a b
  decide

theorem tlsKey_inj {o o' : TlsClientOptions} (ho : o.Unbarred) (ho' : o'.Unbarred)
    (h : tlsKey host port o = tlsKey host' port' o') : host = host' ∧ port = port' ∧ o = o' := by
  obtain ⟨hfile, hcert, halpn, hdir, hkey⟩ := ho
  obtain ⟨hfile', hcert', halpn', hdir', hkey'⟩ := ho'
  obtain ⟨h, heq⟩ := append_sep_inj (flags_unbarred _ _) (flags_unbarred _ _) h
  obtain ⟨h, ekey⟩ := append_sep_inj hkey hkey' h
  obtain ⟨h, edir⟩ := append_sep_inj hdir hdir' h
  obtain ⟨h, ealpn⟩ := append_sep_inj halpn halpn' h
  obtain ⟨h, ecert⟩ := append_sep_inj hcert hcert' h
  obtain ⟨h, efile⟩ := append_sep_inj hfile hfile' h
  obtain ⟨rfl, rfl⟩ := keyOf_inj h
  obtain ⟨hc, hn⟩ := cons.inj heq
  have ec := flag_inj hc
  have en := flag_inj (cons.inj hn).1
  cases o
  cases o'
  simp_all

/-- A plain key ends in a colon and digits, a key with options in a bar and two flags. -/
theorem keyOf_ne_tlsKey {o : TlsClientOptions} : keyOf host port ≠ tlsKey host' port' o := by
  intro h
  have h := congrArg reverse h
  rw [keyOf, tlsKey] at h
  have hdigit : ∀ c ∈ (decimal port).reverse, isDigit c = true := fun c hc =>
    isDigit_decimal (mem_reverse.1 hc)
  have hcolon : ∀ b, flag b ≠ 58 := by decide
  simp only [reverse_append, reverse_cons, reverse_nil, nil_append, cons_append] at h
  match hd : (decimal port).reverse with
  | [] => exact decimal_ne_nil port (reverse_eq_nil_iff.1 hd)
  | [a] =>
    rw [hd] at h
    exact hcolon _ (by simpa using (cons.inj (cons.inj h).2).1.symm)
  | [a, b] =>
    rw [hd] at h
    simp at h
  | a :: b :: c :: rest =>
    rw [hd] at h hdigit
    have hc := hdigit c (by simp)
    obtain ⟨-, -, rfl, -⟩ : a = _ ∧ b = _ ∧ c = 124 ∧ _ := by simpa using h
    cases hc

/-- **The key tells targets apart** if no option has a bar in it. -/
theorem Target.key_inj {t t' : Target} (ht : t.Unbarred) (ht' : t'.Unbarred) (h : t.key = t'.key) :
    t = t' := by
  obtain ⟨host, port, opts⟩ := t
  obtain ⟨host', port', opts'⟩ := t'
  cases opts with
  | none =>
    cases opts' with
    | none =>
      obtain ⟨rfl, rfl⟩ := keyOf_inj h
      rfl
    | some => exact absurd h keyOf_ne_tlsKey
  | some o =>
    cases opts' with
    | none => exact absurd h.symm keyOf_ne_tlsKey
    | some o' =>
      obtain ⟨rfl, rfl, rfl⟩ := tlsKey_inj (ht o rfl) (ht' o' rfl) h
      rfl

end Manwe.Http2.ConnectionPool
