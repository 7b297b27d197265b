import Mathlib
import Manwe.Soccer.Http

/-!
# The pool of idle connections

`HttpConnectionPool` (`HttpClient.h`): idle keep-alive connections by host and port, the most
recently used one handed out first, with an age limit, a cap for each host and a cap on the hosts.
A host with nothing idle keeps no entry, so the table is the list of its connections, oldest first;
the deque of a host is the part of the list under its key.

Every operation runs under the pool's mutex. What they do to the connections is said by
`acquire_some` and `release_sublist`: a connection that is handed out leaves the pool, and nothing
gets in but what is released.
-/

namespace Manwe.HttpConnectionPool

open Http List

variable {γ : Type}

/-- `HttpConnectionPool::keyOf`. -/
def keyOf (host : Bytes) (port : ℕ) : Bytes := host ++ [58] ++ decimal port

/-- `IdleConn`, with the key it is filed under; times are in nanoseconds. -/
structure IdleConn (γ : Type) where
  key : Bytes
  stream : γ
  lastUsed : ℕ
  deriving DecidableEq

/-- `kMaxHosts`. -/
def maxHosts : ℕ := 256

structure Pool (γ : Type) where
  idle : List (IdleConn γ) := []
  maxIdlePerHost : ℕ := 16
  maxIdleAgeMs : ℤ := 30000

/-- Idle for longer than the limit; a limit of zero is none. -/
def Pool.stale (p : Pool γ) (now : ℕ) (c : IdleConn γ) : Bool :=
  p.maxIdleAgeMs > 0 && ((now - c.lastUsed) / 1000000 : ℕ) > p.maxIdleAgeMs

/-- The keys of the table. -/
def Pool.hosts (p : Pool γ) : List Bytes := (p.idle.map (·.key)).dedup

/-- The last connection of a host's deque. -/
def back (key : Bytes) (idle : List (IdleConn γ)) : Option (IdleConn γ) :=
  idle.reverse.find? (·.key == key)

/-- The table without the last connection of a host's deque. -/
def popBack (key : Bytes) (idle : List (IdleConn γ)) : List (IdleConn γ) :=
  (idle.reverse.eraseP (·.key == key)).reverse

/-- Drop from the front of each deque what satisfies `old`; `kept` are the keys of the deques that
have been seen to start with something else. -/
def dropOld (old : IdleConn γ → Bool) : List Bytes → List (IdleConn γ) → List (IdleConn γ)
  | _, [] => []
  | kept, c :: cs =>
    if old c && !kept.contains c.key then dropOld old kept cs
    else c :: dropOld old (c.key :: kept) cs

/-- `HttpConnectionPool::acquire`. -/
def Pool.acquire (p : Pool γ) (key : Bytes) (now : ℕ) : Option γ × Pool γ :=
  match back key p.idle with
  | none => (none, p)
  | some c =>
    if p.stale now c then (none, { p with idle := p.idle.filter (·.key != key) })
    else (some c.stream, { p with idle := popBack key p.idle })

/-- The table is full and the key is not in it: every host drops its stale connections. -/
def Pool.makeRoom (p : Pool γ) (key : Bytes) (now : ℕ) : Pool γ :=
  if p.hosts.length ≥ maxHosts ∧ key ∉ p.hosts then
    { p with idle := dropOld (p.stale now) [] p.idle }
  else p

/-- `HttpConnectionPool::release`. -/
def Pool.release (p : Pool γ) (key : Bytes) (now : ℕ) (stream : γ) : Pool γ :=
  let p := p.makeRoom key now
  if p.hosts.length ≥ maxHosts ∧ key ∉ p.hosts then p
  else
    let p := { p with idle := dropOld (fun c => c.key == key && p.stale now c) [] p.idle }
    if (p.idle.filter (·.key == key)).length ≥ p.maxIdlePerHost then p
    else { p with idle := p.idle ++ [⟨key, stream, now⟩] }

/-- The connections in the pool. -/
def Pool.streams (p : Pool γ) : List γ := p.idle.map (·.stream)

/-! ### What the operations do to the connections -/

theorem dropOld_sublist (old : IdleConn γ → Bool) (kept : List Bytes) (idle : List (IdleConn γ)) :
    (dropOld old kept idle).Sublist idle := by
  induction idle generalizing kept with
  | nil => exact .refl []
  | cons c cs ih =>
    rw [dropOld]
    split
    · exact (ih kept).cons c
    · exact (ih (c.key :: kept)).cons_cons c

theorem back_perm {key : Bytes} {idle : List (IdleConn γ)} {c : IdleConn γ}
    (h : back key idle = some c) : idle.Perm (c :: popBack key idle) := by
  have hc : c.key = key := by simpa using find?_some h
  obtain ⟨as, bs, hrev, hnot⟩ := find?_eq_some_iff_append.1 h |>.2
  have hpop : popBack key idle = bs.reverse ++ as.reverse := by
    rw [popBack, hrev, eraseP_append_right _ (fun b hb => by simpa using hnot b hb),
      eraseP_cons_of_pos (by simpa using hc), reverse_append]
  have hidle : idle = bs.reverse ++ c :: as.reverse := by
    have := congrArg reverse hrev
    simpa using this
  rw [hpop, hidle]
  exact perm_middle

/-- **A connection that is handed out leaves the pool.** -/
theorem acquire_some {p : Pool γ} {key : Bytes} {now : ℕ} {stream : γ}
    (h : (p.acquire key now).1 = some stream) :
    p.streams.Perm (stream :: (p.acquire key now).2.streams) := by
  unfold Pool.acquire at h ⊢
  split at h
  · cases h
  · next c hb =>
    split at h
    · cases h
    · next hs =>
      cases h
      simp only [hs]
      exact (back_perm hb).map (·.stream)

theorem acquire_subperm (p : Pool γ) (key : Bytes) (now : ℕ) :
    (p.acquire key now).2.streams.Subperm p.streams := by
  unfold Pool.acquire
  split
  · exact .refl _
  · next c hb =>
    split
    · exact (filter_sublist.map _).subperm
    · have hp : p.streams.Perm (c.stream :: (popBack key p.idle).map (·.stream)) :=
        (back_perm hb).map IdleConn.stream
      exact (sublist_cons_self c.stream _).subperm.trans hp.symm.subperm

/-- **Nothing gets in but what is released.** -/
theorem release_sublist (p : Pool γ) (key : Bytes) (now : ℕ) (stream : γ) :
    (p.release key now stream).streams.Sublist (p.streams ++ [stream]) := by
  have hroom : (p.makeRoom key now).idle.Sublist p.idle := by
    unfold Pool.makeRoom
    split
    · exact dropOld_sublist _ _ _
    · exact .refl _
  unfold Pool.release
  dsimp only
  split
  · exact (hroom.map _).trans (sublist_append_left _ _)
  · have hdrop := (dropOld_sublist (fun c => c.key == key && (p.makeRoom key now).stale now c) []
      (p.makeRoom key now).idle).trans hroom
    split
    · exact (hdrop.map _).trans (sublist_append_left _ _)
    · simp only [Pool.streams, map_append, map_cons, map_nil]
      exact (hdrop.map _).append (.refl _)

end Manwe.HttpConnectionPool
