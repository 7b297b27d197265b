import Manwe.Soccer.HttpConnectionPool
import Manwe.Soccer.Http2.ConnectionPool

/-!
# The pool of idle connections over its runs

Here the pool is what `HttpClient.h` has, a table of deques. **A stream is known by the `release`
that brought it**: its number, and the host and port it came with. Each operation is one step;
`acquireLive` is a row of `acquire`s of one host, all but the last of which got a stream it drops.

The invariant says of a deque that it is not empty and was filled in order, so that the numbers and
the times of its entries go up (`Deque`). The stale test at either end then speaks for the whole
deque, and the entry at the back is the youngest.
-/

namespace Manwe.HttpConnectionPool

open List Option Nat

abbrev Conn := IdleConn (ℕ × Bytes × ℕ)

abbrev Deques := Table Bytes (List Conn)

/-- The deque is written back, or forgotten if it is empty. -/
def store (T : Deques) (key : Bytes) (dq : List Conn) : Deques :=
  if dq = [] then T.erase key else (T.erase key).emplace key dq

structure State where
  idle : Deques := .empty
  maxIdlePerHost : ℕ := 16
  maxIdleAgeMs : ℤ := 30000
  now : ℕ := 0
  /-- calls of `release` so far -/
  released : ℕ := 0

/-- Idle for longer than the limit; a limit of zero is none. -/
def State.stale (s : State) (c : Conn) : Bool :=
  s.maxIdleAgeMs > 0 && ((s.now - c.lastUsed) / 1000000 : ℕ) > s.maxIdleAgeMs

/-- `HttpConnectionPool::acquire`. -/
def State.acquire (s : State) (key : Bytes) : Option (ℕ × Bytes × ℕ) × Deques :=
  match s.idle.find key with
  | none => (none, s.idle)
  | some dq =>
    match dq.getLast? with
    | none => (none, store s.idle key dq)
    | some c =>
      -- everything older sits in front of this one
      if s.stale c then (none, store s.idle key [])
      else (some c.stream, store s.idle key dq.dropLast)

/-- The table is full and the key is not in it: every host drops its stale connections. -/
def State.makeRoom (s : State) (key : Bytes) : Deques :=
  if s.idle.size ≥ maxHosts ∧ s.idle.find key = none then
    (s.idle.map fun _ dq => dq.dropWhile s.stale).filter fun _ dq => dq ≠ []
  else s.idle

/-- `HttpConnectionPool::release`. -/
def State.release (s : State) (host : Bytes) (port : ℕ) : Deques := let key := keyOf host port
  let idle := s.makeRoom key
  if idle.size ≥ maxHosts ∧ idle.find key = none then idle
  else
    let dq := ((idle.find key).getD []).dropWhile s.stale
    store idle key (if dq.length ≥ s.maxIdlePerHost then dq
      else dq ++ [⟨key, (s.released, host, port), s.now⟩])

inductive Event where
  | tick (n : ℕ)
  | setMaxIdlePerHost (n : ℕ)
  | setMaxIdleAge (ms : ℤ)
  | acquire (host : Bytes) (port : ℕ)
  | release (host : Bytes) (port : ℕ)

def step (s : State) : Event → Option State
  | .tick n => some { s with now := s.now + n }
  | .setMaxIdlePerHost n => some { s with maxIdlePerHost := n }
  | .setMaxIdleAge ms => some { s with maxIdleAgeMs := ms }
  | .acquire host port => some { s with idle := (s.acquire (keyOf host port)).2 }
  | .release host port => some { s with idle := s.release host port, released := s.released + 1 }

/-- The stream a step hands out. -/
def handedOut (s : State) : Event → List (ℕ × Bytes × ℕ)
  | .acquire host port => (s.acquire (keyOf host port)).1.toList
  | _ => []

/-! ### Tables of deques -/

variable {s : State} {tr : List (State × Event)} {key k : Bytes} {dq dq' : List Conn} {T : Deques}
  {now n : ℕ} {out : List (ℕ × Bytes × ℕ)}

theorem find_store : (store T key dq).find k =
    if k = key then if dq = [] then none else some dq else T.find k := by
  unfold store
  split
  · exact Table.find_erase
  · rw [Table.find_emplace (Table.find_erase.trans (if_pos rfl)), Table.find_erase]
    split <;> rfl

theorem size_store (h : T.size ≤ maxHosts) (hroom : T.size < maxHosts ∨ T.find key ≠ none) :
    (store T key dq).size ≤ maxHosts := by
  have hle : (T.erase key).size ≤ T.size := length_filter_le _ _
  unfold store
  split
  · exact hle.trans h
  · rw [Table.size_emplace (Table.find_erase.trans (if_pos rfl))]
    obtain hlt | hkey := hroom
    · exact hle.trans_lt hlt
    · obtain ⟨a, ha⟩ := ne_none_iff_exists'.1 hkey
      exact (Table.size_erase ha).trans_le h

/-- A deque: released under its key, in order, and not handed out yet. -/
structure Deque (now n : ℕ) (out : List (ℕ × Bytes × ℕ)) (key : Bytes) (dq : List Conn) :
    Prop where
  order : dq.Pairwise fun c d => c.stream.1 < d.stream.1 ∧ c.lastUsed ≤ d.lastUsed
  filed : ∀ c ∈ dq, c.lastUsed ≤ now ∧ c.stream.1 < n ∧ c.stream ∉ out ∧
    keyOf c.stream.2.1 c.stream.2.2 = key

theorem Deque.sublist (h : Deque now n out key dq) (hs : dq'.Sublist dq) :
    Deque now n out key dq' :=
  ⟨h.order.sublist hs, fun c hc => h.filed c (hs.subset hc)⟩

/-- What holds of the table between operations. -/
structure Tabled (now n : ℕ) (out : List (ℕ × Bytes × ℕ)) (T : Deques) : Prop where
  size : T.size ≤ maxHosts
  deques : ∀ key dq, T.find key = some dq → dq ≠ [] ∧ Deque now n out key dq

namespace Tabled

theorem store (h : Tabled now n out T) (hdq : Deque now n out key dq)
    (hroom : T.size < maxHosts ∨ T.find key ≠ none) : Tabled now n out (store T key dq) := by
  refine ⟨size_store h.size hroom, fun k dq' hf => ?_⟩
  rw [find_store] at hf
  split at hf
  · next hk =>
    subst hk
    split at hf <;> cases hf
    exact ⟨‹_›, hdq⟩
  · exact h.deques k dq' hf

/-- The stream handed out is the one at the back. -/
theorem acquire (h : Tabled now n out s.idle) (key : Bytes) :
    Tabled now n out (s.acquire key).2 ∧ ∀ c, (s.acquire key).1 = some c →
      ∃ dq d, s.idle.find key = some (dq ++ [d]) ∧ d.stream = c ∧ s.stale d = false ∧
        (s.acquire key).2 = HttpConnectionPool.store s.idle key dq := by
  unfold State.acquire
  cases hf : s.idle.find key with
  | none => exact ⟨h, by rintro _ ⟨⟩⟩
  | some dq =>
    obtain ⟨hne, hdq⟩ := h.deques key dq hf
    have hroom : s.idle.size < maxHosts ∨ s.idle.find key ≠ none := .inr (by simp [hf])
    dsimp only
    cases hl : dq.getLast? with
    | none => exact absurd (getLast?_eq_none_iff.1 hl) hne
    | some d =>
      dsimp only
      split
      · exact ⟨h.store (hdq.sublist (nil_sublist _)) hroom, by rintro _ ⟨⟩⟩
      · next hd =>
        refine ⟨h.store (hdq.sublist (dropLast_sublist _)) hroom, ?_⟩
        rintro c ⟨⟩
        refine ⟨dq.dropLast, d, ?_, rfl, by simpa using hd, rfl⟩
        rw [dropLast_append_getLast? d hl]

theorem makeRoom (h : Tabled now n out s.idle) (key : Bytes) :
    Tabled now n out (s.makeRoom key) := by
  unfold State.makeRoom
  split
  · refine ⟨(length_filter_le _ _).trans ((length_map _).trans_le h.size), fun k dq hf => ?_⟩
    have hne : decide (dq ≠ []) = true := (mem_filter.1 (Table.find_eq_some.1 hf)).2
    have hmap := Table.find_of_filter hf
    rw [Table.find_map] at hmap
    obtain ⟨dq', hdq', rfl⟩ := map_eq_some_iff.1 hmap
    exact ⟨of_decide_eq_true hne, (h.deques k dq' hdq').2.sublist (dropWhile_sublist _)⟩
  · exact h

theorem dropWhile (h : Tabled now n out T) (key : Bytes) (old : Conn → Bool) :
    Deque now n out key (((T.find key).getD []).dropWhile old) := by
  cases hf : T.find key with
  | none => exact ⟨.nil, nofun⟩
  | some dq => exact (h.deques key dq hf).2.sublist (dropWhile_sublist _)

/-- Time goes on, and nothing of the table is handed out. -/
theorem mono (h : Tabled now n out T) {now' n' : ℕ} (hnow : now ≤ now') (hn : n ≤ n')
    {out' : List (ℕ × Bytes × ℕ)} (hout : ∀ key dq, T.find key = some dq → ∀ c ∈ dq,
      c.stream ∉ out → c.stream ∉ out') : Tabled now' n' out' T := by
  refine ⟨h.size, fun key dq hf => ?_⟩
  obtain ⟨hne, hdq⟩ := h.deques key dq hf
  refine ⟨hne, hdq.order, fun c hc => ?_⟩
  obtain ⟨htime, hlt, hnot, hkey⟩ := hdq.filed c hc
  exact ⟨htime.trans hnow, hlt.trans_le hn, hout key dq hf c hc hnot, hkey⟩

end Tabled

/-! ### Runs -/

structure Inv (s : State) (out : List (ℕ × Bytes × ℕ)) : Prop where
  idle : Tabled s.now s.released out s.idle
  nodup : out.Nodup
  old : ∀ c ∈ out, c.1 < s.released

theorem Inv.acquire (h : Inv s out) (host : Bytes) (port : ℕ) :
    Inv { s with idle := (s.acquire (keyOf host port)).2 }
      (out ++ handedOut s (.acquire host port)) := by
  obtain ⟨hT, hback⟩ := h.idle.acquire (keyOf host port)
  cases ha : (s.acquire (keyOf host port)).1 with
  | none =>
    rw [handedOut, ha, toList_none, append_nil]
    exact ⟨hT, h.nodup, h.old⟩
  | some c =>
    obtain ⟨dq, d, hf, rfl, -, hstore⟩ := hback c ha
    have hdq := (h.idle.deques _ _ hf).2
    obtain ⟨-, hlt, hnew, hkey⟩ := hdq.filed d (by simp)
    rw [handedOut, ha, toList_some]
    refine ⟨hT.mono le_rfl le_rfl fun k dq' hk c hc hnot => ?_, ?_, ?_⟩
    · -- what is left in the table is another stream
      suffices c.stream ≠ d.stream by simpa [this] using hnot
      intro heq
      rw [hstore, find_store] at hk
      split at hk
      · split at hk <;> cases hk
        exact ((pairwise_append.1 hdq.order).2.2 c hc d (by simp)).1.ne (by rw [heq])
      · next hne =>
        have hck := ((h.idle.deques k dq' hk).2.filed c hc).2.2.2
        rw [heq, hkey] at hck
        exact hne hck.symm
    · exact h.nodup.append (nodup_singleton _) (disjoint_singleton.2 hnew)
    · exact forall_mem_append.2 ⟨h.old, forall_mem_singleton.2 hlt⟩

theorem Inv.release (h : Inv s out) (host : Bytes) (port : ℕ) :
    Inv { s with idle := s.release host port, released := s.released + 1 } out := by
  have hT := h.idle.makeRoom (keyOf host port)
  have hT' := hT.mono le_rfl (le_succ _) fun _ _ _ _ _ => id
  refine ⟨?_, h.nodup, fun c hc => lt_succ_of_lt (h.old c hc)⟩
  unfold State.release
  dsimp only
  split
  · exact hT'
  · next hroom =>
    refine hT'.store ?_ ((Decidable.not_and_iff_or_not.1 hroom).imp_left Nat.lt_of_not_le)
    have hdq := hT.dropWhile (keyOf host port) s.stale
    have hdq' := hT'.dropWhile (keyOf host port) s.stale
    split
    · exact hdq'
    · -- the new stream has the highest number and the latest time
      refine ⟨pairwise_append.2 ⟨hdq.order, pairwise_singleton _ _, fun c hc => ?_⟩, ?_⟩
      · obtain ⟨htime, hlt, -⟩ := hdq.filed c hc
        exact forall_mem_singleton.2 ⟨hlt, htime⟩
      · refine forall_mem_append.2 ⟨hdq'.filed, forall_mem_singleton.2 ?_⟩
        exact ⟨le_rfl, lt_succ_self _, fun hout => (h.old _ hout).ne rfl, rfl⟩

theorem inv_run (h : Run step {} tr s) : Inv s (logOf handedOut tr) := by
  induction h with
  | start => exact ⟨⟨zero_le _, nofun⟩, .nil, nofun⟩
  | @next tr s t e _ hs ih =>
    rw [logOf_snoc]
    cases e with cases hs
    | tick =>
      exact (append_nil _).symm ▸ ⟨ih.idle.mono (le_add_right _ _) le_rfl
        fun _ _ _ _ _ => id, ih.nodup, ih.old⟩
    | setMaxIdlePerHost | setMaxIdleAge => exact (append_nil _).symm ▸ ⟨ih.idle, ih.nodup, ih.old⟩
    | acquire host port => exact ih.acquire host port
    | release host port => exact (append_nil _).symm ▸ ih.release host port

/-- A stream that goes round twice, beside one that goes stale. -/
def rounds : List Event :=
  [.release [97] 80, .tick 1, .release [98] 80, .acquire [97] 80, .release [97] 80,
    .tick 30001000000, .acquire [98] 80, .release [97] 443]

/-- How many connections are idle under a key. -/
def idleOf (T : Deques) (key : Bytes) : ℕ := (T.find key).elim 0 length

/-- A new limit is not below what the key already holds. -/
def roomy (key : Bytes) (s : State) : Event → Bool
  | .setMaxIdlePerHost n => idleOf s.idle key ≤ n
  | _ => true

theorem idleOf_store : idleOf (store T key dq) k = if k = key then dq.length else idleOf T k := by
  simp only [idleOf, find_store]
  split
  · split <;> simp [*]
  · rfl

theorem idleOf_acquire : idleOf (s.acquire key).2 k ≤ idleOf s.idle k := by
  unfold State.acquire
  split
  · exact le_rfl
  · next dq hf =>
    have hdq : idleOf s.idle key = dq.length := by simp [idleOf, hf]
    repeat' split
    all_goals
      rw [idleOf_store]
      split
      · next hk => simp [hk, hdq]
      · exact le_rfl

theorem idleOf_makeRoom (key k : Bytes) : idleOf (s.makeRoom key) k ≤ idleOf s.idle k := by
  unfold State.makeRoom
  split
  · simp only [idleOf]
    cases hf : Table.find _ k with
    | none => exact zero_le _
    | some =>
      have hmap := Table.find_of_filter hf
      rw [Table.find_map] at hmap
      obtain ⟨dq', hdq', rfl⟩ := map_eq_some_iff.1 hmap
      rw [hdq']
      exact (dropWhile_sublist _).length_le
  · exact le_rfl

/-- A release that finds the limit reached adds nothing, and takes nothing away. -/
theorem idleOf_release (host : Bytes) (port : ℕ) :
    idleOf (s.release host port) k ≤ max (idleOf s.idle k) s.maxIdlePerHost := by
  have hroom := idleOf_makeRoom (s := s) (keyOf host port) k
  unfold State.release
  dsimp only
  generalize s.makeRoom (keyOf host port) = T at hroom ⊢
  split
  · exact hroom.trans (le_max_left _ _)
  · rw [idleOf_store]
    split
    · next hk =>
      subst hk
      have hlen : (((T.find (keyOf host port)).getD []).dropWhile s.stale).length ≤
          idleOf T (keyOf host port) := by
        refine (dropWhile_sublist _).length_le.trans_eq ?_
        rw [idleOf]
        cases T.find (keyOf host port) <;> rfl
      split
      · exact (hlen.trans hroom).trans (le_max_left _ _)
      · rw [length_append, length_singleton]
        exact le_max_of_le_right (by omega)
    · exact hroom.trans (le_max_left _ _)

/-- **After a `release` its host is within the limit**, if no limit was ever set below what the
host held. -/
theorem release_capped {host : Bytes} {port : ℕ} (h : Run step {} tr s)
    (hok : ∀ p ∈ tr, roomy (keyOf host port) p.1 p.2 = true) :
    idleOf (s.release host port) (keyOf host port) ≤ s.maxIdlePerHost := by
  suffices hcap : idleOf s.idle (keyOf host port) ≤ s.maxIdlePerHost from
    (idleOf_release host port).trans (max_le hcap le_rfl)
  refine h.invariant (I := fun s => idleOf s.idle (keyOf host port) ≤ s.maxIdlePerHost)
    (fun s e => roomy (keyOf host port) s e = true) hok (zero_le _) fun {s e t} ih hr hs => ?_
  cases e with cases hs
  | tick | setMaxIdleAge => exact ih
  | setMaxIdlePerHost => exact of_decide_eq_true hr
  | acquire => exact idleOf_acquire.trans ih
  | release host port => exact (idleOf_release host port).trans (max_le ih le_rfl)

theorem release_capped_lowered : ∃ tr s, Run step {} tr s ∧
    (∀ p ∈ tr, roomy (keyOf [97] 80) p.1 p.2 = true) ∧ s.maxIdlePerHost = 1 ∧
    idleOf (s.release [97] 80) (keyOf [97] 80) ≤ s.maxIdlePerHost := by
  have h : Run step {} _ _ := .follow [.release [97] 80, .setMaxIdlePerHost 1] (by decide +kernel)
  exact ⟨_, _, h, by decide +kernel, by decide +kernel, release_capped h (by decide +kernel)⟩

/-- **Entries above a lowered limit stay**: `release` drops the new connection only. -/
theorem release_overfull : ∃ tr s, Run step {} tr s ∧
    s.maxIdlePerHost < idleOf (s.release [97] 80) (keyOf [97] 80) :=
  Run.exists_of_exec [.release [97] 80, .release [97] 80, .setMaxIdlePerHost 1] (by decide +kernel)

end Manwe.HttpConnectionPool
