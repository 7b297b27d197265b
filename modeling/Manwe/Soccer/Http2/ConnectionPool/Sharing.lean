import Manwe.Soccer.Http2.ConnectionPool.Runs

/-!
# One connection for each key

The table of the pool **never outgrows its limit**, and from the moment a connection is filed to its
death or eviction every caller of its key gets that connection, also a caller that has connected on
its own meanwhile. `evict` finds its keys by a prefix; these are the keys of its host and port and
no others, as long as no host has a bar in it (`evicts_key`).
-/

namespace Manwe.Http2.ConnectionPool

open Function List Table

variable {ι : Type} [DecidableEq ι] {s s' : State ι} {e : Event ι}
  {tr : List (State ι × Event ι)} {t : Target} {k : Bytes} {c d : ℕ}

/-! ### Steps -/

/-- The step is no eviction that hits the key. -/
def Event.spares (k : Bytes) : Event ι → Bool
  | .evict host port => !evicts (keyOf host port) k
  | _ => true

/-- What a step leaves of the table: it is within the limit, with the live connections. -/
structure Kept (s : State ι) (e : Event ι) (T : Table Bytes ℕ) : Prop where
  size : s.entries.size ≤ s.limit → T.size ≤ s.limit
  live : ∀ k d, e.spares k → s.entries.find k = some d → s.closed d = false → T.find k = some d

/-- What a call returns: a connection that is **live under its key**, or else its own. -/
def Returns (s : State ι) (i : ι) (t : Target) (c : ℕ) : Prop :=
  s.entries.find t.key = some c ∧ s.closed c = false ∨
    s.calls i = .connected t c ∧ ∀ d, s.entries.find t.key = some d → s.closed d = true

variable {T : Table Bytes ℕ}

theorem find_filter_of_keep {keep : Bytes → ℕ → Bool} (h : T.find k = some d)
    (hkeep : keep k d = true) : (T.filter keep).find k = some d :=
  find_eq_some.2 (mem_filter.2 ⟨find_eq_some.1 h, hkeep⟩)

theorem find_emplace_of_find {k' : Bytes} (hk : T.find k' = none)
    (h : T.find k = some d) : (T.emplace k' c).find k = some d := by
  rw [find_emplace hk, if_neg, h]
  rintro rfl
  rw [hk] at h
  cases h

omit [DecidableEq ι] in
/-- A key with a closed connection is not that of a live one. -/
theorem ne_of_closed {k' : Bytes} (hc : s.entries.find k' = some c) (hclosed : s.closed c = true)
    (hd : s.entries.find k = some d) (hlive : s.closed d = false) : k ≠ k' := by
  rintro rfl
  rw [hc] at hd
  cases hd
  rw [hclosed] at hlive
  cases hlive

omit [DecidableEq ι] in
theorem kept_insertLocked {i : ι} (hi : s.calls i = .connected t c) :
    Kept s (.insert i) (insertLocked s t.key c).2 ∧ Returns s i t (insertLocked s t.key c).1 := by
  unfold insertLocked
  cases hk : s.entries.find t.key with
  | some =>
    dsimp only
    split
    · next hc =>
      refine ⟨⟨fun h => by rwa [size_adjust], fun k d _ hd hlive => ?_⟩, .inr ⟨hi, ?_⟩⟩
      · rw [find_adjust, if_neg (ne_of_closed hk hc hd hlive), hd]
      · rintro d hd
        cases hk.symm.trans hd
        exact hc
    · next hc => exact ⟨⟨id, fun _ _ _ hd _ => hd⟩, .inl ⟨hk, by simpa using hc⟩⟩
  | none =>
    have hmine : Returns s i t c := .inr ⟨hi, fun d hd => by rw [hk] at hd; cases hd⟩
    have hlive : ∀ {k d}, s.entries.find k = some d → s.closed d = false →
        (s.entries.filter fun _ c => !s.closed c).find k = some d := fun hd hlive =>
      find_filter_of_keep hd (by simp [hlive])
    dsimp only
    split
    · split
      · exact ⟨⟨(length_filter_le _ _).trans, fun _ _ _ => hlive⟩, hmine⟩
      · have hnone : (s.entries.filter fun _ c => !s.closed c).find t.key = none :=
          find_filter_none hk
        refine ⟨⟨fun _ => ?_, fun _ _ _ hd hl => find_emplace_of_find hnone (hlive hd hl)⟩, hmine⟩
        rw [size_emplace hnone]
        omega
    · refine ⟨⟨fun _ => ?_, fun _ _ _ hd _ => find_emplace_of_find hk hd⟩, hmine⟩
      rw [size_emplace hk]
      omega

theorem returned_put {j : ι} {call : Call} (h : ∀ t c, call = .returned t c → Returns s j t c) :
    ∀ i t c, update s.calls j call i = .returned t c →
      s.calls i = .returned t c ∨ Returns s i t c := by
  intro i t c hi
  obtain rfl | hij := eq_or_ne i j
  · exact .inr (h t c (by simpa using hi))
  · exact .inl (by simpa [hij] using hi)

theorem kept_step (hs : step s e = some s') :
    s'.limit = s.limit ∧ Kept s e s'.entries ∧ ∀ i t c, s'.calls i = .returned t c →
      s.calls i = .returned t c ∨ Returns s i t c := by
  have hsame : Kept s e s.entries := ⟨id, fun _ _ _ h _ => h⟩
  cases e with (simp only [step] at hs; repeat' first | cases hs | split at hs)
  | acquire i t =>
    first
    | next hf hc =>
      refine ⟨rfl, hsame, returned_put ?_⟩
      rintro t c ⟨⟩
      exact .inl ⟨hf, by simpa using hc⟩
    | next hf hc =>
      refine ⟨rfl, ⟨(length_filter_le _ _).trans, fun k d _ hd hlive => ?_⟩,
        returned_put (s := s) fun _ _ => by simp⟩
      exact (find_erase.trans (if_neg (ne_of_closed hf hc hd hlive))).trans hd
    | exact ⟨rfl, hsame, returned_put fun _ _ => by simp⟩
  | connect | connectFails => exact ⟨rfl, hsame, returned_put fun _ _ => by simp⟩
  | insert =>
    next hi =>
    refine ⟨rfl, (kept_insertLocked hi).1, returned_put (s := s) ?_⟩
    rintro t c ⟨⟩
    exact (kept_insertLocked hi).2
  | evict =>
    refine ⟨rfl, ⟨(length_filter_le _ _).trans, fun k d hk hd _ => ?_⟩, fun _ _ _ => .inl⟩
    exact find_filter_of_keep hd hk
  | close => exact ⟨rfl, hsame, fun _ _ _ => .inl⟩

/-! ### Runs -/

theorem size_run {limit : ℕ} (h : Run step { limit } tr s) :
    s.limit = limit ∧ s.entries.size ≤ limit := by
  induction h with
  | start => exact ⟨rfl, Nat.zero_le _⟩
  | next _ hs ih =>
    obtain ⟨rfl, hle⟩ := ih
    obtain ⟨hlimit, hkept, -⟩ := kept_step hs
    exact ⟨hlimit, hkept.size hle⟩

/-- While a connection is live and not evicted, callers of its key share it. -/
theorem shared_run (hr : Run step s tr s') (h : s.entries.find k = some d)
    (hlive : ∀ p ∈ tr, p.1.closed d = false ∧ p.2.spares k) :
    s'.entries.find k = some d ∧ ∀ i t c, t.key = k → s'.calls i = .returned t c →
      s.calls i = .returned t c ∨ c = d := by
  refine hr.induct (fun s e => s.closed d = false ∧ e.spares k) hlive ⟨h, fun _ _ _ _ => .inl⟩
    fun _ _ ⟨hf, hold⟩ ⟨hd, he⟩ hs => ?_
  obtain ⟨-, hkept, hret⟩ := kept_step hs
  refine ⟨hkept.live k d he hf hd, fun i t c ht hi => ?_⟩
  subst ht
  obtain hi | ⟨hc, -⟩ | ⟨-, hdead⟩ := hret i t c hi
  · exact hold i t c rfl hi
  · cases hf.symm.trans hc
    exact .inr rfl
  · rw [hdead d hf] at hd
    cases hd

/-! ### Eviction -/

theorem notMem_keyOf {host : Bytes} (h : 124 ∉ host) (port : ℕ) : 124 ∉ keyOf host port := by
  have := notMem_decimal (c := 124) rfl port
  simp [keyOf, h, this]

/-- A key is that of host and port, or goes on with a bar. -/
theorem Target.key_cases (t : Target) :
    t.key = keyOf t.host t.port ∨ keyOf t.host t.port ++ [124] <+: t.key := by
  unfold Target.key
  cases t.opts with
  | none => exact .inl rfl
  | some =>
    simp only [tlsKey, append_assoc]
    exact .inr ((prefix_append_right_inj _).2 (prefix_append _ _))

theorem evicts_iff {ek : Bytes} : evicts k ek = true ↔ ek = k ∨ k ++ [124] <+: ek := by
  refine ⟨fun h => ?_, ?_⟩
  · simp only [evicts, Bool.or_eq_true, Bool.and_eq_true, beq_iff_eq, decide_eq_true_eq] at h
    refine h.imp_right fun ⟨⟨hlen, htake⟩, hbar⟩ => ⟨ek.drop (k.length + 1), ?_⟩
    obtain ⟨_, hget⟩ := List.getElem?_eq_some_iff.1 hbar
    have hsplit := take_append_drop k.length ek
    rw [htake, drop_eq_getElem_cons hlen, hget] at hsplit
    simpa using hsplit
  · rintro (rfl | ⟨rest, rfl⟩) <;> simp [evicts]

/-- **Eviction is exact**: it hits the keys of its host and port. -/
theorem evicts_key {host : Bytes} {port : ℕ} (h : 124 ∉ host) (ht : 124 ∉ t.host) :
    evicts (keyOf host port) t.key = true ↔ t.host = host ∧ t.port = port := by
  -- what stands before the first bar
  have hcut : ∀ {x ek : Bytes}, 124 ∉ x → ek = x ∨ x ++ [124] <+: ek →
      ek.takeWhile (· != 124) = x := by
    intro x ek hx hek
    have hpos : ∀ b ∈ x, (b != 124) = true := fun b hb => bne_iff_ne.2 fun h => hx (h ▸ hb)
    obtain rfl | ⟨rest, rfl⟩ := hek
    · exact takeWhile_eq_self_iff.2 hpos
    · rw [append_assoc, takeWhile_append_of_pos hpos]
      simp
  rw [evicts_iff]
  refine ⟨fun hev => keyOf_inj ?_, ?_⟩
  · rw [← hcut (notMem_keyOf ht t.port) t.key_cases, hcut (notMem_keyOf h port) hev]
  · rintro ⟨rfl, rfl⟩
    exact t.key_cases

/-- **One connection for each key.** The table keeps within its limit; a call returns a connection
that is live under its key when it looks, or its own if there is none; while a filed connection is
live and not evicted, the calls of its key that return get that one; and `evict` drops every entry
of its host and port and, if no host has a bar in it, no other. -/
theorem connections_perKey :
    (∀ {limit : ℕ} {s : State ι} {tr}, Run step { limit } tr s → s.entries.size ≤ limit) ∧
    (∀ {s s' : State ι} {e}, step s e = some s' → ∀ i t c, s'.calls i = .returned t c →
      s.calls i = .returned t c ∨ Returns s i t c) ∧
    (∀ {s s' : State ι} {tr k d}, Run step s tr s' → s.entries.find k = some d →
      (∀ p ∈ tr, p.1.closed d = false ∧ p.2.spares k) →
      s'.entries.find k = some d ∧ ∀ i t c, t.key = k → s'.calls i = .returned t c →
        s.calls i = .returned t c ∨ c = d) ∧
    ∀ {s s' : State ι} {host port}, step s (.evict host port) = some s' →
      (∀ t : Target, t.host = host → t.port = port → s'.entries.find t.key = none) ∧
      ∀ t : Target, 124 ∉ host → 124 ∉ t.host → ¬(t.host = host ∧ t.port = port) →
        s'.entries.find t.key = s.entries.find t.key := by
  refine ⟨fun h => (size_run h).2, fun hs => (kept_step hs).2.2, shared_run, ?_⟩
  rintro s s' host port ⟨⟩
  refine ⟨?_, fun t hhost ht hne => ?_⟩
  · rintro t rfl rfl
    refine Option.eq_none_iff_forall_ne_some.2 fun d hd => ?_
    have hkept : (!evicts (keyOf t.host t.port) t.key) = true :=
      (mem_filter.1 (find_eq_some.1 hd)).2
    rw [evicts_iff.2 t.key_cases] at hkept
    cases hkept
  · have hev : evicts (keyOf host port) t.key = false :=
      Bool.eq_false_iff.2 fun h => hne ((evicts_key hhost ht).1 h)
    ext d
    exact ⟨find_of_filter, fun h => find_filter_of_keep h (by simp [hev])⟩

/-- Of two callers of a key that overlap, one has filed its connection. -/
def overlap : State (Fin 3) where
  entries := empty.emplace certified.key 1
  limit := 1
  made := 2
  calls i :=
    if i = 0 then .connected certified 0 else if i = 1 then .returned certified 1 else .idle

theorem connections_perKey_overlap :
    (∃ tr s, Run step ({ limit := 1 } : State (Fin 3)) tr s ∧ s.entries.size ≤ 1) ∧
      ∃ tr s s', Run step overlap tr s ∧ s.calls 2 = .returned certified 1 ∧
        (∀ c, s.calls 0 = .returned certified c → c = 1) ∧
        step s (.evict [97] 443) = some s' ∧ s'.entries.find certified.key = none := by
  have h : Run step ({ limit := 1 } : State (Fin 3)) _ _ := .follow threeCalls (by decide +kernel)
  have h' : Run step overlap _ _ := .follow [.insert 0, .acquire 2 certified] (by decide +kernel)
  have hshared := connections_perKey.2.2.1 h' (k := certified.key) rfl (by decide +kernel)
  exact ⟨⟨_, _, h, connections_perKey.1 h⟩, _, _, _, h', by decide +kernel, fun c hc =>
    (hshared.2 0 certified c rfl hc).resolve_left nofun, rfl,
    (connections_perKey.2.2.2 rfl).1 certified rfl rfl⟩

end Manwe.Http2.ConnectionPool
