import Manwe.Soccer.PooledRequest
import Manwe.Transition.Ledger

/-!
# Who has a connection

A connection is in the pool or with one call, never both: `acquire` takes it out of the pool before
a call has it, and `release` is the last thing a call does with it. `Change` says once what each
step of the pooled requests does, and `Owned` is the invariant that rests on it.
-/

namespace Manwe.PooledRequest

open Http HttpClient HttpConnectionPool List Function

variable {ι : Type} {req : ι → Request}

/-- An event that neither dials nor uses a connection. -/
def Event.quiet : Event ι → Bool
  | .dial _ _ => false
  | .exchange _ _ _ => false
  | _ => true

variable {s t : State ι} {e : Event ι}

theorem sentOn_quiet (h : e.quiet = true) (c : ℕ) : sentOn c s e = [] := by
  cases e <;> first | rfl | cases h

theorem answered_quiet (h : e.quiet = true) (c : ℕ) : answered req c s e = [] := by
  cases e <;> first | rfl | cases h

/-- A call that has no connection. -/
def Call.free (c : Call) : Prop := ∀ d reused, c ≠ .holding d reused

/-- Where a connection may be: in the pool, or with a call. -/
def At (s : State ι) : Option ι → ℕ → Prop
  | none, c => c ∈ s.pool.streams
  | some i, c => ∃ reused, s.calls i = .holding c reused

/-- **A connection is in one place**, and only what was dialled is anywhere. -/
structure Owned (s : State ι) : Prop where
  nodup : s.pool.streams.Nodup
  exclusive : Exclusive (At s)
  dialled : ∀ p c, At s p c → c < s.dialled

theorem Owned.init : Owned ({} : State ι) where
  nodup := .nil
  exclusive := by
    intro p p' c h
    cases p with
    | none => cases h
    | some => obtain ⟨_, h⟩ := h; cases h
  dialled := by
    intro p c h
    cases p with
    | none => cases h
    | some => obtain ⟨_, h⟩ := h; cases h

/-- Nothing moves but out of sight: what is somewhere after the step was there before. -/
theorem Owned.mono (h : Owned s) (hsub : t.pool.streams.Subperm s.pool.streams)
    (hat : ∀ i c, At t (some i) c → At s (some i) c) (hd : t.dialled = s.dialled) : Owned t := by
  have hall : ∀ p c, At t p c → At s p c := by
    intro p c hp
    cases p with
    | none => exact hsub.subset hp
    | some i => exact hat i c hp
  obtain ⟨l, hperm, hl⟩ := hsub
  exact ⟨hperm.nodup_iff.1 (hl.nodup h.nodup), h.exclusive.mono hall,
    fun p c hp => hd ▸ h.dialled p c (hall p c hp)⟩

variable [DecidableEq ι] {i : ι} {call : Call} {c : ℕ}

/-- The places after a call has changed: another call's connection is where it was. -/
theorem at_set_of_ne {j : ι} (h : j ≠ i) : At (s.set i call) (some j) c ↔ At s (some j) c := by
  simp only [At, State.set, update_of_ne h]

theorem not_at_set (h : call.free) (c : ℕ) : ¬ At (s.set i call) (some i) c := by
  rintro ⟨reused, hc⟩
  simp only [State.set, update_self] at hc
  exact h c reused hc

/-- What a call has after another one has been left with nothing. -/
theorem at_of_set {j : ι} (ht : t.calls = update s.calls i call) (h : call.free)
    (hc : At t (some j) c) : j ≠ i ∧ At s (some j) c := by
  simp only [At, ht] at hc ⊢
  have hj : j ≠ i := by
    rintro rfl
    exact not_at_set h c hc
  exact ⟨hj, (at_set_of_ne hj).1 hc⟩

variable {reused : Bool}

theorem at_set_holding {d : ℕ} : At (s.set i (.holding d reused)) (some i) c ↔ c = d := by
  simp only [At, State.set, update_self, Call.holding.injEq]
  exact ⟨fun ⟨_, h, _⟩ => h.symm, fun h => ⟨reused, h.symm, rfl⟩⟩

/-- **What a step does.** -/
inductive Change (req : ι → Request) (s : State ι) : Event ι → State ι → Prop
  | wait {e : Event ι} {pool : Pool ℕ} {now : ℕ} (quiet : e.quiet = true)
      (same : pool.streams = s.pool.streams) : Change req s e { s with pool, now }
  | pass {e : Event ι} {i : ι} {call : Call} {pool : Pool ℕ} (quiet : e.quiet = true)
      (before : (s.calls i).free) (after : call.free)
      (sub : pool.streams.Subperm s.pool.streams) :
      Change req s e (State.set { s with pool } i call)
  | reuse {e : Event ι} {i : ι} {c : ℕ} {pool : Pool ℕ} (quiet : e.quiet = true)
      (before : (s.calls i).free) (perm : s.pool.streams.Perm (c :: pool.streams)) :
      Change req s e (State.set { s with pool } i (.holding c true))
  | dial {i : ι} {stream : TcpStream} (before : (s.calls i).free) : Change req s (.dial i stream)
        { (s.read s.dialled stream).set i (.holding s.dialled false) with
          dialled := s.dialled + 1 }
  | handBack {i : ι} {c : ℕ} {reused writes expired : Bool} {reply : Reply} {r : BufferedReader}
      {pool : Pool ℕ} (holds : s.calls i = .holding c reused)
      (got : exchange (req i) writes (s.streams c) = .ok reply r) (clean : clean reply r = true)
      (sub : pool.streams.Sublist (s.pool.streams ++ [c])) :
      Change req s (.exchange i writes expired)
        { (s.read c r.stream).set i (.returned reply.resp) with pool }
  | drop {i : ι} {c : ℕ} {reused writes expired : Bool} {stream : TcpStream} {call : Call}
      (holds : s.calls i = .holding c reused) (after : call.free) :
      Change req s (.exchange i writes expired) ((s.read c stream).set i call)

theorem change_of_step (h : step req s e = some t) : Change req s e t := by
  cases e with ((simp only [step] at h; try split at h) <;> try cases h)
  | tick | configure => exact .wait rfl rfl
  | start | dialFails => next hc => exact .pass rfl (by rw [hc]; nofun) nofun (.refl _)
  | acquire i dead =>
    next hc =>
    have hfree : (s.calls i).free := by rw [hc]; nofun
    split at h <;> cases h
    · exact .pass rfl hfree nofun (acquire_subperm _ _ _)
    · next c hacq =>
      cases dead with
      | true => exact .pass rfl hfree nofun (acquire_subperm _ _ _)
      | false => exact .reuse rfl hfree (acquire_some hacq)
  | dial => next hc => exact .dial (by rw [hc]; nofun)
  | exchange =>
    next c reused hc =>
    split at h
    · next reply r hx =>
      cases h
      split
      · next hclean => exact .handBack hc hx hclean (release_sublist _ _ _ _)
      · exact .drop hc nofun
    · split at h
      · cases h
      · split at h <;> cases h
        · exact .drop hc nofun
        · exact .drop hc nofun

/-! ### Every step keeps the connections apart -/

variable {pool : Pool ℕ}

/-- Taken out of the pool. -/
theorem Owned.reuse (h : Owned s) (hfree : (s.calls i).free)
    (hperm : s.pool.streams.Perm (c :: pool.streams)) :
    Owned (State.set { s with pool } i (.holding c true)) := by
  have hnodup := hperm.nodup_iff.1 h.nodup
  have hc : At s none c := hperm.mem_iff.2 mem_cons_self
  have hfrom : ∀ p a, At (State.set { s with pool } i (.holding c true)) p a →
      ∃ p₀, At s p₀ a ∧ (if a = c then some i else p₀) = p := by
    intro p a hp
    cases p with
    | none =>
      have ha : a ≠ c := fun e => (nodup_cons.1 hnodup).1 (e ▸ hp)
      exact ⟨none, hperm.mem_iff.2 (mem_cons_of_mem c hp), if_neg ha⟩
    | some j =>
      obtain rfl | hj := eq_or_ne j i
      · obtain rfl := at_set_holding.1 hp
        exact ⟨none, hc, if_pos rfl⟩
      · have hs : At s (some j) a := (at_set_of_ne hj).1 hp
        have ha : a ≠ c := by
          rintro rfl
          cases h.exclusive _ _ _ hs hc
        exact ⟨some j, hs, if_neg ha⟩
  refine ⟨(nodup_cons.1 hnodup).2, h.exclusive.of_moves _ hfrom, fun p a hp => ?_⟩
  obtain ⟨p₀, hp₀, -⟩ := hfrom p a hp
  exact h.dialled p₀ a hp₀

variable {stream : TcpStream}

/-- Newly dialled. -/
theorem Owned.dial (h : Owned s) (hfree : (s.calls i).free) :
    Owned { (s.read s.dialled stream).set i (.holding s.dialled false) with
      dialled := s.dialled + 1 } := by
  have hfrom : ∀ p a, At { (s.read s.dialled stream).set i (.holding s.dialled false) with
      dialled := s.dialled + 1 } p a → At s p a ∨ a = s.dialled ∧ p = some i := by
    intro p a hp
    cases p with
    | none => exact .inl hp
    | some j =>
      obtain rfl | hj := eq_or_ne j i
      · exact .inr ⟨at_set_holding.1 hp, rfl⟩
      · exact .inl ((at_set_of_ne hj).1 hp)
  refine ⟨h.nodup, h.exclusive.of_insert (fun p hp => ?_) hfrom, fun p a hp => ?_⟩
  · exact Nat.lt_irrefl _ (h.dialled p _ hp)
  · rcases hfrom p a hp with hs | ⟨rfl, -⟩
    · exact Nat.lt_succ_of_lt (h.dialled p a hs)
    · exact Nat.lt_succ_self _

/-- Back to the pool, unless the pool has no room. -/
theorem Owned.handBack (h : Owned s) (hi : s.calls i = .holding c reused)
    (hfree : call.free) (hsub : pool.streams.Sublist (s.pool.streams ++ [c])) :
    Owned { (s.read c stream).set i call with pool } := by
  have hc : At s (some i) c := ⟨reused, hi⟩
  have hout : c ∉ s.pool.streams := by
    intro hp
    cases h.exclusive (some i) none c hc hp
  have hfrom : ∀ p a, At { (s.read c stream).set i call with pool } p a →
      ∃ p₀, At s p₀ a ∧ (if a = c then none else p₀) = p := by
    intro p a hp
    cases p with
    | none =>
      rcases mem_append.1 (hsub.subset hp) with hs | hs
      · exact ⟨none, hs, by split <;> rfl⟩
      · obtain rfl := mem_singleton.1 hs
        exact ⟨some i, hc, if_pos rfl⟩
    | some j =>
      obtain ⟨hj, hs⟩ : j ≠ i ∧ At s (some j) a := at_of_set rfl hfree hp
      have ha : a ≠ c := by
        rintro rfl
        cases h.exclusive _ _ _ hs hc
        exact hj rfl
      exact ⟨some j, hs, if_neg ha⟩
  refine ⟨hsub.nodup ?_, h.exclusive.of_moves _ hfrom, fun p a hp => ?_⟩
  · exact nodup_append.2 ⟨h.nodup, nodup_singleton c, fun a ha b hb hab =>
      hout (mem_singleton.1 hb ▸ hab ▸ ha)⟩
  · obtain ⟨p₀, hp₀, -⟩ := hfrom p a hp
    exact h.dialled p₀ a hp₀

/-- What is somewhere after a step was somewhere before, or has been dialled. -/
theorem at_of_change {p : Option ι} (hc : Change req s e t) (hp : At t p c) :
    (∃ q, At s q c) ∨ c = s.dialled ∧ ∃ i stream, e = .dial i stream := by
  cases hc with
  | wait _ same =>
    refine .inl ⟨p, ?_⟩
    cases p with
    | none =>
      simp only [At] at hp ⊢
      rwa [same] at hp
    | some => exact hp
  | pass _ _ after sub =>
    refine .inl ⟨p, ?_⟩
    cases p with
    | none => exact sub.subset hp
    | some => exact (at_of_set rfl after hp).2
  | @reuse _ i d pool _ _ perm =>
    cases p with
    | none => exact .inl ⟨none, perm.mem_iff.2 (mem_cons_of_mem d hp)⟩
    | some j =>
      obtain rfl | hj := eq_or_ne j i
      · obtain rfl := at_set_holding.1 hp
        exact .inl ⟨none, perm.mem_iff.2 mem_cons_self⟩
      · exact .inl ⟨some j, (at_set_of_ne hj).1 hp⟩
  | @dial i stream =>
    cases p with
    | none => exact .inl ⟨none, hp⟩
    | some j =>
      obtain rfl | hj := eq_or_ne j i
      · exact .inr ⟨at_set_holding.1 hp, j, stream, rfl⟩
      · exact .inl ⟨some j, (at_set_of_ne hj).1 hp⟩
  | @handBack i d reused _ _ reply r _ holds _ _ sub =>
    cases p with
    | none =>
      rcases mem_append.1 (sub.subset hp) with hs | hs
      · exact .inl ⟨none, hs⟩
      · obtain rfl := mem_singleton.1 hs
        exact .inl ⟨some i, reused, holds⟩
    | some j =>
      have hfree : (Call.returned reply.resp).free := nofun
      exact .inl ⟨some j, (at_of_set rfl hfree hp).2⟩
  | @drop _ d _ _ _ stream _ _ after =>
    cases p with
    | none => exact .inl ⟨none, hp⟩
    | some j => exact .inl ⟨some j, (at_of_set rfl after hp).2⟩

/-- A connection that a call drops is nowhere. -/
theorem not_at_drop (h : Owned s) (hi : s.calls i = .holding c reused) (hfree : call.free)
    (p : Option ι) : ¬ At ((s.read c stream).set i call) p c := by
  have hc : At s (some i) c := ⟨reused, hi⟩
  intro hp
  cases p with
  | none => cases h.exclusive (some i) none c hc hp
  | some j =>
    obtain ⟨hj, hs⟩ : j ≠ i ∧ At s (some j) c := at_of_set rfl hfree hp
    cases h.exclusive _ _ _ hs hc
    exact hj rfl

theorem owned_step (h : Owned s) (hc : Change req s e t) : Owned t := by
  cases hc with
  | wait _ same => exact h.mono (same ▸ .refl _) (fun _ _ ha => ha) rfl
  | pass _ _ after sub => exact h.mono sub (fun j c hj => (at_of_set rfl after hj).2) rfl
  | reuse _ before perm => exact h.reuse before perm
  | dial before => exact h.dial before
  | handBack holds _ _ sub => exact h.handBack holds nofun sub
  | drop holds after => exact h.handBack holds after (sublist_append_left _ _)

theorem owned_run {tr : List (State ι × Event ι)} (h : Run (step req) {} tr s) : Owned s :=
  h.invariant (fun _ _ => True) (fun _ _ => trivial) .init
    fun hs _ hstep => owned_step hs (change_of_step hstep)

end Manwe.PooledRequest
