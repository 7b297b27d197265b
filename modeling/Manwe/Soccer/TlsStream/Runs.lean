import Manwe.Soccer.TlsStream.Placed

/-!
# Who closes the descriptor of a TLS stream

In any run the descriptor is closed at most once, and **never while somebody has a ticket** for it.

A second `close` finds nothing to take and returns at once, perhaps while the first is still saying
goodbye: that *some* `close` has returned does not mean that the descriptor is closed. It is once
the one that took it has returned and no ticket is left.
-/

namespace Manwe.TlsStream

open List

variable {ι : Type} [DecidableEq ι]

section Runs

variable {d : Int} {pending : Bool} {s : State ι} {tr : List (State ι × Event ι)}

variable {e : Event ι} {p : Place} {k : ι}

theorem Place.care_of_closer {c : Closer} (h : p.closer = some c) : p.care = c.care := by
  cases p with
  | close | hsClose =>
    cases h
    rfl
  | _ => cases h

/-- A party that is done with its ticket has none, and takes care of the descriptor only in a
`close`. -/
theorem Place.of_unticketed (h : p.ticketed = false) :
    p.ticket = false ∧ (∀ fd, p.care ≠ .drops fd) ∧ (p.closer = none → p.care = .none) := by
  cases p with
  | close c => exact ⟨rfl, fun fd => by cases c <;> nofun, nofun⟩
  | shut => cases h
  | _ => first | exact ⟨rfl, nofun, fun _ => rfl⟩ | cases h

omit [DecidableEq ι] in
/-- A step that closes a descriptor is one of a party that has it in hand for that. -/
theorem care_of_closesAt {s : State ι} {fd : Int} (h : fd ∈ closesAt s e) :
    (s.view e.actor).care = .shuts fd ∨ (s.view e.actor).care = .drops fd := by
  cases e with
  | leave =>
    simp only [closesAt] at h
    split at h
    · next hp =>
      obtain rfl := mem_singleton.1 h
      rw [Event.actor, State.view, hp]
      exact .inr rfl
    · cases h
  | close =>
    simp only [closesAt] at h
    split at h
    · next hp =>
      obtain rfl := mem_singleton.1 h
      exact .inl (Place.care_of_closer hp)
    · cases h
  | _ => cases h

omit [DecidableEq ι] in
/-- Without the context in the `Impl`, a libtls call is one of a `close` that has something in
hand. -/
theorem hand_of_tlsCalls {s : State ι} {call : TlsCall} (hctx : s.ctx = false)
    (h : (k, call) ∈ tlsCalls s e) :
    (call = .close ∨ call = .free) ∧ ∃ fd, (s.view k).care = .hand fd := by
  cases e with
  | handshake =>
    simp only [tlsCalls, hctx] at h
    split at h <;> simp at h
  | transfer =>
    simp only [tlsCalls, hctx] at h
    split at h
    · split at h <;> simp at h
    · cases h
  | close =>
    simp only [tlsCalls] at h
    split at h
    pick_goal 4
    · cases h
    all_goals
      next hp =>
      obtain ⟨rfl, rfl⟩ := Prod.mk.inj (mem_singleton.1 h)
      exact ⟨by simp, _, Place.care_of_closer hp⟩
  | alpnSelected => simp [tlsCalls, hctx] at h
  | _ => cases h

variable (hd : 0 ≤ d) (h : Run step (adopted ι d pending) tr s)

include hd h

/-- Once the `close` that took the descriptor out has returned and no ticket is left, the descriptor
is closed. -/
theorem closed_of_returned (hk : k ∈ logOf takesAt tr) (hret : (s.parties k).place.closer = none)
    (hleft : ∀ i, (s.parties i).place.ticketed = false) : logOf closesAt tr = [d] := by
  obtain ⟨⟨n, hn, ht⟩, loc, hp⟩ := placed_run hd h
  have hnone : (s.view k).care = .none := (Place.of_unticketed (hleft k)).2.2 hret
  rw [hp.care] at hnone
  cases loc with
  | slot =>
    rw [show logOf takesAt tr = [] from hp.taken] at hk
    cases hk
  | hand i | shutting i =>
    rw [show logOf takesAt tr = [i] from hp.taken, mem_singleton] at hk
    rw [hk, Loc.care, if_pos rfl] at hnone
    cases hnone
  | retired =>
    obtain rfl | hpos := Nat.eq_zero_or_pos n
    · exact absurd hn hp.waits
    · obtain ⟨i, hi⟩ := ht.exists_of_pos hpos
      exact absurd hi (ne_true_of_eq_false (Place.of_unticketed (hleft i)).1)
  | dropping i =>
    exact absurd ((hp.care i).trans (if_pos rfl)) ((Place.of_unticketed (hleft i)).2.1 d)
  | closed => exact hp.log

/-- A step that closes a descriptor finds no ticket. -/
theorem unticketed_of_closesAt (hc : closesAt s e ≠ []) (i : ι) :
    (s.parties i).place.ticket = false := by
  obtain ⟨hn, loc, hp⟩ := placed_run hd h
  obtain ⟨fd, hfd⟩ := exists_mem_of_ne_nil _ hc
  obtain ⟨-, hshuts, hdrops⟩ := hp.of_care
  have hloc : loc = .shutting e.actor ∨ loc = .dropping e.actor :=
    (care_of_closesAt hfd).imp (fun h => (hshuts fd h).1) fun h => (hdrops fd h).1
  by_contra hi
  obtain rfl | ⟨k, rfl⟩ | rfl := hp.held hn (Bool.not_eq_false _ ▸ hi)
  all_goals simp at hloc

omit hd h

/-- **The descriptor is closed once, and under nobody.** Whatever the parties do:

* the descriptor is passed to `closeSocket` at most once, and it has been once the `close` that took
  it out has returned and no ticket is left;
* when it is, nobody has a ticket;
* after a `close` has taken the context out, no libtls call starts on it but this one's `tls_close`
  and `tls_free`;
* `waiters` is never negative, and positive while there is a ticket to take away. -/
theorem descriptor_closedOnce (hd : 0 ≤ d) (h : Run step (adopted ι d pending) tr s) :
    (logOf closesAt tr = [] ∨ logOf closesAt tr = [d]) ∧
    (∀ k ∈ logOf takesAt tr, (s.parties k).place.closer = none →
      (∀ i, (s.parties i).place.ticketed = false) → logOf closesAt tr = [d]) ∧
    (∀ p ∈ tr, closesAt p.1 p.2 ≠ [] → ∀ i, (p.1.parties i).place.ticket = false) ∧
    (∀ tr₁ p tr₂, tr = tr₁ ++ p :: tr₂ → ∀ k ∈ logOf takesAt tr₁, ∀ q ∈ tlsCalls p.1 p.2,
      q.1 = k ∧ (q.2 = .close ∨ q.2 = .free)) ∧
    0 ≤ s.waiters ∧ ∀ i, (s.parties i).place.ticket = true → 0 < s.waiters := by
  obtain ⟨⟨n, hn, ht⟩, loc, hp⟩ := placed_run hd h
  have hwaiters : s.waiters = n := hn
  refine ⟨?_, fun k hk => closed_of_returned hd h hk, fun p hp hc => ?_, ?_, by omega,
    fun i hi => ?_⟩
  · rw [hp.log]
    cases loc with
    | closed => exact .inr rfl
    | _ => exact .inl rfl
  · obtain ⟨tr', t, hr, -⟩ := h.before hp
    exact unticketed_of_closesAt hd hr hc
  · rintro tr₁ p tr₂ rfl k hk q hq
    obtain ⟨-, loc', hp'⟩ := placed_run hd h.cut
    have hctx : p.1.ctx = false := by
      have hs := hp'.shared
      have ht := hp'.taken
      cases loc' with
      | slot =>
        rw [show logOf takesAt tr₁ = [] from ht] at hk
        cases hk
      | _ => exact congrArg Prod.fst hs
    obtain ⟨hcall, fd, hhand⟩ := hand_of_tlsCalls hctx hq
    obtain ⟨rfl, rfl⟩ := hp'.of_care.1 fd hhand
    rw [show logOf takesAt tr₁ = [q.1] from hp'.taken, mem_singleton] at hk
    exact ⟨hk.symm, hcall⟩
  · have := ht.pos hi
    omega

end Runs

/-- A handshake parks; two handles are closed; the handshake wakes to find the context gone, and its
ticket takes the descriptor along. -/
def closedUnderHandshake : List (Event (Fin 3)) :=
  [.start 0 .read 4, .handshake 0 (.ok 0) false, .handshake 0 (.ok 0) false,
    .handshake 0 (.ok 0) false, .handshake 0 (.ok 0) false, .handshake 0 .wantPoll false,
    .register 0, .start 1 .close 0, .close 1 false, .start 2 .close 0, .close 2 false,
      .close 1 true,
    .close 1 false, .close 1 false, .close 1 false, .close 1 false, .resume 0,
    .handshake 0 (.ok 0) false, .leave 0, .leave 0]

theorem descriptor_closedOnce_underHandshake : ∃ tr s, Run step (adopted (Fin 3) 7 true) tr s ∧
      logOf tlsCalls tr = [(0, .handshake), (1, .close), (1, .close), (1, .free)] ∧
      logOf closesAt tr = [7] := by
  have h : Run step (adopted (Fin 3) 7 true) _ _ := .follow closedUnderHandshake (by decide +kernel)
  exact ⟨_, _, h, by decide +kernel, (descriptor_closedOnce (by decide) h).2.1 1 (by decide +kernel)
    (by decide +kernel) (by decide +kernel)⟩

/-- **A `close` may return before the descriptor is closed**, though there is no ticket: another one
has taken it out and is not done. -/
theorem close_returns_early : ∃ tr s, Run step (adopted (Fin 2) 7 false) tr s ∧
      s.parties 1 = { job := .close, place := .done (.returned 0) } ∧
      (∀ i, (s.parties i).place.ticketed = false) ∧ logOf closesAt tr = [] :=
  Run.exists_of_exec [.start 0 .close 0, .close 0 false, .start 1 .close 0, .close 1 false]
    (by decide +kernel)

end Manwe.TlsStream
