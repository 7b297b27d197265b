import Manwe.Soccer.Http2.Client.Streams
import Manwe.Soccer.Http2.Client.Waiters

/-!
# Requests are woken once

From `Inv`: a handle is resumed **once**, after its stream is done; a stream object is in the map as
long as its request has not taken the response; and once `closed` is set and the sweeps are over, no
request is left waiting.

All of it supposes that no frame is destroyed while it is parked. `StreamAwaiter` has no destructor:
the handle stays in the stream object, and **whoever closes or fails the stream later resumes it**.
-/

namespace Manwe.Http2.Client

open Function List State

variable {ι : Type} [DecidableEq ι] {s t : State ι} {e : Event ι} {tr : List (State ι × Event ι)}

/-! ### The ways of an operation -/

/-- From one phase to the next; `d` is whether the step destroys a frame. -/
inductive Goes (d : Bool) : Phase → Phase → Prop
  | refused : Goes d .idle .ended
  | checked : Goes d .idle .checked
  | dropped : Goes d .checked .ended
  | registered (id : ℕ) : Goes d .checked (.flushing id)
  | flushed (id : ℕ) : Goes d (.flushing id) (.awaiting id)
  | aborted (id : ℕ) : Goes d (.flushing id) .sweeping
  | suspends (id : ℕ) : Goes d (.awaiting id) (.suspending id)
  | ready (id : ℕ) : Goes d (.awaiting id) (.resumed id)
  | parks (id : ℕ) : Goes d (.suspending id) (.parked id)
  | raced (id : ℕ) : Goes d (.suspending id) (.resumed id)
  | woken (id : ℕ) : Goes d (.parked id) (.resumed id)
  | taken (id : ℕ) : Goes d (.resumed id) .ended
  | expired (id : ℕ) : Goes d .idle (.expired id)
  | failed (id : ℕ) : Goes d (.expired id) .ended
  | shut : Goes d .idle .sweeping
  | swept : Goes d .sweeping .ended
  | destroyed (hd : d = true) (id : ℕ) : Goes d (.parked id) .destroyed

variable {i j : ι}

theorem goes_update {d : Bool} {ops : ι → Phase} {p : Phase} (h : Goes d (ops i) p) (j : ι) :
    update ops i p j = ops j ∨ Goes d (ops j) (update ops i p j) := by
  obtain rfl | hj := eq_or_ne j i
  · rw [update_self]
    exact .inr h
  · exact .inl (update_of_ne hj ..)

omit [DecidableEq ι] in
@[simp] theorem ops_onCallback (id : ℕ) (c : Callback) : (s.onCallback id c).ops = s.ops := by
  cases c with
  | close =>
    simp only [onCallback, onStreamClose]
    split <;> rfl
  | _ => rfl

omit [DecidableEq ι] in
@[simp] theorem ops_failStream (id : ℕ) (timedOut : Bool) : (s.failStream id timedOut).ops = s.ops
    := by
  rw [failStream]
  split <;> rfl

omit [DecidableEq ι] in
@[simp] theorem ops_take (id : ℕ) (st : Http2Stream ι) : (s.take id st).ops = s.ops := by
  rw [State.take]
  split <;> rfl

theorem ops_register (i : ι) :
    (s.register i).ops = update s.ops i (if s.closed then .ended else .flushing s.nextId) := by
  rw [register]
  split <;> rfl

theorem goes_step (hs : step s e = some t) (j : ι) :
    t.ops j = s.ops j ∨ Goes e.destroys (s.ops j) (t.ops j) := by
  cases e with (simp only [step] at hs; repeat' first | cases hs | split at hs)
  | request | deadline | close | ready =>
    next hi =>
    refine goes_update ?_ j
    rw [hi]
    split <;> constructor
  | submitFails | flushed | flushFails | shut | sweep =>
    next hi => exact goes_update (by rw [hi]; constructor) j
  | register =>
    next hi =>
    rw [ops_register]
    refine goes_update ?_ j
    rw [hi]
    split <;> constructor
  | suspend =>
    next id hi _ =>
    first
    | exact goes_update (hi ▸ .parks id) j
    | exact goes_update (hi ▸ .raced id) j
  | resume =>
    first
    | exact .inl rfl
    | next id hi => exact goes_update (hi ▸ .woken id) j
  | take =>
    first
    | next id hi _ _ => exact goes_update (hi ▸ .taken id) j
    | next id hi _ _ _ =>
      rw [ops_take]
      exact goes_update (hi ▸ .taken id) j
  | callback => exact .inl (by rw [ops_onCallback])
  | failStream =>
    next id hi =>
    rw [ops_failStream]
    exact goes_update (hi ▸ .failed id) j
  | destroy => next id hi => exact goes_update (hi ▸ .destroyed rfl id) j

/-- The request has been resumed. -/
def Phase.past : Phase → Bool
  | .resumed _ => true
  | .ended => true
  | _ => false

theorem past_step (hs : step s e = some t) (hj : (s.ops j).past = true) :
    (t.ops j).past = true := by
  obtain h | h := goes_step hs j
  · rw [h]
    exact hj
  · generalize s.ops j = p at h hj
    generalize t.ops j = q at h
    cases h <;> first | rfl | cases hj

/-- Whoever was resumed is past it. -/
theorem past_run (h : Run step {} tr s) (hd : ∀ p ∈ tr, p.2.destroys = false) :
    (logOf resumes tr).Nodup ∧ ∀ i ∈ logOf resumes tr, (s.ops i).past = true := by
  refine h.induct (fun _ e => e.destroys = false) hd ⟨nodup_nil, nofun⟩
    fun {tr s e t} hr hd' ⟨hn, hp⟩ _ hs => ?_
  have hkeep : ∀ i ∈ logOf resumes tr, (t.ops i).past = true :=
    fun i hi => past_step hs (hp i hi)
  rw [logOf_snoc]
  cases e with
  | resume i =>
    simp only [step] at hs
    split at hs
    · next hm =>
      obtain ⟨id, hi⟩ := (inv_run hr hd').resuming i hm
      simp only [hi] at hs
      cases hs
      have hnew : i ∉ logOf resumes tr := by
        intro hmem
        have := hp i hmem
        rw [hi] at this
        cases this
      refine ⟨concat_eq_append ▸ hn.concat hnew, forall_mem_append.2 ⟨hkeep, ?_⟩⟩
      simp [put, Phase.past, resumes]
    · cases hs
  | _ =>
    rw [show resumes s _ = [] from rfl, append_nil]
    exact ⟨hn, hkeep⟩

/-! ### What holds in every run -/

theorem mem_resuming_of_step (hs : step s (.resume i) = some t) : i ∈ s.resuming := by
  simp only [step] at hs
  split at hs
  · assumption
  · cases hs

omit [DecidableEq ι] in
theorem Inv.of_resuming (h : Inv s) (hm : i ∈ s.resuming) :
    ∃ id st, s.ops i = .parked id ∧ s.streams.find id = some st ∧ st.done = true := by
  obtain ⟨id, hi⟩ := h.resuming i hm
  obtain ⟨st, hst⟩ := Option.ne_none_iff_exists'.1 (h.named i id (by simp [hi]))
  exact ⟨id, st, hi, hst, h.woken i id st hm hi hst⟩

omit [DecidableEq ι] in
/-- A stream object goes when the session has closed the stream and the response was taken. -/
theorem Touch.both {id : ℕ} {st : Http2Stream ι} (h : Touch s id e (some st) none) :
    (st.sessionClosed = true ∨ ∃ code, e = .callback id (.close code)) ∧
      (st.consumed = true ∨ ∃ i, e = .take i ∧ s.ops i = .resumed id) := by
  cases h with
  | gone consumed => exact ⟨.inr ⟨_, rfl⟩, .inl consumed⟩
  | erase resumed closed => exact ⟨.inl closed, .inr ⟨_, rfl, resumed⟩⟩

/-- **Woken once, and freed at the right time.** No handle is resumed twice, and only one that is
parked on a stream that is done; a stream object leaves the map when the session has closed the
stream and the response was taken, each of them before or by this very step, so that `await_resume`
finds it; and when `closed` is set and every party that has set it is done with its sweep, every
stream is done and without a waiter, and whoever is parked is about to be resumed. -/
theorem request_wokenOnce (h : Run step {} tr s) (hd : ∀ p ∈ tr, p.2.destroys = false) :
    (logOf resumes tr).Nodup ∧
    (∀ s₁ i, (s₁, Event.resume i) ∈ tr → ∃ id st, s₁.ops i = .parked id ∧
      s₁.streams.find id = some st ∧ st.done = true) ∧
    (∀ s₁ e t₁ id st, (s₁, e) ∈ tr → step s₁ e = some t₁ → s₁.streams.find id = some st →
      t₁.streams.find id = none →
      (st.sessionClosed = true ∨ ∃ code, e = .callback id (.close code)) ∧
        (st.consumed = true ∨ ∃ i, e = .take i ∧ s₁.ops i = .resumed id)) ∧
    (∀ s₁ i id, (s₁, Event.take i) ∈ tr → s₁.ops i = .resumed id → s₁.streams.find id ≠ none) ∧
    (s.closed = true → (∀ i, s.ops i ≠ .sweeping) →
      (∀ id st, s.streams.find id = some st → st.done = true ∧ st.waiter = none) ∧
      ∀ i id, s.ops i = .parked id → i ∈ s.resuming) := by
  have hinv : ∀ s₁ e, (s₁, e) ∈ tr → Inv s₁ := by
    intro s₁ e hm
    obtain ⟨tr₁, -, hr, -, hpre⟩ := h.before hm
    exact inv_run hr fun p hp => hd p (hpre.subset hp)
  refine ⟨(past_run h hd).1, fun s₁ i hm => ?_, fun s₁ e t₁ id st hm hs hst hnone => ?_,
    fun s₁ i id hm hi => ?_, fun hc hsw => ?_⟩
  · obtain ⟨-, t₁, -, hs, -⟩ := h.before hm
    exact (hinv s₁ _ hm).of_resuming (mem_resuming_of_step hs)
  · have := touch_of_step (hinv s₁ e hm).find_nextId hs id
    rw [hst, hnone] at this
    exact this.both
  · exact (hinv s₁ _ hm).named i id (by simp [hi])
  · have h₁ := inv_run h hd
    have hdone := (h₁.swept hc).resolve_left fun ⟨i, hi⟩ => hsw i hi
    have hfree : ∀ id st, s.streams.find id = some st → st.waiter = none := by
      intro id st hst
      by_contra hne
      obtain ⟨i, hi⟩ := Option.ne_none_iff_exists'.1 hne
      have := (h₁.waiter id st i hst hi).2
      rw [hdone id st hst] at this
      cases this
    refine ⟨fun id st hst => ⟨hdone id st hst, hfree id st hst⟩, fun i id hi => ?_⟩
    obtain ⟨st, hst⟩ := Option.ne_none_iff_exists'.1 (h₁.named i id (by simp [hi]))
    refine (h₁.parked i id st hi hst).resolve_left ?_
    rw [hfree id st hst]
    exact nofun

/-- Two requests: the first one is answered, the second one parked when `close` sweeps. -/
def answeredAndSwept : List (Event ℕ) :=
  [.request 0, .register 0, .request 1, .register 1, .flushed 0, .flushed 1, .ready 0, .suspend 0,
    .ready 1, .suspend 1, .callback 1 .beginHeaders, .callback 1 (.header (bytes ":status") (bytes
      "200")),
    .callback 1 (.frame true), .callback 1 (.close 0), .resume 0, .take 0, .close 2, .sweep 2]

theorem request_wokenOnce_swept : ∃ tr, ∃ s : State ℕ, Run step {} tr s ∧ s.closed = true ∧
    s.ops 1 = .parked 3 ∧ 1 ∈ s.resuming ∧ (logOf resumes tr).Nodup := by
  have h : Run step ({} : State ℕ) _ _ := .follow answeredAndSwept (by decide +kernel)
  exact ⟨_, _, h, by decide +kernel, by decide +kernel, by decide +kernel,
    (request_wokenOnce h (by decide +kernel)).1⟩

/-! ### Frames that are destroyed -/

/-- The handles that the step takes out of streams. -/
def taken (s : State ι) : Event ι → List ι
  | .callback id (.close _) => (s.streams.find id).elim [] fun st => st.waiter.toList
  | .failStream i =>
    match s.ops i with
    | .expired id => (s.streams.find id).elim [] Http2Stream.woken
    | _ => []
  | .sweep _ => s.streams.entries.flatMap fun p => p.2.woken
  | _ => []

/-- A frame is destroyed by nothing else. -/
theorem destroyed_step (hs : step s e = some t) (hj : t.ops j = .destroyed) :
    s.ops j = .destroyed ∨ e = .destroy j := by
  obtain h | h := goes_step hs j
  · exact .inl (h.symm.trans hj)
  · rw [hj] at h
    generalize hp : s.ops j = p at h
    cases h with
    | destroyed hd =>
      cases e <;> cases hd
      next i =>
      simp only [step] at hs
      split at hs <;> cases hs
      obtain rfl | hne := eq_or_ne j i
      · exact .inr rfl
      · rw [show (s.put i .destroyed).ops j = s.ops j from update_of_ne hne .., hp] at hj
        cases hj

end Manwe.Http2.Client
