import Manwe.Soccer.Http2.Flush.Output

/-!
# Flushing loses nothing, and where it does

**A call that found an active writer** returns with its output still queued. Nothing is stranded:
the writer clears the flag only in a section in which it finds the queue empty (`settled_run`).

A write that fails clears the flag as well. If the transport is not dead by then — the write was
cancelled, or `beginWrite` threw — and the caller does not shut it down in time, **the next flush
writes on after the hole**.
-/

namespace Manwe.Http2.Flush

open Function List Flush

variable {ι : Type} [DecidableEq ι] {s t : State ι} {e : Event ι} {tr : List (State ι × Event ι)}

/-- The write of a chunk fails. -/
def Event.fails : Event ι → Bool
  | .fail _ => true
  | _ => false

/-- Whoever has returned, its output was pulled as soon as no writer is active. -/
structure Settled (tr : List (State ι × Event ι)) (s : State ι) : Prop where
  failed : ∀ i who, s.calls i ≠ .failed who
  returned : s.writing = false → ∀ tr₁ p tr₂, tr = tr₁ ++ p :: tr₂ → returns p.1 p.2 = true →
    logOf submitted tr₁ <+: logOf emitted tr

omit [DecidableEq ι] in
/-- A step after which the flag is clear and was clear before it, and which ends no call. -/
theorem Settled.quiet (h : Settled tr s) (hf : ∀ i who, t.calls i ≠ .failed who)
    (hw : t.writing = false → s.writing = false ∧ returns s e = false) :
    Settled (tr ++ [(s, e)]) t := by
  refine ⟨hf, fun ht tr₁ p tr₂ htr hp => ?_⟩
  obtain ⟨hs, hr⟩ := hw ht
  obtain rfl | ⟨tr₂, q, rfl⟩ := eq_nil_or_concat tr₂
  · obtain ⟨rfl, h₁⟩ := append_inj' htr rfl
    cases h₁
    rw [hr] at hp
    cases hp
  · rw [concat_eq_append, ← cons_append, ← append_assoc] at htr
    have := h.returned hs tr₁ p tr₂ (append_inj' htr rfl).1 hp
    exact this.trans (logOf_mono _ (prefix_append _ _))

variable {n : ℕ} {calls : ι → Phase} {i : ι} {p : Phase}

theorem failed_update (h : ∀ i who, calls i ≠ .failed who) (hp : ∀ who, p ≠ .failed who) (j : ι)
    (who : Caller) : update calls i p j ≠ .failed who := by
  obtain rfl | hj := eq_or_ne j i
  · rw [update_self]
    exact hp who
  · rw [update_of_ne hj]
    exact h j who

theorem Settled.step (h : Settled tr s) (hpull : Pulled (tr ++ [(s, e)]) t) (he : e.fails = false)
    (hc : Change s e t) : Settled (tr ++ [(s, e)]) t := by
  cases hc with
  | submit | shutdown => exact h.quiet h.failed fun hw => ⟨hw, rfl⟩
  | call | write | wrote | unwind =>
    exact h.quiet (failed_update h.failed nofun) fun hw => ⟨hw, rfl⟩
  | busy pulling writing =>
    refine h.quiet (failed_update h.failed nofun) fun hw => ?_
    rw [show s.writing = false from hw] at writing
    cases writing
  | @dry i who first pulling turn out =>
    refine ⟨failed_update h.failed nofun, fun _ tr₁ p tr₂ htr _ => ?_⟩
    -- the queue is empty, so everything submitted so far is pulled
    have hall : logOf emitted (tr ++ [(s, .pull i)]) ++ flat s.out
        = logOf submitted (tr ++ [(s, .pull i)]) := hpull
    rw [out, show flat [] = [] from rfl, append_nil] at hall
    rw [hall]
    exact logOf_mono _ ⟨p :: tr₂, htr.symm⟩
  | chunk => exact h.quiet (failed_update h.failed nofun) nofun
  | fail => cases he
  | clear failed => exact absurd failed (h.failed _ _)

theorem settled_run (h : Run step {} tr s) (hok : ∀ p ∈ tr, p.2.fails = false) : Settled tr s := by
  refine h.induct (fun _ e => e.fails = false) hok ⟨nofun, fun _ tr₁ p tr₂ htr => ?_⟩
    fun hr _ ih he hs => ih.step (pulled_run (hr.next hs)) he (change_of_step hs)
  cases tr₁ <;> cases htr

/-! ### How much is pulled ahead -/

/-- With frames of at most `n` bytes, less than a chunk and a frame is in hand. -/
structure Short (n : ℕ) (s : State ι) : Prop where
  out : ∀ f ∈ s.out, f.bytes.length ≤ n
  hand : ∀ i l, (s.calls i).left = some l → l.length < kFlushChunkBytes + n

theorem hand_update (h : ∀ i l, (calls i).left = some l → l.length < kFlushChunkBytes + n)
    (hp : ∀ l, p.left = some l → l.length < kFlushChunkBytes + n) (j : ι) (l : Bytes)
    (hj : (update calls i p j).left = some l) : l.length < kFlushChunkBytes + n := by
  obtain rfl | hne := eq_or_ne j i
  · rw [update_self] at hj
    exact hp l hj
  · rw [update_of_ne hne] at hj
    exact h j l hj

theorem Short.step (h : Short n s) (hf : ∀ f, e = .submit f → f.bytes.length ≤ n)
    (hc : Change s e t) : Short n t := by
  cases hc with
  | submit f =>
    refine ⟨fun g hg => ?_, h.hand⟩
    obtain hg | rfl : g ∈ s.out ∨ g = f := by simpa using hg
    · exact h.out g hg
    · exact hf g rfl
  | call idle | busy pulling writing | dry pulling turn out | wrote writing | fail writing
  | clear | unwind => exact ⟨h.out, hand_update h.hand nofun⟩
  | chunk pulling turn out =>
    refine ⟨fun f hf => h.out f (mem_of_mem_pullFrames hf), hand_update h.hand fun l hl => ?_⟩
    cases hl
    exact length_pullFrames_lt (Nat.add_pos_left (by decide) n) h.out
  | @write i who m left writing =>
    refine ⟨h.out, hand_update h.hand fun l hl => ?_⟩
    cases hl
    have := h.hand i left (by rw [writing]; rfl)
    rw [length_drop]
    omega
  | shutdown => exact ⟨h.out, h.hand⟩

theorem short_run (h : Run step {} tr s)
    (hf : ∀ s₁ f, (s₁, Event.submit f) ∈ tr → f.bytes.length ≤ n) : Short n s := by
  induction h with
  | start => exact ⟨nofun, nofun⟩
  | @next tr s t e hr hs ih =>
    refine (ih fun s₁ f hm => hf s₁ f (mem_append_left _ hm)).step ?_ (change_of_step hs)
    rintro f rfl
    exact hf s f (mem_append_right _ (mem_singleton_self _))

omit [DecidableEq ι] in
theorem deadOrDone_of_fails (hok : ∀ p ∈ tr, p.2.fails = false) :
    ∀ p ∈ tr, deadOrDone p.1 p.2 = true := by
  rintro ⟨s, e⟩ hp
  have := hok _ hp
  cases e <;> first | rfl | cases this

/-- **A lossless single writer.** With writes that succeed: one call at most is writing; what the
transport has taken, the rest of the chunk in hand and what is queued are together what was
submitted, in this order, and less than a chunk and one frame is in hand; and if no call is active,
the flag is clear and everything that was submitted before some call returned is written. -/
theorem flushSession_lossless (h : Run step {} tr s) (hok : ∀ p ∈ tr, p.2.fails = false) :
    (∀ i j, (s.calls i).left.isSome → (s.calls j).left.isSome → i = j) ∧
    (∃ left, s.wire ++ left = logOf emitted tr ∧ s.wire ++ left ++ flat s.out = logOf submitted tr ∧
      ∀ n, (∀ s₁ f, (s₁, Event.submit f) ∈ tr → f.bytes.length ≤ n) →
        left.length < kFlushChunkBytes + n) ∧
    ((∀ i, s.calls i = .idle ∨ s.calls i = .ended) → s.writing = false ∧
      ∀ tr₁ p tr₂, tr = tr₁ ++ p :: tr₂ → returns p.1 p.2 = true →
        logOf submitted tr₁ <+: s.wire) := by
  have ho := owners_run h
  have hpull := pulled_run h
  obtain ⟨left, hp⟩ : ∃ left, Pieces s (logOf emitted tr) left := by
    obtain hp | ⟨-, -, s₁, i, hf⟩ := flow_run h (deadOrDone_of_fails hok)
    · exact hp
    · cases hok _ hf
  refine ⟨fun i j hi hj => ?_, ⟨left, hp.eq, ?_, fun n hn => ?_⟩, fun hquiet => ?_⟩
  · obtain ⟨l, hl⟩ := Option.isSome_iff_exists.1 hi
    obtain ⟨l', hl'⟩ := Option.isSome_iff_exists.1 hj
    exact ho.unique (Phase.owns_of_left hl) (Phase.owns_of_left hl')
  · rw [hp.eq]
    exact hpull
  · by_cases hnone : ∀ i, (s.calls i).left = none
    · rw [hp.empty hnone]
      exact Nat.add_pos_left (by decide) n
    · obtain ⟨i, hi⟩ := not_forall.1 hnone
      obtain ⟨l, hl⟩ := Option.ne_none_iff_exists'.1 hi
      rw [← hp.hand i l hl]
      exact (short_run h hn).hand i l hl
  · have hfree : ∀ i, (s.calls i).owns = false ∧ (s.calls i).left = none := by
      intro i
      obtain hi | hi := hquiet i <;> rw [hi] <;> exact ⟨rfl, rfl⟩
    have hw : s.writing = false := by
      refine Bool.eq_false_of_not_eq_true fun hw => ?_
      rw [Owners, hw] at ho
      obtain ⟨i, hi⟩ := ho.exists_of_pos Nat.one_pos
      rw [(hfree i).1] at hi
      cases hi
    refine ⟨hw, fun tr₁ p tr₂ htr hr => ?_⟩
    have := (settled_run h hok).returned hw tr₁ p tr₂ htr hr
    rwa [← hp.eq, hp.empty fun i => (hfree i).2, append_nil] at this

def frame (b : UInt8) (bs : Bytes) : Frame := ⟨b :: bs, cons_ne_nil b bs⟩

/-- The second call finds the first one writing and returns; the first one writes its frame too. -/
def handOver : List (Event ℕ) :=
  [.submit (frame 1 [2]), .call 0 .request, .pull 0, .write 0 1, .submit (frame 3 []),
    .call 1 .handler, .pull 1, .write 0 5, .wrote 0, .pull 0, .write 0 1, .wrote 0, .pull 0]

theorem flushSession_lossless_handOver : ∃ tr, ∃ s : State ℕ, Run step {} tr s ∧
    s.wire = [1, 2, 3] ∧ (∃ left, s.wire ++ left ++ flat s.out = logOf submitted tr) := by
  obtain ⟨tr, s, h, hw, hok⟩ : ∃ tr, ∃ s : State ℕ, Run step {} tr s ∧ s.wire = [1, 2, 3] ∧
      ∀ p ∈ tr, p.2.fails = false := Run.exists_of_exec handOver (by decide +kernel)
  obtain ⟨-, ⟨left, -, hl, -⟩, -⟩ := flushSession_lossless h hok
  exact ⟨tr, s, h, hw, left, hl⟩

/-! ### After a failed write -/

theorem Change.down (hc : Change s e t) (hd : s.down = true) : t.down = true ∧ t.wire = s.wire := by
  cases hc with
  | write writing up =>
    rw [up] at hd
    cases hd
  | unwind => exact ⟨by simp [hd], rfl⟩
  | shutdown => exact ⟨rfl, rfl⟩
  | submit | call | busy | dry | chunk | wrote | fail | clear => exact ⟨hd, rfl⟩

/-- Once the transport is dead, nothing is written. -/
theorem down_run (h : Run step {} tr s) {s₁ : State ι} (hm : (s₁, e) ∈ tr)
    (hd : s₁.down = true) : s.down = true ∧ s.wire = s₁.wire := by
  induction h with
  | start => cases hm
  | @next tr s t e' hr hs ih =>
    have hc := change_of_step hs
    obtain hm | he : (s₁, e) ∈ tr ∨ (s₁, e) = (s, e') := by simpa using hm
    · obtain ⟨hd', hw⟩ := ih hm
      exact ⟨(hc.down hd').1, (hc.down hd').2.trans hw⟩
    · cases he
      exact hc.down hd

/-- **A failed write ends the output**, if the transport is dead when a write fails: the wire is
always a beginning of what was taken out of the session, and nothing is written after a chunk that
was not written whole. -/
theorem flushSession_inOrder (h : Run step {} tr s) (hok : ∀ p ∈ tr, deadOrDone p.1 p.2 = true) :
    s.wire <+: logOf emitted tr ∧
    ∀ s₁ i l, (s₁, Event.fail i) ∈ tr → (s₁.calls i).left = some l → l ≠ [] → s.wire = s₁.wire := by
  refine ⟨?_, fun s₁ i l hm hl h0 => ?_⟩
  · obtain ⟨left, hp⟩ | ⟨-, hw, -⟩ := flow_run h hok
    · exact ⟨left, hp.eq⟩
    · exact hw
  · have hd : s₁.down = true := by simpa [deadOrDone, hl, h0] using hok _ hm
    exact (down_run h hm hd).2

/-- The peer is gone in the middle of a write, and a second flush writes nothing. -/
def peerGone : List (Event ℕ) :=
  [.submit (frame 1 [2]), .call 0 .handler, .pull 0, .write 0 1, .shutdown, .fail 0, .clear 0,
    .unwind 0,
    .submit (frame 3 []), .call 1 .handler, .pull 1, .fail 1]

theorem flushSession_inOrder_peerGone : ∃ tr, ∃ s : State ℕ, Run step {} tr s ∧
    logOf emitted tr = [1, 2, 3] ∧ s.wire = [1] ∧ s.wire <+: logOf emitted tr := by
  have h : Run step ({} : State ℕ) _ _ := .follow peerGone (by decide +kernel)
  exact ⟨_, _, h, by decide +kernel, by decide +kernel,
    (flushSession_inOrder h (by decide +kernel)).1⟩

/-- Two route handlers: `beginWrite` throws for the first one, which swallows the exception, and the
second one writes the next chunk. -/
def swallowed : List (Event ℕ) :=
  [.submit (frame 1 [2]), .call 0 .handler, .pull 0, .fail 0, .clear 0, .unwind 0,
    .submit (frame 3 [4]),
    .call 1 .handler, .pull 1, .write 1 2, .wrote 1, .pull 1]

theorem swallowed_hole : ∃ tr, ∃ s : State ℕ, Run step {} tr s ∧
    logOf emitted tr = [1, 2, 3, 4] ∧ s.wire = [3, 4] ∧ ¬ s.wire <+: logOf emitted tr :=
  Run.exists_of_exec swallowed (by decide +kernel)

end Manwe.Http2.Flush
