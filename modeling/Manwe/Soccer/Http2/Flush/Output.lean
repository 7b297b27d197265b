import Manwe.Soccer.Http2.Flush

/-!
# What is on the wire

One call at a time **owns the flag** `writing` (`owners_run`). So what the transport has taken and
what is left of the chunk in hand are together what was pulled out of the session (`flow_run`), and
that with what is still queued is what was submitted (`pulled_run`).

A write that fails leaves the rest of its chunk unwritten. `Flow` then still holds if the transport
is dead by that time, since nothing can follow.
-/

namespace Manwe.Http2.Flush

open Function List Phase Bool

/-! ### The inner loop -/

/-- What the frames say, one after the other. -/
def flat (fs : List Frame) : Bytes := fs.flatMap Frame.bytes

@[simp] theorem flat_cons (f : Frame) (fs : List Frame) : flat (f :: fs) = f.bytes ++ flat fs := rfl

/-- The loop takes frames off the front of the queue. -/
theorem pullFrames_append (chunk : Bytes) (fs : List Frame) :
    (pullFrames chunk fs).1 ++ flat (pullFrames chunk fs).2 = chunk ++ flat fs := by
  induction fs generalizing chunk with
  | nil => rfl
  | cons f fs ih =>
    rw [pullFrames]
    split
    · rw [ih, flat_cons, append_assoc]
    · rfl

variable {fs : List Frame}

/-- The loop stops with nothing in hand only if there is nothing to take. -/
theorem pullFrames_eq_nil : (pullFrames [] fs).1 = [] ↔ fs = [] := by
  have hmore : ∀ (fs : List Frame) (chunk : Bytes), chunk <+: (pullFrames chunk fs).1 := by
    intro fs
    induction fs with
    | nil => exact fun chunk => prefix_refl _
    | cons f fs ih =>
      intro chunk
      rw [pullFrames]
      split
      · exact (prefix_append _ _).trans (ih _)
      · exact prefix_refl _
  refine ⟨fun h => ?_, fun h => by rw [h]; rfl⟩
  cases fs with
  | nil => rfl
  | cons f fs =>
    have hf := hmore fs f.bytes
    rw [pullFrames, if_pos (by decide), nil_append] at h
    rw [h, prefix_nil] at hf
    exact absurd hf f.nonempty

/-- A chunk is short of the limit but for its last frame. -/
theorem length_pullFrames_lt {chunk : Bytes} {n : ℕ} (hc : chunk.length < kFlushChunkBytes + n)
    (h : ∀ f ∈ fs, f.bytes.length ≤ n) : (pullFrames chunk fs).1.length < kFlushChunkBytes + n := by
  induction fs generalizing chunk with
  | nil => exact hc
  | cons f fs ih =>
    rw [pullFrames]
    split
    · next hlt =>
      refine ih ?_ fun g hg => h g (mem_cons_of_mem _ hg)
      have := h f mem_cons_self
      rw [length_append]
      omega
    · exact hc

theorem mem_of_mem_pullFrames {chunk : Bytes} {f : Frame} (h : f ∈ (pullFrames chunk fs).2) :
    f ∈ fs := by
  induction fs generalizing chunk with
  | nil => exact h
  | cons g fs ih =>
    rw [pullFrames] at h
    split at h
    · exact mem_cons_of_mem _ (ih h)
    · exact h

/-! ### What a step does -/

/-- The call is the one that `writing` stands for. -/
def Phase.owns : Phase → Bool
  | .pulling _ first => !first
  | .writing _ _ => true
  | .failed _ => true
  | _ => false

/-- What the transport has not taken of the chunk in hand. -/
def Phase.left : Phase → Option Bytes
  | .writing _ left => some left
  | _ => none

variable {p : Phase}

theorem Phase.owns_of_left {left : Bytes} (h : p.left = some left) : p.owns = true := by
  cases p <;> first | rfl | cases h

variable {ι : Type} [DecidableEq ι] {s t : State ι} {e : Event ι} {tr : List (State ι × Event ι)}

/-- **What a step does.** -/
inductive Change (s : State ι) : Event ι → State ι → Prop
  | submit (f : Frame) : Change s (.submit f) { s with out := s.out ++ [f] }
  | call {i : ι} {who : Caller} (idle : s.calls i = .idle) :
      Change s (.call i who) (s.put i (.pulling who true))
  /-- a writer is active -/
  | busy {i : ι} {who : Caller} (pulling : s.calls i = .pulling who true) (writing : s.writing =
    true) :
      Change s (.pull i) (s.put i .ended)
  /-- the queue is empty -/
  | dry {i : ι} {who : Caller} {first : Bool} (pulling : s.calls i = .pulling who first)
      (turn : (first && s.writing) = false) (out : s.out = []) :
      Change s (.pull i) { s.put i .ended with writing := false }
  | chunk {i : ι} {who : Caller} {first : Bool} (pulling : s.calls i = .pulling who first)
      (turn : (first && s.writing) = false) (out : s.out ≠ []) :
      Change s (.pull i) { s.put i (.writing who (pullFrames [] s.out).1) with
        writing := true, out := (pullFrames [] s.out).2 }
  | write {i : ι} {who : Caller} {n : ℕ} {left : Bytes} (writing : s.calls i = .writing who left)
      (up : s.down = false) :
      Change s (.write i n)
        { s.put i (.writing who (left.drop n)) with wire := s.wire ++ left.take n }
  | wrote {i : ι} {who : Caller} (writing : s.calls i = .writing who []) :
      Change s (.wrote i) (s.put i (.pulling who false))
  | fail {i : ι} {who : Caller} {left : Bytes} (writing : s.calls i = .writing who left) :
      Change s (.fail i) (s.put i (.failed who))
  | clear {i : ι} {who : Caller} (failed : s.calls i = .failed who) :
      Change s (.clear i) { s.put i (.threw who) with writing := false }
  | unwind {i : ι} {who : Caller} (threw : s.calls i = .threw who) :
      Change s (.unwind i) { s.put i .ended with down := s.down || who.shutsDown }
  | shutdown : Change s .shutdown { s with down := true }

theorem change_of_step (h : step s e = some t) : Change s e t := by
  cases e with (simp only [step] at h; repeat' first | cases h | split at h)
  | pull =>
    next who first hi hb =>
    first
    | obtain ⟨rfl, hw⟩ := and_eq_true_iff.1 hb
      exact .busy hi hw
    | have turn := eq_false_of_not_eq_true hb
      by_cases ho : s.out = []
      · rw [State.pull, if_pos (pullFrames_eq_nil.2 ho)]
        exact .dry hi turn ho
      · rw [State.pull, if_neg fun h0 => ho (pullFrames_eq_nil.1 h0)]
        exact .chunk hi turn ho
  | _ => constructor <;> first | assumption | simp_all

/-! ### One owner -/

/-- `writing` counts the calls that own it. -/
def Owners (s : State ι) : Prop :=
  Tally (fun i => (s.calls i).owns = true) s.writing.toNat

variable {i : ι}

omit [DecidableEq ι] in
theorem Owners.writing_of_owns (h : Owners s) (hi : (s.calls i).owns = true) :
    s.writing = true := by
  have hpos := h.pos hi
  cases hw : s.writing with
  | true => rfl
  | false =>
    rw [hw] at hpos
    cases hpos

omit [DecidableEq ι] in
theorem Owners.unique (h : Owners s) {j : ι} (hi : (s.calls i).owns = true)
    (hj : (s.calls j).owns = true) : i = j := by
  have hone : Tally (fun k => (s.calls k).owns = true) 1 := by
    have h' := h
    rwa [Owners, h.writing_of_owns hi] at h'
  exact hone.eq_of_one hi hj

theorem Owners.step (h : Owners s) (hc : Change s e t) : Owners t := by
  have stay : ∀ {i p}, p.owns = (s.calls i).owns →
      Tally (fun j => (update s.calls i p j).owns = true) s.writing.toNat :=
    fun {i p} hp => Tally.update (fun q => owns q = true) h (by rw [hp])
  have leave : ∀ {i p}, (s.calls i).owns = true → p.owns = false →
      Tally (fun j => (update s.calls i p j).owns = true) 0 := by
    intro i p hi hp
    have := Tally.update_leave (fun q => owns q = true) h hi (by rw [hp]; exact
      false_ne_true)
    rwa [h.writing_of_owns hi] at this
  cases hc with
  | submit | shutdown => exact h
  | call idle => exact stay (by rw [idle]; rfl)
  | busy pulling => exact stay (by rw [pulling]; rfl)
  | @dry i who first pulling turn =>
    cases first with
    | true =>
      have hw : s.writing = false := turn
      have := stay (p := .ended) (by rw [pulling]; rfl)
      rwa [hw] at this
    | false => exact leave (by rw [pulling]; rfl) rfl
  | @chunk i who first pulling turn out =>
    cases first with
    | true =>
      have h' := h
      rw [Owners, show s.writing = false from turn] at h'
      exact Tally.update_enter (fun q => owns q = true) h' (by rw [pulling]; exact nofun) rfl
    | false =>
      have hi : (s.calls i).owns = true := by rw [pulling]; rfl
      have := stay (p := .writing who (pullFrames [] s.out).1) (by rw [hi]; rfl)
      rwa [h.writing_of_owns hi] at this
  | write writing | wrote writing | fail writing => exact stay (by rw [writing]; rfl)
  | clear failed => exact leave (by rw [failed]; rfl) rfl
  | unwind threw => exact stay (by rw [threw]; rfl)

theorem owners_run (h : Run step {} tr s) : Owners s := by
  induction h with
  | start => exact Tally.zero fun _ => false_ne_true
  | next _ hs ih => exact ih.step (change_of_step hs)

/-! ### What was pulled -/

/-- What was pulled out of the session and what is still queued is what was submitted. -/
def Pulled (tr : List (State ι × Event ι)) (s : State ι) : Prop :=
  logOf emitted tr ++ flat s.out = logOf submitted tr

theorem Pulled.step (h : Pulled tr s) (hc : Change s e t) : Pulled (tr ++ [(s, e)]) t := by
  rw [Pulled, logOf_snoc, logOf_snoc, ← h]
  cases hc with
  | submit => simp [flat]
  | busy pulling writing => simp [pulling, writing, State.put]
  | dry pulling turn out => simp [pulling, turn, State.put, pullFrames, out]
  | chunk pulling turn =>
    simp only [emitted, submitted, pulling, turn, false_eq_true, if_false, append_nil,
      append_assoc]
    rw [pullFrames_append, nil_append]
  | call | write | wrote | fail | clear | unwind => simp [State.put]
  | shutdown => simp

theorem pulled_run (h : Run step {} tr s) : Pulled tr s := by
  induction h with
  | start => rfl
  | next _ hs ih => exact ih.step (change_of_step hs)

/-! ### The wire -/

/-- What the transport has taken, and what is left of the chunk in hand, is `all`. -/
structure Pieces (s : State ι) (all left : Bytes) : Prop where
  eq : s.wire ++ left = all
  hand : ∀ i l, (s.calls i).left = some l → l = left
  empty : (∀ i, (s.calls i).left = none) → left = []

/-- Everything that was pulled is on the wire or in hand, or else a write has failed and nothing can
follow it. -/
def Flow (tr : List (State ι × Event ι)) (s : State ι) : Prop :=
  (∃ left, Pieces s (logOf emitted tr) left) ∨
    (s.down = true ∧ s.wire <+: logOf emitted tr ∧ ∃ s₁ i, (s₁, Event.fail i) ∈ tr)

/-- A failing write has nothing left to do, or the transport is dead. -/
def deadOrDone (s : State ι) : Event ι → Bool
  | .fail i => s.down || (s.calls i).left == some []
  | _ => true

/-- A step that neither pulls nor writes, of a call that has nothing in hand. -/
theorem Pieces.quiet {all left : Bytes} (h : Pieces s all left)
    (hcalls : t.calls = update s.calls i p) (hwire : t.wire = s.wire) (hp : p.left = none)
    (hi : (s.calls i).left = none ∨ (s.calls i).left = some []) : Pieces t all left := by
  have hleft : ∀ j l, (t.calls j).left = some l → (s.calls j).left = some l := by
    intro j l hj
    rw [hcalls] at hj
    obtain rfl | hne := eq_or_ne j i
    · rw [update_self, hp] at hj
      cases hj
    · rwa [update_of_ne hne] at hj
  refine ⟨hwire ▸ h.eq, fun j l hj => h.hand j l (hleft j l hj), fun hnone => ?_⟩
  obtain hi | hi := hi
  · refine h.empty fun j => ?_
    obtain rfl | hne := eq_or_ne j i
    · exact hi
    · have := hnone j
      rwa [hcalls, update_of_ne hne] at this
  · exact (h.hand i [] hi).symm

/-- A step that gives `i` the chunk `l'` to write, or takes some of it. -/
theorem Pieces.busy {all l' : Bytes} (ho : Owners t) {who : Caller}
    (hcalls : t.calls = update s.calls i (.writing who l')) (heq : t.wire ++ l' = all) :
    Pieces t all l' := by
  have hi : (t.calls i).left = some l' := by rw [hcalls, update_self]; rfl
  refine ⟨heq, fun j l hj => ?_, fun hnone => ?_⟩
  · obtain rfl := ho.unique (owns_of_left hi) (owns_of_left hj)
    exact Option.some.inj (hj.symm.trans hi)
  · rw [hnone i] at hi
    cases hi

theorem Flow.quiet (h : Flow tr s) (hcalls : t.calls = update s.calls i p) (hwire : t.wire = s.wire)
    (hdown : s.down = true → t.down = true) (he : emitted s e = []) (hp : p.left = none)
    (hi : (s.calls i).left = none ∨ (s.calls i).left = some []) : Flow (tr ++ [(s, e)]) t := by
  rw [Flow, logOf_snoc, he, append_nil]
  obtain ⟨left, h⟩ | ⟨hd, hw, s₁, j, hf⟩ := h
  · exact .inl ⟨left, h.quiet hcalls hwire hp hi⟩
  · exact .inr ⟨hdown hd, hwire ▸ hw, s₁, j, mem_append_left _ hf⟩

omit [DecidableEq ι] in
/-- Before a call pulls, nobody has a chunk in hand. -/
theorem Owners.left_of_pulling (h : Owners s) {who : Caller} {first : Bool}
    (hi : s.calls i = .pulling who first) (turn : (first && s.writing) = false) (j : ι) :
    (s.calls j).left = none := by
  by_contra hne
  obtain ⟨l, hl⟩ := Option.ne_none_iff_exists'.1 hne
  have hj := owns_of_left hl
  rw [h.writing_of_owns hj, Bool.and_true] at turn
  obtain rfl : j = i := h.unique hj (by rw [hi, turn]; rfl)
  rw [hi] at hl
  cases hl

theorem Flow.step (h : Flow tr s) (ho : Owners s) (hok : deadOrDone s e = true)
    (hc : Change s e t) : Flow (tr ++ [(s, e)]) t := by
  have ho' := ho.step hc
  cases hc with
  | submit | shutdown =>
    obtain ⟨left, h⟩ | ⟨hd, hw, s₁, i, hf⟩ := h
    · exact .inl ⟨left, by simpa using h.eq, h.hand, h.empty⟩
    · exact .inr ⟨by simp [hd], by simpa using hw, s₁, i, mem_append_left _ hf⟩
  | call idle => exact h.quiet rfl rfl id rfl rfl (.inl (by rw [idle]; rfl))
  | busy pulling writing =>
    refine h.quiet rfl rfl id ?_ rfl (.inl (by rw [pulling]; rfl))
    simp [pulling, writing]
  | dry pulling turn out =>
    refine h.quiet rfl rfl id ?_ rfl (.inl (by rw [pulling]; rfl))
    simp [pulling, turn, out, pullFrames]
  | @chunk i who first pulling turn out =>
    have he : emitted s (.pull i) = (pullFrames [] s.out).1 := by simp [pulling, turn]
    obtain ⟨left, h⟩ | ⟨hd, hw, s₁, j, hf⟩ := h
    · refine .inl ⟨_, Pieces.busy ho' rfl ?_⟩
      rw [logOf_snoc, he, ← h.eq, h.empty (ho.left_of_pulling pulling turn), append_nil]
      rfl
    · refine .inr ⟨hd, ?_, s₁, j, mem_append_left _ hf⟩
      rw [logOf_snoc]
      exact hw.trans (prefix_append _ _)
  | @write i who n left writing up =>
    obtain ⟨left', h⟩ | ⟨hd, -⟩ := h
    · obtain rfl := h.hand i left (by rw [writing]; rfl)
      refine .inl ⟨_, Pieces.busy ho' rfl ?_⟩
      rw [logOf_snoc, ← h.eq]
      simp
    · rw [up] at hd
      cases hd
  | wrote writing => exact h.quiet rfl rfl id rfl rfl (.inr (by rw [writing]; rfl))
  | @fail i who left writing =>
    -- either nothing is left of the chunk, or what follows is never written
    by_cases h0 : left = []
    · exact h.quiet rfl rfl id rfl rfl (.inr (by rw [writing, h0]; rfl))
    · have hd : s.down = true := by simpa [deadOrDone, writing, Phase.left, h0] using hok
      refine .inr ⟨hd, ?_, s, i, mem_append_right _ (mem_singleton_self _)⟩
      rw [logOf_snoc]
      obtain ⟨left', h⟩ | ⟨-, hw, -⟩ := h
      · rw [← h.eq, append_assoc]
        exact prefix_append _ _
      · exact hw.trans (prefix_append _ _)
  | clear failed => exact h.quiet rfl rfl id rfl rfl (.inl (by rw [failed]; rfl))
  | unwind threw =>
    exact h.quiet rfl rfl (fun hd => by simp [hd]) rfl rfl (.inl (by rw [threw]; rfl))

theorem flow_run (h : Run Flush.step {} tr s) (hok : ∀ p ∈ tr, deadOrDone p.1 p.2 = true) :
    Flow tr s := by
  refine h.induct (fun s e => deadOrDone s e = true) hok (.inl ⟨[], rfl, nofun, fun _ => rfl⟩)
    fun hr _ ih he hs => ?_
  exact ih.step (owners_run hr) he (change_of_step hs)

end Manwe.Http2.Flush
