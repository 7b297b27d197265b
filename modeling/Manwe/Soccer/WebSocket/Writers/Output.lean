import Manwe.Soccer.WebSocket.Writers

/-!
# What goes on the wire

`Change` says once what a step of the writers does. On it rests `Output`: everything on the wire,
with what is left of the frame that is being written or was given up, is **the frames that were
started, one after the other**; only the party with the lock writes, and after a failed write nobody
starts another frame.
-/

namespace Manwe.WebSocket.Writers

open Function List Bool Phase Option

variable {ι : Type}

/-- The party has the lock. -/
def Phase.holds : Phase → Bool
  | .locked _ _ => true
  | .writing _ _ => true
  | .failing => true
  | _ => false

/-- What the socket has not taken of the party's frame. -/
def Phase.left : Phase → Option Bytes
  | .writing left _ => some left
  | _ => none

/-- The frame that the party is about to write. -/
def Phase.next : Phase → Option Outgoing
  | .wants f _ => some f
  | .locked f _ => some f
  | _ => none

variable {left wire : Bytes} {p : Phase}

theorem Phase.holds_of_left (h : p.left = some left) : p.holds = true := by
  cases p <;> first | rfl | cases h

theorem Phase.left_of_holds (h : p.holds = false) : p.left = none := by
  cases p <;> first | rfl | cases h

/-- The step starts no frame. -/
def Event.quiet : Event ι → Bool
  | .start _ _ => false
  | _ => true

variable {e : Event ι} {s : State ι}

theorem started_quiet {serverSide : Bool} (h : e.quiet = true) : started serverSide s e = [] := by
  cases e <;> first | rfl | cases h

variable [DecidableEq ι] {serverSide : Bool}

/-- **What a step does.** -/
inductive Change (serverSide : Bool) (s : State ι) : Event ι → State ι → Prop
  /-- outside the lock: a Close is only wanted by the party that has cleared `open` -/
  | outside {e : Event ι} {i : ι} {p : Phase} {isOpen : Bool} (quiet : e.quiet = true)
      (before : (s.ops i).holds = false) (after : p.holds = false)
      (shut : isOpen = true → s.isOpen = true)
      (close : ∀ f, p.next = some f → f.isClose = true → s.isOpen = true ∧ isOpen = false) :
      Change serverSide s e { s.put i p with isOpen }
  | lock {i : ι} {f : Outgoing} {again : Bool} (wants : s.ops i = .wants f again)
      (free : s.writeMu = none) :
      Change serverSide s (.lock i) { s.put i (.locked f again) with writeMu := some i }
  | refused {i : ι} {f : Outgoing} {again : Bool} {key : MaskKey} (locked : s.ops i = .locked f
    again) (broken : s.writeBroken = true) :
      Change serverSide s (.start i key) { s.put i .ended with writeMu := none }
  | start {i : ι} {f : Outgoing} {again : Bool} {key : MaskKey} (locked : s.ops i = .locked f again)
      (whole : s.writeBroken = false) :
      Change serverSide s (.start i key) (s.put i (.writing (bytesOf serverSide f key) again))
  | write {i : ι} {n : ℕ} {left : Bytes} {again : Bool} (writing : s.ops i = .writing left again) :
      Change serverSide s (.write i n)
        { s.put i (.writing (left.drop n) again) with wire := s.wire ++ left.take n }
  | finish {i : ι} {again : Bool} {p : Phase} (writing : s.ops i = .writing [] again)
      (after : p.holds = false) (next : p.next = none) :
      Change serverSide s (.finish i) { s.put i p with writeMu := none }
  | fail {i : ι} {left : Bytes} {again : Bool} (writing : s.ops i = .writing left again) :
      Change serverSide s (.fail i) { s.put i .failing with writeBroken := true }
  | unwind {i : ι} (failing : s.ops i = .failing) :
      Change serverSide s (.unwind i) { s.put i .ended with writeMu := none, isOpen := false }
  | drop : Change serverSide s .drop { s with isOpen := false }

variable {i : ι}

/-- An exchange of `open` that lets one party send a Close. -/
theorem change_exchange (f : Outgoing) (quiet : e.quiet = true)
    (before : (s.ops i).holds = false) : Change serverSide s e (s.exchange i f) := by
  refine .outside quiet before ?_ (fun h => absurd h false_ne_true) ?_
  · split <;> rfl
  · intro g hg _
    refine ⟨?_, rfl⟩
    by_contra ho
    rw [if_neg ho] at hg
    cases hg

theorem change_of_step {t : State ι} (h : step serverSide s e = some t) :
    Change serverSide s e t := by
  cases e with ((simp only [step] at h; try split at h) <;> try cases h)
  | send i kind =>
    next hi =>
    refine .outside rfl (by rw [hi]; rfl) (by split <;> rfl) id fun f hf hc => ?_
    split at hf
    · cases hf
      cases kind <;> cases hc
    · cases hf
  | close | peerCloses | violation =>
    next hi => exact change_exchange _ rfl (by rw [hi]; rfl)
  | receive =>
    next hi =>
    refine .outside rfl (by rw [hi]; rfl) (by split <;> rfl) id fun f hf _ => ?_
    split at hf <;> cases hf
  | ping =>
    next hi =>
    refine .outside rfl (by rw [hi]; rfl) rfl id fun f hf hc => ?_
    cases hf
    cases hc
  | readFails =>
    next hi => exact .outside rfl (by rw [hi]; rfl) rfl (fun h => absurd h false_ne_true) nofun
  | leave | abandon => next hi => exact .outside rfl (by rw [hi]; rfl) rfl id nofun
  | lock => next hi hmu => exact .lock hi hmu
  | start =>
    next hi =>
    split at h <;> cases h
    · next hb => exact .refused hi hb
    · next hb => exact .start hi (eq_false_of_not_eq_true hb)
  | write => next hi => exact .write hi
  | finish => next hi => exact .finish hi (by split <;> rfl) (by split <;> rfl)
  | fail => next hi => exact .fail hi
  | unwind => next hi => exact .unwind hi
  | drop => exact .drop

/-! ### The wire and the frames -/

/-- The frames of `log` are on the wire one after the other, but for `left` of the last one. -/
structure Stump (wire : Bytes) (log : List (Outgoing × Bytes)) (left : Bytes) : Prop where
  flat : wire ++ left = (log.map Prod.snd).flatten
  last : left ≠ [] → ∃ before p, log = before ++ [p] ∧ left <:+ p.2

theorem Stump.nil : Stump [] [] [] := ⟨rfl, fun h => absurd rfl h⟩

variable {log : List (Outgoing × Bytes)}

theorem Stump.start (h : Stump wire log []) (p : Outgoing × Bytes) :
    Stump wire (log ++ [p]) p.2 where
  flat := by
    have := h.flat
    rw [map_append, flatten_append, ← this]
    simp
  last := fun _ => ⟨log, p, rfl, suffix_refl _⟩

theorem Stump.write (h : Stump wire log left) (n : ℕ) :
    Stump (wire ++ left.take n) log (left.drop n) where
  flat := by rw [append_assoc, take_append_drop, h.flat]
  last := fun hne => by
    obtain ⟨before, p, hlog, hs⟩ := h.last fun h0 => hne (by rw [h0, drop_nil])
    exact ⟨before, p, hlog, (drop_suffix n left).trans hs⟩

/-- **Whole frames, and at most one proper beginning of another.** -/
theorem Stump.frames (h : Stump wire log left) :
    ∃ frames part, wire = (frames.map Prod.snd).flatten ++ part ∧ frames <+: log ∧
      (part = [] ∨ ∃ p ∈ log, part <+: p.2 ∧ part ≠ p.2) := by
  obtain rfl | h0 := eq_or_ne left []
  · exact ⟨log, [], by rw [← h.flat, append_nil, append_nil], prefix_refl _, .inl rfl⟩
  · obtain ⟨before, p, rfl, part, hp⟩ := h.last h0
    refine ⟨before, part, ?_, prefix_append _ _, .inr ⟨p, by simp, ⟨left, hp⟩, ?_⟩⟩
    · have := h.flat
      rw [map_append, flatten_append, map_singleton, flatten_singleton, ← hp,
        ← append_assoc] at this
      exact append_cancel_right this
    · intro he
      rw [he] at hp
      exact h0 (append_right_eq_self.1 hp)

/-- `writeMu` names the party that has the lock. -/
def Held (ops : ι → Phase) (mu : Option ι) : Prop := ∀ i, (ops i).holds = true ↔ mu = some i

section

variable {ops : ι → Phase} {mu : Option ι} {i : ι} {p : Phase}

theorem Held.keep (h : Held ops mu) (hp : p.holds = (ops i).holds) : Held (update ops i p) mu := by
  intro j
  obtain rfl | hj := eq_or_ne j i
  · rw [update_self, hp]
    exact h j
  · rw [update_of_ne hj]
    exact h j

theorem Held.take (h : Held ops none) (hp : p.holds = true) : Held (update ops i p) (some i) := by
  intro j
  obtain rfl | hj := eq_or_ne j i
  · rw [update_self]
    exact iff_of_true hp rfl
  · rw [update_of_ne hj]
    exact iff_of_false (fun hh => nomatch (h j).1 hh) fun he => hj (some.inj he).symm

omit [DecidableEq ι] in
theorem Held.unique (h : Held ops mu) {j : ι} (hj : (ops j).holds = true)
    (hi : (ops i).holds = true) : j = i :=
  some.inj (((h j).1 hj).symm.trans ((h i).1 hi))

variable (h : Held ops mu) (hi : (ops i).holds = true)

include h hi

theorem Held.release (hp : p.holds = false) : Held (update ops i p) none := by
  intro j
  obtain rfl | hj := eq_or_ne j i
  · rw [update_self, hp]
    exact iff_of_false false_ne_true nofun
  · rw [update_of_ne hj]
    exact iff_of_false (fun hh => hj (h.unique hh hi)) nofun

omit [DecidableEq ι] in
/-- Nobody but the party with the lock has bytes to write. -/
theorem Held.left_of_ne {j : ι} (hj : j ≠ i) : (ops j).left = none := by
  by_contra hne
  obtain ⟨l, hl⟩ := ne_none_iff_exists'.1 hne
  exact hj (h.unique (holds_of_left hl) hi)

end

/-- What is on the wire, and who writes. -/
structure Output (serverSide : Bool) (tr : List (State ι × Event ι)) (s : State ι) : Prop where
  held : Held s.ops s.writeMu
  failing : ∀ i, s.ops i = .failing → s.writeBroken = true
  broken : s.writeBroken = true → ∀ i, (s.ops i).left = none
  wire : ∃ left, Stump s.wire (logOf (started serverSide) tr) left ∧
    (∀ i l, (s.ops i).left = some l → l = left) ∧
    ((∀ i, (s.ops i).left = none) → s.writeBroken = false → left = [])

omit [DecidableEq ι] in
theorem Output.init : Output serverSide [] ({} : State ι) where
  held := fun _ => iff_of_false false_ne_true nofun
  failing := nofun
  broken := nofun
  wire := ⟨[], .nil, nofun, fun _ _ => rfl⟩

variable {tr : List (State ι × Event ι)} {s t : State ι} {ops : ι → Phase}

theorem left_update (h : p.left = (ops i).left) (j : ι) :
    (update ops i p j).left = (ops j).left := by
  obtain rfl | hj := eq_or_ne j i
  · rw [update_self, h]
  · rw [update_of_ne hj]

theorem failing_update {j : ι} (hp : p ≠ .failing)
    (h : update ops i p j = .failing) : ops j = .failing := by
  obtain rfl | hj := eq_or_ne j i
  · rw [update_self] at h
    exact absurd h hp
  · rwa [update_of_ne hj] at h

variable (h : Output serverSide tr s)

include h

variable {i : ι} {p : Phase}

/-- A step of a party that is not writing, before or after it. -/
theorem Output.silent (hops : t.ops = update s.ops i p) (hwire : t.wire = s.wire)
    (hbroken : t.writeBroken = s.writeBroken) (hlog : started serverSide s e = [])
    (hleft : p.left = (s.ops i).left) (hp : p ≠ .failing) (held : Held t.ops t.writeMu) :
    Output serverSide (tr ++ [(s, e)]) t where
  held := held
  failing := fun j hj => by
    rw [hbroken]
    rw [hops] at hj
    exact h.failing j (failing_update hp hj)
  broken := fun hb j => by
    rw [hops, left_update hleft]
    exact h.broken (hbroken ▸ hb) j
  wire := by
    simp only [hwire, hbroken, hops, logOf_snoc, hlog, append_nil, left_update hleft]
    exact h.wire

omit [DecidableEq ι] in
theorem Output.whole_of_left (hi : (s.ops i).left = some left) : s.writeBroken = false := by
  by_contra hb
  rw [h.broken (eq_true_of_not_eq_false hb) i] at hi
  cases hi

/-- The party with the lock writes, and `left` is what the socket has not taken. -/
theorem Output.busy {again : Bool} (hi : (s.ops i).holds = true)
    (hops : t.ops = update s.ops i (.writing left again)) (hmu : t.writeMu = s.writeMu)
    (hbroken : t.writeBroken = false) (hwhole : s.writeBroken = false)
    (hwire : Stump t.wire (logOf (started serverSide) (tr ++ [(s, e)])) left) :
    Output serverSide (tr ++ [(s, e)]) t where
  held := by
    rw [hops, hmu]
    exact h.held.keep hi.symm
  failing := fun j hj => by
    rw [hops] at hj
    have := h.failing j (failing_update Phase.noConfusion hj)
    rw [hwhole] at this
    cases this
  broken := fun hb => by
    rw [hbroken] at hb
    cases hb
  wire := by
    refine ⟨left, hwire, fun j l hl => ?_, fun hn _ => ?_⟩
    · rw [hops] at hl
      obtain rfl | hj := eq_or_ne j i
      · rw [update_self] at hl
        exact (some.inj hl).symm
      · rw [update_of_ne hj, h.held.left_of_ne hi hj] at hl
        cases hl
    · have := hn i
      rw [hops, update_self] at this
      cases this

/-- The party with the lock writes no more. -/
theorem Output.stops (hi : (s.ops i).left = some left) (hops : t.ops = update s.ops i p)
    (hwire : t.wire = s.wire) (hlog : started serverSide s e = []) (hleft : p.left = none)
    (hfail : p = .failing → t.writeBroken = true) (hdone : t.writeBroken = false → left = [])
    (held : Held t.ops t.writeMu) : Output serverSide (tr ++ [(s, e)]) t := by
  have hnone : ∀ j, (t.ops j).left = none := by
    intro j
    rw [hops]
    obtain rfl | hj := eq_or_ne j i
    · rw [update_self, hleft]
    · rw [update_of_ne hj, h.held.left_of_ne (holds_of_left hi) hj]
  refine ⟨held, fun j hj => ?_, fun _ => hnone, ?_⟩
  · rw [hops] at hj
    obtain rfl | hne := eq_or_ne j i
    · exact hfail (by rwa [update_self] at hj)
    · rw [update_of_ne hne] at hj
      have := h.failing j hj
      rw [h.whole_of_left hi] at this
      cases this
  · obtain ⟨left', hs, hl, -⟩ := h.wire
    obtain rfl := hl i left hi
    refine ⟨left, ?_, fun j l hj => ?_, fun _ => hdone⟩
    · rw [logOf_snoc, hlog, append_nil, hwire]
      exact hs
    · rw [hnone j] at hj
      cases hj

/-- **What is on the wire** stays so. -/
theorem Output.step (hc : Change serverSide s e t) : Output serverSide (tr ++ [(s, e)]) t := by
  cases hc with
  | @outside _ i p isOpen quiet before after =>
    refine h.silent rfl rfl rfl (started_quiet quiet) ?_ ?_ (h.held.keep (after.trans before.symm))
    · rw [left_of_holds after, left_of_holds before]
    · rintro rfl
      cases after
  | @lock i f again wants free =>
    refine h.silent rfl rfl rfl rfl ?_ nofun (Held.take (free ▸ h.held) rfl)
    rw [wants]
    rfl
  | @refused i f again key locked broken =>
    refine h.silent rfl rfl rfl ?_ ?_ nofun (h.held.release (by rw [locked]; rfl) rfl)
    · simp [locked, broken]
    · rw [locked]
      rfl
  | @start i f again key locked whole =>
    have hi : (s.ops i).holds = true := by rw [locked]; rfl
    refine h.busy hi rfl rfl whole whole ?_
    obtain ⟨left, hs, -, hnone⟩ := h.wire
    obtain rfl : left = [] := by
      refine hnone (fun j => ?_) whole
      obtain rfl | hj := eq_or_ne j i
      · rw [locked]
        rfl
      · exact h.held.left_of_ne hi hj
    rw [logOf_snoc]
    simp only [started, locked, whole, false_eq_true, if_false]
    exact hs.start (f, bytesOf serverSide f key)
  | @write i n left again writing =>
    have hi : (s.ops i).left = some left := by rw [writing]; rfl
    have hwhole := h.whole_of_left hi
    refine h.busy (holds_of_left hi) rfl rfl hwhole hwhole ?_
    obtain ⟨left', hs, hl, -⟩ := h.wire
    obtain rfl := hl i left hi
    rw [logOf_snoc]
    simp only [started, append_nil]
    exact hs.write n
  | @finish i again p writing after =>
    have hi : (s.ops i).left = some [] := by rw [writing]; rfl
    refine h.stops hi rfl rfl rfl (left_of_holds after) ?_ (fun _ => rfl)
      (h.held.release (holds_of_left hi) after)
    rintro rfl
    cases after
  | @fail i left again writing =>
    have hi : (s.ops i).left = some left := by rw [writing]; rfl
    exact h.stops hi rfl rfl rfl rfl (fun _ => rfl) nofun (h.held.keep (holds_of_left hi).symm)
  | @unwind i failing =>
    refine h.silent rfl rfl rfl rfl ?_ nofun (h.held.release (by rw [failing]; rfl) rfl)
    rw [failing]
    rfl
  | drop =>
    refine ⟨h.held, h.failing, h.broken, ?_⟩
    simpa only [logOf_snoc, started, append_nil] using h.wire

omit h

theorem output_run (h : Run (Writers.step serverSide) {} tr s) : Output serverSide tr s := by
  induction h with
  | start => exact Output.init
  | next _ hs ih => exact ih.step (change_of_step hs)

end Manwe.WebSocket.Writers
