import Manwe.Soccer.WebSocket.Writers.Output

/-!
# Whole frames, one Close, and what may follow it

`open` is exchanged, so **one party at most** ever wants to send a Close, and only after `open` is
cleared (`Closing`). With `Output` that gives what an endpoint puts on the wire: whole frames and at
most one beginning of a frame, nothing after a write that failed, and at most one Close.

That no data frame comes after the Close does not follow. A sender looks at `open` before it waits
for the lock and not when it has it; `close` may clear `open` and write the Close in between. It
holds in the runs in which every sender of data still finds the connection open when it gets the
lock (`StillOpen`).
-/

namespace Manwe.WebSocket.Writers

open Function List Bool Writers Phase

variable {ι : Type}

/-- The party is about to send a Close. -/
def Phase.closes (p : Phase) : Bool := p.next.any Outgoing.isClose

variable {p : Phase}

theorem Phase.closes_iff : p.closes = true ↔ ∃ f, p.next = some f ∧ f.isClose = true := by
  rw [closes, Option.any_eq_true]

/-- No Close has been started. -/
def NoClose (log : List (Outgoing × Bytes)) : Prop := ∀ p ∈ log, p.1.isClose = false

/-- There is one Close, to be sent or sent, and none while `open` is set. -/
structure Closing (serverSide : Bool) (tr : List (State ι × Event ι)) (s : State ι) : Prop where
  opened : s.isOpen = true →
    (∀ i, (s.ops i).closes = false) ∧ NoClose (logOf (started serverSide) tr)
  sole : ∀ i j, (s.ops i).closes = true → (s.ops j).closes = true → i = j
  pending : ∀ i, (s.ops i).closes = true → NoClose (logOf (started serverSide) tr)
  once : ((logOf (started serverSide) tr).filter fun p => p.1.isClose).length ≤ 1

variable {serverSide : Bool} {tr : List (State ι × Event ι)} {s t : State ι}

theorem Closing.init : Closing serverSide [] ({} : State ι) where
  opened := fun _ => ⟨fun _ => rfl, nofun⟩
  sole := fun _ _ h => absurd h false_ne_true
  pending := fun _ _ => nofun
  once := Nat.zero_le _

variable [DecidableEq ι] {e : Event ι}

omit [DecidableEq ι] in
/-- A step by which nobody comes to want a Close, and no frame is started. -/
theorem Closing.quiet (h : Closing serverSide tr s)
    (hops : ∀ j, (t.ops j).closes = true → (s.ops j).closes = true)
    (hopen : t.isOpen = true → s.isOpen = true) (hlog : started serverSide s e = []) :
    Closing serverSide (tr ++ [(s, e)]) t := by
  have hsame : logOf (started serverSide) (tr ++ [(s, e)]) = logOf (started serverSide) tr := by
    rw [logOf_snoc, hlog, append_nil]
  refine ⟨fun ho => ?_, fun i j hi hj => h.sole i j (hops i hi) (hops j hj), fun i hi => ?_, ?_⟩
  · obtain ⟨hn, hl⟩ := h.opened (hopen ho)
    refine ⟨fun i => eq_false_of_not_eq_true fun hi => ?_, hsame ▸ hl⟩
    have := hops i hi
    rw [hn i] at this
    cases this
  · rw [hsame]
    exact h.pending i (hops i hi)
  · rw [hsame]
    exact h.once

variable {i : ι}

variable {ops : ι → Phase} {j : ι} {log : List (Outgoing × Bytes)} {f : Outgoing}

theorem closes_update (hp : p.closes = true → (ops i).closes = true)
    (h : (update ops i p j).closes = true) : (ops j).closes = true := by
  obtain rfl | hj := eq_or_ne j i
  · rw [update_self] at h
    exact hp h
  · rwa [update_of_ne hj] at h

/-- The party that clears `open` is the one that wants to send the Close. -/
theorem Closing.claim (h : Closing serverSide tr s) (hops : t.ops = update s.ops i p)
    (hs : s.isOpen = true) (ht : t.isOpen = false) (hlog : started serverSide s e = []) :
    Closing serverSide (tr ++ [(s, e)]) t := by
  obtain ⟨hn, hl⟩ := h.opened hs
  have hsame : logOf (started serverSide) (tr ++ [(s, e)]) = logOf (started serverSide) tr := by
    rw [logOf_snoc, hlog, append_nil]
  have hi : ∀ j, (t.ops j).closes = true → j = i := by
    intro j hj
    by_contra hne
    rw [hops, update_of_ne hne, hn j] at hj
    cases hj
  refine ⟨fun ho => ?_, fun j k hj hk => (hi j hj).trans (hi k hk).symm, fun _ _ => hsame ▸ hl, ?_⟩
  · rw [ht] at ho
    cases ho
  · rw [hsame]
    exact h.once

theorem NoClose.snoc (h : NoClose log) {p : Outgoing × Bytes} (hp : p.1.isClose = false) :
    NoClose (log ++ [p]) := by
  intro q hq
  obtain hq | rfl : q ∈ log ∨ q = p := by simpa using hq
  · exact h q hq
  · exact hp

theorem NoClose.filter (h : NoClose log) : (log.filter fun p => p.1.isClose) = [] :=
  filter_eq_nil_iff.2 fun p hp hc => by rw [h p hp] at hc; cases hc

/-- A frame is started. -/
theorem Closing.start (h : Closing serverSide tr s) {b : Bytes} (hi : (s.ops i).next = some f)
    (hops : t.ops = update s.ops i p) (hp : p.closes = false) (hopen : t.isOpen = s.isOpen)
    (hlog : started serverSide s e = [(f, b)]) : Closing serverSide (tr ++ [(s, e)]) t := by
  have hkeep : ∀ j, (t.ops j).closes = true → (s.ops j).closes = true := by
    intro j hj
    rw [hops] at hj
    exact closes_update (fun hc => by rw [hp] at hc; cases hc) hj
  have hother : f.isClose = true → ∀ j, (t.ops j).closes = false := by
    intro hf j
    refine eq_false_of_not_eq_true fun hj => ?_
    obtain rfl := h.sole i j (closes_iff.2 ⟨f, hi, hf⟩) (hkeep j hj)
    rw [hops, update_self, hp] at hj
    cases hj
  have hlog' : logOf (started serverSide) (tr ++ [(s, e)])
      = logOf (started serverSide) tr ++ [(f, b)] := by
    rw [logOf_snoc, hlog]
  refine ⟨fun ho => ?_, fun j k hj hk => h.sole j k (hkeep j hj) (hkeep k hk), fun j hj => ?_, ?_⟩
  · obtain ⟨hn, hl⟩ := h.opened (hopen ▸ ho)
    have hf : f.isClose = false := eq_false_of_not_eq_true fun hf => by
      have := closes_iff.2 ⟨f, hi, hf⟩
      rw [hn i] at this
      cases this
    refine ⟨fun j => eq_false_of_not_eq_true fun hj => ?_, hlog' ▸ hl.snoc hf⟩
    have := hkeep j hj
    rw [hn j] at this
    cases this
  · rw [hlog']
    refine (h.pending j (hkeep j hj)).snoc (eq_false_of_not_eq_true fun hf => ?_)
    rw [hother hf j] at hj
    cases hj
  · rw [hlog', filter_append, length_append]
    cases hf : f.isClose with
    | false => simpa [hf] using h.once
    | true => simp [hf, (h.pending i (closes_iff.2 ⟨f, hi, hf⟩)).filter]

theorem Closing.step (h : Closing serverSide tr s) (hc : Change serverSide s e t) :
    Closing serverSide (tr ++ [(s, e)]) t := by
  -- whoever takes the lock, is refused, or is done with writing wants no Close afterwards
  -- unless it has wanted it before
  cases hc with
  | @outside _ i p isOpen quiet before after shut close =>
    cases hp : p.closes with
    | true =>
      obtain ⟨f, hf, hc⟩ := closes_iff.1 hp
      obtain ⟨hs, ht⟩ := close f hf hc
      exact h.claim rfl hs ht (started_quiet quiet)
    | false =>
      refine h.quiet (fun j => closes_update fun hc => ?_) shut (started_quiet quiet)
      rw [hp] at hc
      cases hc
  | @lock i f again wants =>
    refine h.quiet (fun j => closes_update fun hc => ?_) id rfl
    rw [wants]
    exact hc
  | @refused i f again key locked broken =>
    refine h.quiet (fun j => closes_update fun hc => ?_) id (by simp [locked, broken])
    cases hc
  | @start i f again key locked whole =>
    refine h.start (b := bytesOf serverSide f key) (by rw [locked]; rfl) rfl rfl rfl ?_
    simp [locked, whole]
  | write | fail | unwind =>
    refine h.quiet (fun j => closes_update fun hc => ?_) (by simp [State.put]) rfl
    cases hc
  | @finish i again p writing after next =>
    refine h.quiet (fun j => closes_update fun hc => ?_) id rfl
    rw [closes, next] at hc
    cases hc
  | drop => exact h.quiet (fun _ => id) nofun rfl

theorem closing_run (h : Run (step serverSide) {} tr s) : Closing serverSide tr s := by
  induction h with
  | start => exact Closing.init
  | next _ hs ih => exact ih.step (change_of_step hs)

/-! ### After a failed write -/

/-- Once `writeBroken` is set, it stays so and nothing goes on the wire. -/
theorem Output.broken_step (h : Output serverSide tr s) (hc : Change serverSide s e t)
    (hb : s.writeBroken = true) : t.writeBroken = true ∧ t.wire = s.wire := by
  cases hc with
  | @start i f again key locked whole =>
    rw [whole] at hb
    cases hb
  | @write i n left again writing =>
    have := h.broken hb i
    rw [writing] at this
    cases this
  | fail => exact ⟨rfl, rfl⟩
  | outside | lock | refused | finish | unwind | drop => exact ⟨hb, rfl⟩

theorem broken_run (h : Run (step serverSide) {} tr s) {s₁ : State ι}
    (hi : (s₁, Event.fail i) ∈ tr) : s.writeBroken = true ∧ s.wire = s₁.wire := by
  induction h with
  | start => cases hi
  | @next tr s t e hr hs ih =>
    have hc := change_of_step hs
    obtain hi | he : (s₁, Event.fail i) ∈ tr ∨ (s₁, Event.fail i) = (s, e) := by simpa using hi
    · obtain ⟨hb, hw⟩ := ih hi
      obtain ⟨hb', hw'⟩ := (output_run hr).broken_step hc hb
      exact ⟨hb', hw'.trans hw⟩
    · cases he
      simp only [step] at hs
      split at hs <;> cases hs
      exact ⟨rfl, rfl⟩

omit [DecidableEq ι] in
/-- Whatever is started is the encoding of the frame. -/
theorem started_bytes (tr : List (State ι × Event ι)) {p : Outgoing × Bytes}
    (hp : p ∈ logOf (started serverSide) tr) : ∃ key, p.2 = bytesOf serverSide p.1 key := by
  obtain ⟨⟨s, e⟩, -, he⟩ := mem_flatMap.1 hp
  cases e with
  | start i key =>
    simp only [started] at he
    split at he
    · split at he
      · cases he
      · rw [mem_singleton] at he
        exact ⟨key, by rw [he]⟩
    · cases he
  | _ => cases he

/-- **Whole frames.** What an endpoint has put on the wire is the frames it has started, whole and
in this order, and then at most one proper beginning of a frame; after a write that failed or was
cancelled nothing follows; and one Close is started at most. -/
theorem writers_wholeFrames (h : Run (step serverSide) {} tr s) :
    (∃ frames part, frames <+: logOf (started serverSide) tr ∧
      s.wire = (frames.map Prod.snd).flatten ++ part ∧
      (∀ p ∈ frames, ∃ key, p.2 = bytesOf serverSide p.1 key) ∧
      (part = [] ∨ ∃ f key, part <+: bytesOf serverSide f key ∧ part ≠ bytesOf serverSide f key)) ∧
    (∀ s₁ i, (s₁, Event.fail i) ∈ tr → s.wire = s₁.wire) ∧
    ((logOf (started serverSide) tr).filter fun p => p.1.isClose).length ≤ 1 := by
  refine ⟨?_, fun s₁ i hi => (broken_run h hi).2, (closing_run h).once⟩
  obtain ⟨left, hs, -⟩ := (output_run h).wire
  obtain ⟨frames, part, hw, hp, hpart⟩ := hs.frames
  refine ⟨frames, part, hp, hw, fun p hmem => started_bytes tr (hp.subset hmem), ?_⟩
  obtain h0 | ⟨p, hmem, hpre, hne⟩ := hpart
  · exact .inl h0
  · obtain ⟨key, hkey⟩ := started_bytes tr hmem
    exact .inr ⟨p.1, key, hkey ▸ hpre, hkey ▸ hne⟩

/-- A sender, a `close` and a `receive` that answers a Ping: the Pong is cut off, and the others
write nothing more. -/
def cutOff (key : MaskKey) : List (Event ℕ) :=
  [.send 0 .text [104] true, .receive 1, .ping 1 [1, 2], .lock 0, .start 0 key, .write 0 1,
    .write 0 9,
    .finish 0, .lock 1, .close 2 1000 [], .start 1 key, .write 1 2, .fail 1, .unwind 1, .lock 2,
    .start 2 key]

theorem writers_wholeFrames_cutOff : ∃ tr, ∃ s : State ℕ, Run (step true) {} tr s ∧
    s.wire = [129, 1, 104] ++ [138, 2] ∧
    ((logOf (started true) tr).filter fun p => p.1.isClose).length ≤ 1 := by
  have h : Run (step true) ({} : State ℕ) _ _ := .follow (cutOff ⟨0, 0, 0, 0⟩) (by decide +kernel)
  exact ⟨_, _, h, by decide +kernel, (writers_wholeFrames h).2.2⟩

/-! ### What follows a Close -/

/-- Whoever gets the lock with a data frame finds `open` still set. -/
def stillOpen (s : State ι) : Event ι → Bool
  | .lock i => s.isOpen || !(s.ops i).next.any Outgoing.isData
  | _ => true

/-- Whoever has the lock for a data frame: no Close is started yet. -/
structure InTime (serverSide : Bool) (tr : List (State ι × Event ι)) (s : State ι) : Prop where
  locked : ∀ i f again, s.ops i = .locked f again → f.isData = true →
    NoClose (logOf (started serverSide) tr)
  order : (logOf (started serverSide) tr).Pairwise
    fun p q => ¬(p.1.isClose = true ∧ q.1.isData = true)

omit [DecidableEq ι] in
theorem InTime.init : InTime serverSide [] ({} : State ι) := ⟨nofun, Pairwise.nil⟩

omit [DecidableEq ι] in
/-- A step that leaves nobody else with the lock, and starts no frame. -/
theorem InTime.quiet (h : InTime serverSide tr s) (hlog : started serverSide s e = [])
    (hops : ∀ i f again, t.ops i = .locked f again → f.isData = true → s.ops i = .locked f again ∨
      NoClose (logOf (started serverSide) tr)) :
    InTime serverSide (tr ++ [(s, e)]) t := by
  have hsame : logOf (started serverSide) (tr ++ [(s, e)]) = logOf (started serverSide) tr := by
    rw [logOf_snoc, hlog, append_nil]
  refine ⟨fun i f again hi hf => ?_, hsame ▸ h.order⟩
  rw [hsame]
  exact (hops i f again hi hf).elim (fun hi => h.locked i f again hi hf) id

theorem locked_update {again : Bool} (h : update ops i p j = .locked f again)
    (hp : ∀ f again, p ≠ .locked f again) : ops j = .locked f again := by
  obtain rfl | hj := eq_or_ne j i
  · rw [update_self] at h
    exact absurd h (hp f again)
  · rwa [update_of_ne hj] at h

theorem InTime.step (h : InTime serverSide tr s) (ho : Output serverSide tr s)
    (hcl : Closing serverSide tr s) (hopen : stillOpen s e = true) (hc : Change serverSide s e t) :
    InTime serverSide (tr ++ [(s, e)]) t := by
  cases hc with
  | @outside _ i p isOpen quiet before after =>
    refine h.quiet (started_quiet quiet) fun j f again hj _ => .inl (locked_update hj ?_)
    rintro f again rfl
    cases after
  | @lock i f again wants =>
    refine h.quiet rfl fun j g again' hj hg => ?_
    obtain rfl | hne := eq_or_ne j i
    · cases (update_self ..).symm.trans hj
      simp only [stillOpen, wants, Phase.next, Option.any_some, hg, Bool.not_true, Bool.or_false] at hopen
      exact .inr (hcl.opened hopen).2
    · exact .inl ((update_of_ne hne ..).symm.trans hj)
  | @refused i f again key locked broken =>
    refine h.quiet (by simp [locked, broken]) fun j f again hj _ => .inl ?_
    exact locked_update hj nofun
  | @start i f again key locked whole =>
    have hlog : logOf (started serverSide) (tr ++ [(s, .start i key)])
        = logOf (started serverSide) tr ++ [(f, bytesOf serverSide f key)] := by
      simp [locked, whole]
    refine ⟨fun j g again' hj _ => ?_, ?_⟩
    · -- the party that starts is the one that has the lock
      have hs : s.ops j = .locked g again' := locked_update hj nofun
      obtain rfl : j = i := ho.held.unique (by rw [hs]; rfl) (by rw [locked]; rfl)
      cases (update_self ..).symm.trans hj
    · rw [hlog, pairwise_append]
      refine ⟨h.order, pairwise_singleton .., fun p hp q hq ⟨hpc, hqd⟩ => ?_⟩
      obtain rfl := mem_singleton.1 hq
      rw [h.locked i f again locked hqd p hp] at hpc
      cases hpc
  | @write i n left again | @fail i left again | @unwind =>
    exact h.quiet rfl fun j f again hj _ => .inl (locked_update hj nofun)
  | @finish i again p writing after =>
    refine h.quiet rfl fun j f again hj _ => .inl (locked_update hj ?_)
    rintro f again rfl
    cases after
  | drop => exact h.quiet rfl fun j f again hj _ => .inl hj

theorem inTime_run (h : Run (step serverSide) {} tr s)
    (hopen : ∀ p ∈ tr, stillOpen p.1 p.2 = true) : InTime serverSide tr s := by
  refine h.induct (fun s e => stillOpen s e = true) hopen .init fun hr _ ih ho hs => ?_
  exact ih.step (output_run hr) (closing_run hr) ho (change_of_step hs)

/-- **No data after the Close**, if whoever gets the lock to send data finds the connection open. -/
theorem writers_noDataAfterClose (h : Run (step serverSide) {} tr s)
    (hopen : ∀ p ∈ tr, stillOpen p.1 p.2 = true) :
    (logOf (started serverSide) tr).Pairwise fun p q => ¬(p.1.isClose = true ∧ q.1.isData = true) :=
  (inTime_run h hopen).order

/-- A Text and a fragment go out, and then the Close. -/
def orderly (key : MaskKey) : List (Event ℕ) :=
  [.send 0 .text [104] true, .send 1 .binary [7] false, .lock 1, .start 1 key, .write 1 20,
    .finish 1,
    .lock 0, .close 2 1000 [], .start 0 key, .write 0 20, .finish 0, .lock 2, .start 2 key,
    .write 2 20, .finish 2, .send 3 .text [105] true]

theorem writers_noDataAfterClose_orderly : ∃ tr, ∃ s : State ℕ, Run (step false) {} tr s ∧
    (logOf (started false) tr).map (fun p => p.1.opcode) = [opBinary, opText, opClose] ∧
    (logOf (started false) tr).Pairwise fun p q => ¬(p.1.isClose = true ∧ q.1.isData = true) := by
  have h : Run (step false) ({} : State ℕ) _ _ := .follow (orderly ⟨1, 2, 3, 4⟩) (by decide +kernel)
  exact ⟨_, _, h, by decide +kernel, writers_noDataAfterClose h (by decide +kernel)⟩

/-- `sendText` finds the connection open and waits for the lock, which `close` has got before it:
the Close goes out whole, and then the Text. -/
def overtaken (key : MaskKey) : List (Event ℕ) :=
  [.send 0 .text [104] true, .close 1 1000 [], .lock 1, .start 1 key, .write 1 20, .finish 1,
    .lock 0,
    .start 0 key, .write 0 20, .finish 0]

theorem overtaken_by_close : ∃ tr, ∃ s : State ℕ, Run (step true) {} tr s ∧
    s.wire = [136, 2, 3, 232] ++ [129, 1, 104] ∧
    ¬(logOf (started true) tr).Pairwise fun p q => ¬(p.1.isClose = true ∧ q.1.isData = true) :=
  Run.exists_of_exec (overtaken ⟨0, 0, 0, 0⟩) (by decide +kernel)

end Manwe.WebSocket.Writers
