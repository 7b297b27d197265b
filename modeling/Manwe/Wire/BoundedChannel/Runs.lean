import Manwe.Wire.BoundedChannel.Senders
import Manwe.Wire.Mailbox.Runs

/-!
# Conservation and order in a bounded channel

From what each step does to the senders follow that a value is accepted at most once, which is all
that conservation needs (`boundedChannel_conserves`), and that values are accepted in the order in
which their sends reached the channel (`boundedChannel_fifo`).
-/

namespace Manwe.BoundedChannel

open Mailbox List Option SendCall Send Prod

variable {ι κ α : Type*} [DecidableEq κ] {capacity : ℕ} {c : Core κ α}

/-! ### What a run leaves behind -/

/-- The calls of `send` and their values, in order. -/
def started : List (State ι κ α × Event ι κ α) → List (κ × α) :=
  logOf fun _ e => (e.sends.map starts).getD []

/-- The calls that reached the channel, that is, whose values were handed over, buffered or queued,
in order. -/
def reached (capacity : ℕ) : List (State ι κ α × Event ι κ α) → List (κ × α) := logOf fun s e =>
    ((e.sends.bind (act capacity (!s.receivers.isEmpty) s.stock)).map Sent.reaches).getD []

/-- The values given to `send` and `pushFront`. -/
def offers : List (State ι κ α × Event ι κ α) → List α :=
  logOf fun _ e => ((e.sends.map starts).getD []).map snd ++ e.fronts

variable {c' : Core κ α} {i : κ}

/-- Every step of a channel changes the senders in one way, and if it sends nothing back it does
not overfill the buffer. -/
theorem stockStep_change {w p : Bool} {x : Option (Send κ α)} {acc : List α} (h : Ok capacity c)
    (hw : w = true → take capacity c = none ∧ c.closed = false)
    (hs : StockStep (side capacity) w c p x acc c') :
    (∃ delivers, acc = delivers.map snd ∧ Change capacity c c'
        ((x.map starts).getD []) (((x.bind (act capacity w c)).map Sent.reaches).getD [])
        delivers) ∧
      (p = true → c.buffer.length ≤ capacity → c'.buffer.length ≤ capacity) := by
  cases hs with
  | same => exact ⟨⟨[], rfl, change_buffer h rfl rfl rfl fun hne => (h.full hne).1⟩, fun _ => id⟩
  | take ht =>
    obtain ⟨hc, -, -, hroom⟩ := take_change h ht
    exact ⟨hc, fun _ => hroom⟩
  | front v => exact ⟨⟨[], rfl, change_front h v⟩, by simp⟩
  | close => exact ⟨⟨[], rfl, change_close h⟩, fun _ => id⟩
  | @act _ e d ha =>
    obtain ⟨d, hd, rfl⟩ := map_eq_some_iff.mp ha
    have hdealt := act_dealt h (fun hwt => by
      obtain ⟨ht, hcl⟩ := hw hwt
      obtain ⟨hb, hs⟩ := take_eq_none.mp ht
      exact ⟨hb, hs, hcl⟩) hd
    refine ⟨?_, fun _ => hdealt.room⟩
    simpa [hd] using hdealt.change

/-- **The senders' side of a history**: which calls were made, which reached the channel, and
which delivered, in the order in which their values were accepted. -/
structure Kept (c : Core κ α) (S R D : List (κ × α)) : Prop where
  started : ∀ {i v}, (i, v) ∈ S ↔ (c.send i).value = some v
  reached : ∀ p ∈ R, (c.send p.1).arrived = true ∧ (c.send p.1).value = some p.2
  once : (R.map fst).Nodup
  delivered : ∀ {i v}, (i, v) ∈ D ↔ (c.send i).delivered = true ∧ (c.send i).value = some v
  order : (D ++ c.senders).Sublist R
  settled : ∀ p ∈ R, (c.send p.1).settled ∨ c.closed = true

omit [DecidableEq κ] in
theorem kept_init : Kept ({} : Core κ α) [] [] [] :=
  ⟨by simp, by simp, by simp, by simp [delivered], by simp, by simp⟩

omit [DecidableEq κ] in
theorem Ok.value_of_delivered (h : Ok capacity c) (hi : (c.send i).delivered = true) :
    (c.send i).value ≠ none := by
  intro hv
  have hpc := (h.wf i).value.mpr hv
  have harr : (c.send i).arrived = false := by simp [hpc]
  rw [h.unarrived harr] at hi
  cases hi

omit [DecidableEq κ] in
/-- **One step of the history.** -/
theorem Change.kept {S R D s r d : List (κ × α)} (hc : Change capacity c c' s r d)
    (hok : Ok capacity c) (h : Kept c S R D) : Kept c' (S ++ s) (R ++ r) (D ++ d) := by
  refine ⟨fun {i v} => ?_, fun p hp => ?_, ?_, fun {i v} => ?_, hc.queue.fifo h.order,
    fun p hp => ?_⟩
  · rw [mem_append, h.started, hc.value]
  · rcases mem_append.mp hp with hp | hp
    · obtain ⟨harr, hv⟩ := h.reached p hp
      exact ⟨hc.arrived harr, hc.value.mpr (.inl hv)⟩
    · exact (hc.reaches p hp).2
  · have hr : (r.map fst).Nodup := by rcases hc.queue.arrival with rfl | ⟨p, rfl, -⟩ <;> simp
    rw [map_append, nodup_append]
    refine ⟨h.once, hr, ?_⟩
    rintro i hi j hj rfl
    obtain ⟨p, hp, rfl⟩ := mem_map.mp hi
    obtain ⟨q, hq, hqp⟩ := mem_map.mp hj
    have harr := (hc.reaches q hq).1
    rw [hqp, (h.reached p hp).1] at harr
    cases harr
  · rw [mem_append, h.delivered]
    constructor
    · rintro (⟨hd, hv⟩ | hm)
      · exact ⟨hc.delivered.mpr (.inl hd), hc.value.mpr (.inl hv)⟩
      · exact ⟨hc.delivered.mpr (.inr ⟨v, hm⟩), (hc.delivers _ hm).2⟩
    · rintro ⟨hd, hv⟩
      rcases hc.delivered.mp hd with hd | ⟨w, hm⟩
      · refine .inl ⟨hd, (hc.value.mp hv).resolve_right fun hs => ?_⟩
        exact hok.value_of_delivered hd (hc.starts _ hs)
      · have hvw : w = v := some.inj ((hc.delivers _ hm).2.symm.trans hv)
        exact .inr (hvw ▸ hm)
  · rcases mem_append.mp hp with hp | hp
    · exact hc.settled (h.settled p hp)
    · -- a call that has just reached the channel has delivered or is queued
      rcases hc.queue.arrival with rfl | ⟨q, rfl, hq⟩
      · simp at hp
      obtain rfl := mem_singleton.mp hp
      rcases mem_append.mp hq with hq | hq
      · exact .inl (.inl (hc.delivered.mpr (.inr ⟨p.2, hq⟩)))
      · exact .inl (.inr (.inl (hc.ok.mem.mp hq).1))

omit [DecidableEq κ] in
/-- A call that is past the channel without having delivered stays so. -/
theorem Change.gone {s r d : List (κ × α)} (hc : Change capacity c c' s r d) (hok : Ok capacity c)
    (harr : (c.send i).arrived = true) (hq : (c.send i).queued = false)
    (hd : (c.send i).delivered = false) :
    (c'.send i).arrived = true ∧ (c'.send i).queued = false ∧ (c'.send i).delivered = false := by
  have hnr : ∀ v, (i, v) ∉ r := fun v hr => by
    have := (hc.reaches _ hr).1
    rw [harr] at this
    cases this
  have hnq : ∀ v, (i, v) ∉ c.senders := fun v hs => by
    rw [(hok.mem.mp hs).1] at hq
    cases hq
  have hout : ∀ v, (i, v) ∉ d ++ c'.senders := fun v hm => by
    have hsub := hc.queue.fifo (A := []) (Sublist.refl _)
    rcases mem_append.mp (hsub.subset hm) with h | h
    · exact hnq v h
    · exact hnr v h
  refine ⟨hc.arrived harr, ?_, ?_⟩
  · by_contra hq'
    cases hv : (c'.send i).value with
    | none =>
      have hpc := ((hc.ok.wf i).value.mpr hv)
      rw [((hc.ok.wf i).queued (by simpa using hq')).1] at hpc
      cases hpc
    | some v => exact hout v (mem_append_right _ (hc.ok.mem.mpr ⟨by simpa using hq', hv⟩))
  · by_contra hd'
    rcases hc.delivered.mp (by simpa using hd') with h | ⟨v, hm⟩
    · rw [hd] at h
      cases h
    · exact hout v (mem_append_left _ hm)

/-- The call ended, or its frame was destroyed in the queue, without its value going in. -/
def Refused (tr : List (State ι κ α × Event ι κ α)) (s : State ι κ α) (i : κ) : Prop :=
  (s.stock.send i).pc = .returned false ∨ (∃ x, (s.stock.send i).pc = .threw x) ∨
    ∃ t, (t, Mailbox.Event.send (destroy i)) ∈ tr ∧ (t.stock.send i).queued = true

section Runs

variable [DecidableEq ι] {tr : List (State ι κ α × Event ι κ α)} {s : State ι κ α}
  (hr : Run (step (side capacity)) init tr s)

include hr

theorem inv_of_run : Inv (side capacity) (Ok capacity) s :=
  inv_run (lawful capacity) (ok_init capacity) hr

theorem change_of_run {e : Event ι κ α} {a : Act (Core κ α) ι α}
    (ha : Mailbox.act (side capacity) s e = some a) :
    (∃ delivers, a.accepts = delivers.map snd ∧ Change capacity s.stock a.next.stock
        ((e.sends.map starts).getD [])
        (((e.sends.bind (act capacity (!s.receivers.isEmpty) s.stock)).map Sent.reaches).getD [])
        delivers) ∧
      (e.plain = true → s.stock.buffer.length ≤ capacity →
        a.next.stock.buffer.length ≤ capacity) := by
  have h := inv_of_run hr
  exact stockStep_change h.ok (fun hne => h.waiting (by simpa using hne)) (act_stock h ha).1

/-- The history of every run. -/
theorem kept_of_run : ∃ D, D.map snd = accepted (side capacity) tr ∧
    Kept s.stock (started tr) (reached capacity tr) D := by
  induction hr with
  | start => exact ⟨[], rfl, kept_init⟩
  | @next tr s t e hr hs ih =>
    obtain ⟨a, ha, rfl⟩ := map_eq_some_iff.mp hs
    obtain ⟨D, hD, hkept⟩ := ih
    obtain ⟨⟨d, hd, hc⟩, -⟩ := change_of_run hr ha
    refine ⟨D ++ d, ?_, ?_⟩
    · rw [map_append, hD, ← hd]
      simp [accepted, ha]
    · simp only [started, reached, logOf_snoc]
      exact hc.kept (inv_of_run hr).ok hkept

/-- A call whose frame was destroyed while it was queued never delivers. -/
theorem delivered_of_destroyed {i : κ} {t : State ι κ α}
    (ht : (t, Mailbox.Event.send (destroy i)) ∈ tr) (hq : (t.stock.send i).queued = true) :
    (s.stock.send i).arrived = true ∧ (s.stock.send i).queued = false ∧
      (s.stock.send i).delivered = false := by
  induction hr with
  | start => simp at ht
  | @next tr s u e hr hs ih =>
    have h := inv_of_run hr
    rcases mem_append.mp ht with ht | ht
    · -- an earlier step destroyed the frame, and nothing brings the call back
      obtain ⟨a, ha, rfl⟩ := map_eq_some_iff.mp hs
      obtain ⟨⟨d, -, hc⟩, -⟩ := change_of_run hr ha
      obtain ⟨h1, h2, h3⟩ := ih ht
      exact hc.gone h.ok h1 h2 h3
    · obtain ⟨rfl, rfl⟩ : t = s ∧ _ = e := by simpa using ht
      obtain ⟨hpc, hok, -⟩ := (h.ok.wf i).queued hq
      obtain rfl : _ = u := by
        simpa [step, Mailbox.act, side, act, hpc, abandon, hq, deal, unlinkLocked] using hs
      simp [Core.set, delivered, hok]

section Distinct

variable (hdistinct : (offers tr).Nodup)

include hdistinct

omit hr [DecidableEq κ] [DecidableEq ι] in
/-- No value is offered by two calls, or by a call and to `pushFront`. -/
theorem nodup_offers : ((started tr).map snd ++ pushed tr).Nodup := by
  have hperm := logOf_append
    (fun _ e => ((e.sends.map starts).getD []).map snd) (fun _ e => e.fronts) tr
  rw [logOf_map] at hperm
  exact hperm.nodup_iff.mp hdistinct

/-- Distinct offers make distinct accepted values. -/
theorem nodup_inflow : (inflow (side capacity) tr).Nodup := by
  obtain ⟨D, hD, hkept⟩ := kept_of_run hr
  have hoffers := nodup_append.mp (nodup_offers hdistinct)
  have hsub : ∀ p ∈ D, p ∈ started tr := fun p hp => hkept.started.mpr (hkept.delivered.mp hp).2
  have hnd : D.Nodup := by
    have hR := hkept.once.sublist (hkept.order.map fst)
    rw [map_append] at hR
    exact (nodup_append.mp hR).1.of_map
  rw [(inflow_run (lawful capacity) (ok_init capacity) hr).nodup_iff, ← hD]
  refine nodup_append.mpr ⟨?_, hoffers.2.1, ?_⟩
  · refine hnd.map_on fun p hp q hq hpq => ?_
    exact inj_on_of_nodup_map hoffers.1 (hsub p hp) (hsub q hq) hpq
  · intro v hv w hw
    obtain ⟨p, hp, rfl⟩ := mem_map.mp hv
    exact hoffers.2.2 _ (mem_map_of_mem (hsub p hp)) w hw

variable {v : α} {i : κ}

/-- Whatever is somewhere was accepted or pushed. -/
theorem mem_of_at_run {p : Place ι} (hp : At (side capacity) s p v) :
    v ∈ accepted (side capacity) tr ∨ v ∈ pushed tr := by
  have hacc := accounts_run (lawful capacity) (ok_init capacity) hr rfl (nodup_inflow hr hdistinct)
  have hv := (inv_of_run hr).mem_of_at hacc hp
  rw [(inflow_run (lawful capacity) (ok_init capacity) hr).mem_iff, mem_append] at hv
  exact hv

/-- A call has delivered exactly if its value was accepted. -/
theorem delivered_iff (hv : (s.stock.send i).value = some v) :
    (s.stock.send i).delivered = true ↔ v ∈ accepted (side capacity) tr := by
  obtain ⟨D, hD, hkept⟩ := kept_of_run hr
  have hoffers := nodup_append.mp (nodup_offers hdistinct)
  rw [← hD, List.mem_map]
  constructor
  · exact fun hd => ⟨(i, v), hkept.delivered.mpr ⟨hd, hv⟩, rfl⟩
  · rintro ⟨⟨j, w⟩, hp, rfl⟩
    obtain ⟨hd, hw⟩ := hkept.delivered.mp hp
    have hji := inj_on_of_nodup_map hoffers.1 (hkept.started.mpr hw) (hkept.started.mpr hv) rfl
    rw [Prod.mk.injEq] at hji
    rw [← hji.1, hd]

omit hdistinct in
theorem delivered_of_refused (h : Refused tr s i) : (s.stock.send i).delivered = false := by
  rcases h with hpc | ⟨x, hpc⟩ | ⟨t, ht, hq⟩
  · simp [delivered, hpc]
  · have hok := ((inv_of_run hr).ok.wf i).failed (.inr ⟨x, hpc⟩)
    simp [delivered, hpc, hok]
  · exact (delivered_of_destroyed hr ht hq).2.2

/-- The value of a refused call was never accepted or pushed. -/
theorem not_mem_of_refused (hv : (s.stock.send i).value = some v) (h : Refused tr s i) :
    ¬ (v ∈ accepted (side capacity) tr ∨ v ∈ pushed tr) := by
  rintro (hacc | hpush)
  · have hd := (delivered_iff hr hdistinct hv).mpr hacc
    rw [delivered_of_refused hr h] at hd
    cases hd
  · obtain ⟨D, -, hkept⟩ := kept_of_run hr
    have hoffers := nodup_append.mp (nodup_offers hdistinct)
    exact hoffers.2.2 v (mem_map_of_mem (hkept.started.mpr hv)) v hpush rfl

/-- **`BoundedChannel` conserves values.** A call has delivered exactly if its value was accepted;
an accepted or pushed value is in exactly one place; the value of a refused call is nowhere and
never was. -/
theorem boundedChannel_conserves : (∀ i v, (s.stock.send i).value = some v →
      ((s.stock.send i).delivered = true ↔ v ∈ accepted (side capacity) tr)) ∧
    (∀ v, v ∈ accepted (side capacity) tr ∨ v ∈ pushed tr → ∃! p, At (side capacity) s p v) ∧
    (∀ i v, (s.stock.send i).value = some v → Refused tr s i → ∀ p,
      ¬ At (side capacity) s p v ∧ ∀ q ∈ tr, ¬ At (side capacity) q.1 p v) := by
  refine ⟨fun i v hv => delivered_iff hr hdistinct hv, fun v hv => ?_, fun i v hv href p => ?_⟩
  · have hacc := accounts_run (lawful capacity) (ok_init capacity) hr rfl
      (nodup_inflow hr hdistinct)
    refine (inv_of_run hr).existsUnique_at hacc ?_
    rw [(inflow_run (lawful capacity) (ok_init capacity) hr).mem_iff, mem_append]
    exact hv
  · have hout := not_mem_of_refused hr hdistinct hv href
    refine ⟨fun hp => hout (mem_of_at_run hr hdistinct hp), fun q hq hp => hout ?_⟩
    -- what was somewhere earlier had been accepted by then
    obtain ⟨tr', t, hr', -, hpre⟩ := hr.before hq
    have hdistinct' := hdistinct.sublist (logOf_mono _ hpre).sublist
    rcases mem_of_at_run hr' hdistinct' hp with hacc | hpush
    · exact .inl ((logOf_mono _ hpre).subset hacc)
    · exact .inr ((logOf_mono _ hpre).subset hpush)

end Distinct

end Runs

/-- A channel of capacity one. Call `1` parks until receiver `0` makes room; call `2` is cancelled
and call `3` destroyed in the queue; receiver `2` is handed `14` but destroyed before it wakes;
call `5` comes after `close`. -/
def backpressure : List (Event ℕ ℕ ℕ) :=
  [.send (.send 0 10 false), .send (.send 1 11 false), .send (.suspend 1 none),
    .send (.send 2 12 true), .send (.suspend 2 (some false)), .send (.retry 2),
    .send (.send 3 13 false), .send (.suspend 3 none), .send (.cancel 2), .send (.wake 2),
    .send (.resume 2 false), .send (.destroy 3), .receive 0 false, .send (.wake 1),
    .send (.resume 1 false), .receive 1 false, .receive 2 false, .suspend 2 none,
    .send (.send 4 14 false), .destroy 2, .putBack 2, .pushFront 16, .close,
    .send (.send 5 15 false)]

theorem boundedChannel_conserves_backpressure : ∃ tr s,
    Run (step (side 1)) (init : State ℕ ℕ ℕ) tr s ∧ (offers tr).Nodup ∧
      accepted (side 1) tr = [10, 11, 14] ∧ s.stock.buffer = [16, 14] ∧
      (s.stock.send 2).pc = .threw .cancelled ∧ (s.stock.send 5).pc = .returned false ∧
      (∀ v, v ∈ accepted (side 1) tr ∨ v ∈ pushed tr → ∃! p, At (side 1) s p v) ∧
      ∀ p, ¬ At (side 1) s p 12 := by
  have hr := Run.of_exec
    (show exec (step (side 1)) (init : State ℕ ℕ ℕ) backpressure = some _ from rfl)
  have h := boundedChannel_conserves hr (by decide)
  exact ⟨_, _, hr, by decide, rfl, rfl, rfl, rfl, h.2.1,
    fun p => (h.2.2 2 12 rfl (.inr (.inl ⟨.cancelled, rfl⟩)) p).1⟩

section Order

variable [DecidableEq ι] {tr : List (State ι κ α × Event ι κ α)} {s : State ι κ α}
  (hr : Run (step (side capacity)) init tr s)

include hr

/-- The buffer is overfilled only by values sent back. -/
theorem room_of_run (hfwd : ∀ p ∈ tr, p.2.forward = true) : s.stock.buffer.length ≤ capacity := by
  refine hr.induct (fun _ e => e.forward = true) hfwd (Nat.zero_le _) fun hr hfwd ih he hs => ?_
  obtain ⟨a, ha, rfl⟩ := map_eq_some_iff.mp hs
  exact (change_of_run hr ha).2 (plain_run (lawful capacity) (ok_init capacity) hr hfwd he ha) ih

/-- Values are accepted in the order in which their sends reached the channel, and those that
wait come after them in the same order. -/
theorem accepted_of_run : accepted (side capacity) tr =
        ((reached capacity tr).filter fun p => (s.stock.send p.1).delivered).map snd ∧
      accepted (side capacity) tr ++ s.stock.senders.map snd =
        ((reached capacity tr).filter fun p =>
          (s.stock.send p.1).delivered || (s.stock.send p.1).queued).map snd := by
  obtain ⟨D, hD, hkept⟩ := kept_of_run hr
  have hok := (inv_of_run hr).ok
  have hnd : (reached capacity tr).Nodup := hkept.once.of_map
  have hdel : ∀ p ∈ reached capacity tr, (s.stock.send p.1).delivered = true ↔ p ∈ D :=
    fun p hp => ⟨fun hd => hkept.delivered.mpr ⟨hd, (hkept.reached p hp).2⟩,
      fun hm => (hkept.delivered.mp hm).1⟩
  have hq : ∀ p ∈ reached capacity tr, (s.stock.send p.1).queued = true ↔ p ∈ s.stock.senders :=
    fun p hp => ⟨fun hq => hok.mem.mpr ⟨hq, (hkept.reached p hp).2⟩, fun hm => (hok.mem.mp hm).1⟩
  constructor
  · rw [eq_filter_of_sublist ((sublist_append_left _ _).trans hkept.order) hnd hdel, hD]
  · rw [eq_filter_of_sublist hkept.order hnd, map_append, hD]
    intro p hp
    rw [Bool.or_eq_true, hdel p hp, hq p hp, mem_append]

/-- **Representation and order.** -/
theorem boundedChannel_fifo :
    (s.receivers ≠ [] → s.stock.buffer = [] ∧ s.stock.senders = [] ∧ s.stock.closed = false) ∧
    (s.stock.senders ≠ [] →
      capacity ≤ s.stock.buffer.length ∧ s.receivers = [] ∧ s.stock.closed = false) ∧
    ((∀ p ∈ tr, p.2.forward = true) → s.stock.buffer.length ≤ capacity ∧
      (taken (side capacity) tr).map snd ++ s.stock.buffer =
        ((reached capacity tr).filter fun p => (s.stock.send p.1).delivered).map snd ∧
      (taken (side capacity) tr).map snd ++ s.stock.buffer ++ s.stock.senders.map snd =
        ((reached capacity tr).filter fun p =>
          (s.stock.send p.1).delivered || (s.stock.send p.1).queued).map snd ∧
      ∀ p ∈ reached capacity tr,
        (s.stock.send p.1).delivered = false → (s.stock.send p.1).queued = false →
          (s.stock.send p.1).cancelled = true ∨ (s.stock.send p.1).pc = .destroyed ∨
            s.stock.closed = true) := by
  have h := inv_of_run hr
  refine ⟨fun hne => ?_, fun hne => ?_,
    fun hfwd => ⟨room_of_run hr hfwd, ?_, ?_, fun p hp h1 h2 => ?_⟩⟩
  · obtain ⟨htake, hopen⟩ := h.waiting hne
    obtain ⟨hb, hs⟩ := take_eq_none.mp htake
    exact ⟨hb, hs, hopen⟩
  · obtain ⟨hfull, hopen⟩ := h.ok.full hne
    refine ⟨hfull, ?_, hopen⟩
    by_contra hrecv
    exact hne (take_eq_none.mp (h.waiting hrecv).1).2
  · have hfifo := fifo_run (lawful capacity) (ok_init capacity) hr rfl hfwd
    exact hfifo.trans (accepted_of_run hr).1
  · have hfifo := fifo_run (lawful capacity) (ok_init capacity) hr rfl hfwd
    rw [← (accepted_of_run hr).2, ← hfifo]
    rfl
  · obtain ⟨D, -, hkept⟩ := kept_of_run hr
    rcases hkept.settled p hp with hset | hcl
    · have hgone : (s.stock.send p.1).cancelled = true ∨ (s.stock.send p.1).pc = .destroyed := by
        simpa [settled, h1, h2] using hset
      exact hgone.imp_right .inl
    · exact .inr (.inr hcl)

end Order

/-- Calls `1`, `2` and `3` queue behind a full buffer of one; `2` is cancelled between the others.
Receiver `0` makes room for `1`. -/
def cancelledBetween : List (Event ℕ ℕ ℕ) :=
  [.send (.send 0 10 false), .send (.send 1 11 false), .send (.suspend 1 none),
    .send (.send 2 12 false), .send (.suspend 2 (some false)), .send (.retry 2),
    .send (.send 3 13 false), .send (.suspend 3 none), .send (.cancel 2), .receive 0 false]

theorem boundedChannel_fifo_cancelledBetween : ∃ tr s,
    Run (step (side 1)) (init : State ℕ ℕ ℕ) tr s ∧ (∀ p ∈ tr, p.2.forward = true) ∧
      reached 1 tr = [(0, 10), (1, 11), (2, 12), (3, 13)] ∧ s.stock.senders = [(3, 13)] ∧
      s.receivers = [] ∧ (taken (side 1) tr).map snd ++ s.stock.buffer = [10, 11] := by
  have hr := Run.of_exec
    (show exec (step (side 1)) (init : State ℕ ℕ ℕ) cancelledBetween = some _ from rfl)
  have h := boundedChannel_fifo hr
  exact ⟨_, _, hr, by decide, rfl, rfl, (h.2.1 (cons_ne_nil _ _)).2.1, (h.2.2 (by decide)).2.1⟩

end Manwe.BoundedChannel
