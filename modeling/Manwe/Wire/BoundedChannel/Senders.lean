import Manwe.Transition.Waitlist
import Manwe.Wire.BoundedChannel

/-!
# The senders of a bounded channel

What a step does to the senders is said once (`Change`): which call starts, which reaches the
channel, which delivers its value, and how the queue moves. Each section of the source is a
`Change`, and the class is `Lawful`: a receiver parks only when no value is buffered and no sender
waits.
-/

namespace Manwe.BoundedChannel

open Function List SendCall Prod

open Mailbox

variable {ι κ α : Type*}

/-! ### What every step keeps -/

/-- The call is past the section that queues it, lets it through or turns it away. -/
@[simp] def SendCall.arrived (x : SendCall α) : Bool :=
  match x.pc with
  | .idle | .looked | .arming => false
  | .parked | .resuming | .returned _ | .threw _ | .destroyed => true

/-- A call's flags agree with its control point. -/
structure SendCall.Wf (x : SendCall α) : Prop where
  value : x.pc = .idle ↔ x.value = none
  fresh : x.arrived = false → x.ok = false ∧ x.queued = false ∧ x.cancelled = false
  queued : x.queued = true → x.pc = .parked ∧ x.ok = false ∧ x.cancelled = false
  failed : x.cancelled = true ∨ (∃ e, x.pc = .threw e) → x.ok = false

/-- The call's value went in or is queued, or the call was cancelled or its frame destroyed. -/
def SendCall.settled (x : SendCall α) : Prop :=
  x.delivered = true ∨ x.queued = true ∨ x.cancelled = true ∨ x.pc = .destroyed

/-- The queue lists the queued calls with their values, and a sender waits only while the buffer
is full and the channel is open. -/
structure Ok (capacity : ℕ) (c : Core κ α) : Prop where
  nodup : (c.senders.map fst).Nodup
  mem : ∀ {i v}, (i, v) ∈ c.senders ↔ (c.send i).queued = true ∧ (c.send i).value = some v
  wf : ∀ i, (c.send i).Wf
  full : c.senders ≠ [] → capacity ≤ c.buffer.length ∧ c.closed = false

theorem ok_init (capacity : ℕ) : Ok capacity ({} : Core κ α) :=
  ⟨nodup_nil, by simp, fun _ => ⟨by simp, by simp, by simp, by simp⟩, by simp⟩

/-- **What a step does to the senders**: `starts` are called, `reaches` reach the channel and
`delivers` get their value into it. -/
structure Change (capacity : ℕ) (c c' : Core κ α) (starts reaches delivers : List (κ × α)) :
    Prop where
  ok : Ok capacity c'
  queue : QueueStep c.senders reaches delivers c'.senders
  value : ∀ {j v}, (c'.send j).value = some v ↔ (c.send j).value = some v ∨ (j, v) ∈ starts
  starts : ∀ p ∈ starts, (c.send p.1).value = none
  delivered : ∀ {j}, (c'.send j).delivered = true ↔
    (c.send j).delivered = true ∨ ∃ v, (j, v) ∈ delivers
  delivers : ∀ p ∈ delivers, (c.send p.1).delivered = false ∧ (c'.send p.1).value = some p.2
  reaches : ∀ p ∈ reaches, (c.send p.1).arrived = false ∧ (c'.send p.1).arrived = true ∧
    (c'.send p.1).value = some p.2
  arrived : ∀ {j}, (c.send j).arrived = true → (c'.send j).arrived = true
  settled : ∀ {j}, (c.send j).settled ∨ c.closed = true → (c'.send j).settled ∨ c'.closed = true

variable {capacity : ℕ} {c : Core κ α} {i : κ}

theorem Ok.unarrived (h : Ok capacity c) (hi : (c.send i).arrived = false) :
    (c.send i).delivered = false := by
  have hok := ((h.wf i).fresh hi).1
  unfold arrived at hi
  unfold delivered
  split at hi <;> simp_all

variable [DecidableEq κ]

theorem send_set (c : Core κ α) (i j : κ) (x : SendCall α) :
    (c.set i x).send j = if j = i then x else c.send j := by
  simp [Core.set, update_apply]

variable {c' : Core κ α} {x : SendCall α}

/-- One call moves. -/
theorem change_of_update {starts reaches delivers : List (κ × α)}
    (hsend : c'.send = update c.send i x) (hok : Ok capacity c')
    (hq : QueueStep c.senders reaches delivers c'.senders)
    (hval : ∀ {v}, x.value = some v ↔ (c.send i).value = some v ∨ (i, v) ∈ starts)
    (hstarts : ∀ p ∈ starts, p.1 = i ∧ (c.send i).value = none)
    (hdel : x.delivered = true ↔ (c.send i).delivered = true ∨ ∃ v, (i, v) ∈ delivers)
    (hdelivers : ∀ p ∈ delivers, p.1 = i ∧ (c.send i).delivered = false ∧ x.value = some p.2)
    (hreaches : ∀ p ∈ reaches, p.1 = i ∧ (c.send i).arrived = false ∧ x.arrived = true ∧
      x.value = some p.2)
    (harr : (c.send i).arrived = true → x.arrived = true) (hset : (c.send i).settled → x.settled)
    (hcl : c.closed = true → c'.closed = true) : Change capacity c c' starts reaches delivers := by
  have hi : c'.send i = x := by rw [hsend, update_self]
  have hne : ∀ {j}, j ≠ i → c'.send j = c.send j := fun hj => by rw [hsend, update_of_ne hj]
  -- the hypotheses are the facts for `i`; for any other call nothing has happened
  refine ⟨hok, hq, fun {j w} => ?_, fun p hp => ?_, fun {j} => ?_, fun p hp => ?_, fun p hp => ?_,
    fun {j} hj => ?_, fun {j} hj => ?_⟩
  · obtain rfl | hj := eq_or_ne j i
    · rw [hi]
      exact hval
    · rw [hne hj]
      exact ⟨.inl, fun h => h.resolve_right fun hm => hj (hstarts _ hm).1⟩
  · obtain ⟨h1, h2⟩ := hstarts p hp
    rw [h1]
    exact h2
  · obtain rfl | hj := eq_or_ne j i
    · rw [hi]
      exact hdel
    · rw [hne hj]
      exact ⟨.inl, fun h => h.resolve_right fun ⟨w, hm⟩ => hj (hdelivers _ hm).1⟩
  · obtain ⟨h1, h2⟩ := hdelivers p hp
    rw [h1, hi]
    exact h2
  · obtain ⟨h1, h2⟩ := hreaches p hp
    rw [h1, hi]
    exact h2
  · obtain rfl | hji := eq_or_ne j i
    · rw [hi]
      exact harr hj
    · rw [hne hji]
      exact hj
  · refine hj.imp (fun hj => ?_) hcl
    obtain rfl | hji := eq_or_ne j i
    · rw [hi]
      exact hset hj
    · rw [hne hji]
      exact hj

/-- The invariant survives a step of one call that neither joins nor leaves the queue. -/
theorem Ok.update (h : Ok capacity c) {d : Core κ α} (hsend : d.send = update c.send i x)
    (hs : d.senders = c.senders) (hx : x.Wf) (hq : x.queued = (c.send i).queued)
    (hv : x.queued = true → x.value = (c.send i).value)
    (hfull : d.senders ≠ [] → capacity ≤ d.buffer.length ∧ d.closed = false) : Ok capacity d := by
  refine ⟨hs ▸ h.nodup, fun {j v} => ?_, fun j => ?_, hfull⟩
  · rw [hs, h.mem, hsend, update_apply]
    split_ifs with hj
    · subst hj
      rw [← hq]
      exact ⟨fun hm => ⟨hm.1, by rw [hv hm.1]; exact hm.2⟩,
        fun hm => ⟨hm.1, by rw [← hv hm.1]; exact hm.2⟩⟩
    · rfl
  · rw [hsend, update_apply]
    split
    · exact hx
    · exact h.wf j

/-- A call's own step that leaves its value where it is. -/
theorem change_set (h : Ok capacity c) (hx : x.Wf) (hv : x.value = (c.send i).value)
    (hq : x.queued = (c.send i).queued) (hd : x.delivered = (c.send i).delivered)
    (ha : (c.send i).arrived = true → x.arrived = true)
    (hc : (c.send i).cancelled = true → x.cancelled = true) (hpc : (c.send i).pc ≠ .destroyed) :
    Change capacity c (c.set i x) [] [] [] := by
  refine change_of_update rfl (h.update rfl rfl hx hq (fun _ => hv) h.full)
    (.serve (Sublist.refl _)) (by simp [hv]) (by simp) (by simp [hd]) (by simp) (by simp) ha
    ?_ id
  rintro (h1 | h1 | h1 | h1)
  · exact .inl (hd.trans h1)
  · exact .inr (.inl (hq.trans h1))
  · exact .inr (.inr (.inl (hc h1)))
  · exact absurd h1 hpc

variable {v : α} (h : Ok capacity c)

include h

/-- A call starts and stays outside. -/
theorem change_start (hi : (c.send i).pc = .idle) (hx : x.Wf) (hv : x.value = some v)
    (hq : x.queued = false) (hd : x.delivered = false) :
    Change capacity c (c.set i x) [(i, v)] [] [] := by
  have hold := (h.wf i).value.mp hi
  have ha : (c.send i).arrived = false := by simp [hi]
  have hok := h.update (d := c.set i x) rfl rfl hx
    (by rw [hq, ((h.wf i).fresh ha).2.1]) (by simp [hq]) h.full
  refine change_of_update rfl hok (.serve (Sublist.refl _)) ?_ ?_ ?_ (by simp) (by simp)
    (by simp [-arrived, ha]) ?_ id
  · intro w
    simp [hold, hv, eq_comm]
  · simp [hold]
  · simp [hd, h.unarrived ha]
  · obtain ⟨-, h1, h2⟩ := (h.wf i).fresh ha
    simp [settled, h.unarrived ha, h1, h2, hi]

variable (ha : (c.send i).arrived = false) (hx : x.Wf) (hv : x.value = some v)

include ha hx hv

/-- A call that has not arrived gets its value in at once; `starts` says whether it is its first
step. -/
theorem change_deliver (hq : x.queued = false) (hd : x.delivered = true) (hxa : x.arrived = true)
    (hnone : c.senders = []) {b : List α} {starts : List (κ × α)}
    (hs : (c.send i).value = none ∧ starts = [(i, v)] ∨ (c.send i).value = some v ∧ starts = []) :
    Change capacity c { c.set i x with buffer := b } starts [(i, v)] [(i, v)] := by
  have hold := ((h.wf i).fresh ha).2.1
  have hnone' : ({ c.set i x with buffer := b } : Core κ α).senders = [] := hnone
  have hok := h.update (d := { c.set i x with buffer := b }) rfl rfl hx (by rw [hq, hold])
    (by simp [hq]) (fun hne => absurd hnone' hne)
  have hqs : QueueStep c.senders [(i, v)] [(i, v)] c.senders := by
    rw [hnone]
    exact .pass rfl
  refine change_of_update rfl hok hqs ?_ ?_ ?_ ?_ ?_ (fun _ => hxa) (fun _ => .inl hd) id
  · intro w
    rcases hs with ⟨h1, rfl⟩ | ⟨h1, rfl⟩ <;> simp [h1, hv, eq_comm]
  · rcases hs with ⟨h1, rfl⟩ | ⟨h1, rfl⟩ <;> simp [h1]
  · simp [hd]
  · simp [h.unarrived ha, hv]
  · simp [-arrived, ha, hxa, hv]

/-- A call joins the queue. -/
theorem change_enqueue (hold : (c.send i).value = some v) (hq : x.queued = true)
    (hfull : capacity ≤ c.buffer.length)
    (hopen : c.closed = false) :
    Change capacity c { c.set i x with senders := c.senders ++ [(i, v)] } [] [(i, v)] [] := by
  have hnq := ((h.wf i).fresh ha).2.1
  obtain ⟨hpc, hxok, -⟩ := hx.queued hq
  have hd : x.delivered = false := by simp [delivered, hpc, hxok]
  have hxa : x.arrived = true := by simp [hpc]
  have hni : i ∉ c.senders.map fst := by
    intro hi
    obtain ⟨⟨j, w⟩, hm, rfl⟩ := mem_map.mp hi
    rw [(h.mem.mp hm).1] at hnq
    cases hnq
  refine change_of_update rfl ⟨?_, fun {j w} => ?_, fun j => ?_, fun _ => ⟨hfull, hopen⟩⟩
    (.join (i, v)) (by simp [hv, hold]) (by simp) ?_ (by simp) ?_ (fun _ => hxa)
    (fun _ => .inr (.inl hq)) id
  · rw [map_append, nodup_append]
    refine ⟨h.nodup, by simp, ?_⟩
    rintro j hj k hk rfl
    obtain rfl : j = i := by simpa using hk
    exact hni hj
  · rw [send_set, mem_append, mem_singleton, Prod.mk.injEq, h.mem]
    split_ifs with hj
    · subst hj
      simp [hq, hv, hnq, eq_comm]
    · simp [hj]
  · rw [send_set]
    split
    · exact hx
    · exact h.wf j
  · simp [hd, h.unarrived ha]
  · simp [-arrived, ha, hxa, hv]

omit ha hx hv

/-- The oldest parked sender's value is taken. -/
theorem change_pop {ws : List (κ × α)} (hs : c.senders = (i, v) :: ws) {b : List α}
    (hb : ws ≠ [] → capacity ≤ b.length) :
    Change capacity c { c.popSender i ws with buffer := b } [] [] [(i, v)] := by
  obtain ⟨hq, hv⟩ := h.mem.mp (show (i, v) ∈ c.senders by simp [hs])
  obtain ⟨hpc, hxok, hxc⟩ := (h.wf i).queued hq
  have hnd := h.nodup
  rw [hs, map_cons, nodup_cons] at hnd
  have hx : ({ c.send i with ok := true, queued := false } : SendCall α).Wf :=
    ⟨(h.wf i).value, by simp [hpc], by simp, by simp [hpc, hxc]⟩
  refine change_of_update rfl ⟨hnd.2, fun {j w} => ?_, fun j => ?_, fun hne => ?_⟩
    (.serve (by rw [hs]; exact Sublist.refl _)) (by simp) (by simp) ?_ ?_ (by simp) id
    (fun _ => .inl (by simp [delivered, hpc])) id
  · change (j, w) ∈ ws ↔ ((c.set i _).send j).queued = true ∧ ((c.set i _).send j).value = some w
    rw [send_set]
    split
    · rename_i hj
      subst hj
      simp only [Bool.false_eq_true, false_and, iff_false]
      exact fun hm => hnd.1 (mem_map.mpr ⟨(j, w), hm, rfl⟩)
    · rename_i hj
      rw [← h.mem, hs, mem_cons, Prod.mk.injEq]
      simp [hj]
  · change ((c.set i _).send j).Wf
    rw [send_set]
    split
    · exact hx
    · exact h.wf j
  · exact ⟨hb hne, (h.full (by simp [hs])).2⟩
  · simp [delivered, hpc]
  · simp [delivered, hpc, hxok, hv]

/-- A queued call leaves the queue with its value. -/
theorem change_unlink (hi : (c.send i).queued = true) (hx : { x with queued := false }.Wf)
    (hv : x.value = (c.send i).value) (hd : x.delivered = false) (ha : x.arrived = true)
    (hgone : x.cancelled = true ∨ x.pc = .destroyed) :
    Change capacity c (unlinkLocked c i x) [] [] [] := by
  obtain ⟨hpc, hxok, -⟩ := (h.wf i).queued hi
  have hd' : ({ x with queued := false } : SendCall α).delivered = false := hd
  have hold : (c.send i).delivered = false := by simp [delivered, hpc, hxok]
  refine change_of_update rfl
    ⟨?_, fun {j w} => ?_, fun j => ?_, fun hne => ?_⟩
    (.serve filter_sublist) (by simp [hv]) (by simp) ?_ (by simp) (by simp) (fun _ => ha)
    (fun _ => .inr (.inr hgone)) id
  · exact h.nodup.sublist (filter_sublist.map fst)
  · change (j, w) ∈ c.senders.filter (·.1 ≠ i) ↔
      ((c.set i _).send j).queued = true ∧ ((c.set i _).send j).value = some w
    rw [send_set, mem_filter, h.mem]
    split_ifs with hj
    · simp [hj]
    · simp [hj]
  · change ((c.set i _).send j).Wf
    rw [send_set]
    split
    · exact hx
    · exact h.wf j
  · refine h.full fun hnil => hne ?_
    simp [unlinkLocked, hnil]
  · simp [hd', hold]

omit [DecidableEq κ] in
/-- The senders are as before. -/
theorem change_buffer (hsend : c'.send = c.send) (hs : c'.senders = c.senders)
    (hcl : c'.closed = c.closed) (hb : c.senders ≠ [] → capacity ≤ c'.buffer.length) :
    Change capacity c c' [] [] [] := by
  refine ⟨⟨hs ▸ h.nodup, ?_, ?_, ?_⟩, hs ▸ .serve (Sublist.refl _), ?_, by simp, ?_, by simp,
    by simp, ?_, ?_⟩
  · rw [hs, hsend]
    exact h.mem
  · rw [hsend]
    exact h.wf
  · rw [hs, hcl]
    exact fun hne => ⟨hb hne, (h.full hne).2⟩
  · simp [hsend]
  · simp [hsend]
  · simp [hsend]
  · simp [hsend, hcl]

/-- A value is put in front. -/
theorem change_front (v : α) : Change capacity c ((side capacity).pushFront v c) [] [] [] :=
  change_buffer h rfl rfl rfl fun hne => (h.full hne).1.trans (Nat.le_succ _)

theorem change_close : Change capacity c (close c) [] [] [] := by
  have hcases : ∀ j, (close c).send j = c.send j ∨ ((c.send j).queued = true ∧
      (close c).send j = { c.send j with queued := false, ok := false }) := by
    intro j
    simp only [close]
    split_ifs with hj
    · obtain ⟨⟨j, w⟩, hm, rfl⟩ := mem_map.mp hj
      exact .inr ⟨(h.mem.mp hm).1, rfl⟩
    · exact .inl rfl
  have hnq : ∀ j, ((close c).send j).queued = false := by
    intro j
    simp only [close]
    split_ifs with hm
    · rfl
    · by_contra hq
      simp only [Bool.not_eq_false] at hq
      cases hv : (c.send j).value with
      | none =>
        have := (h.wf j).value.mpr hv
        rw [((h.wf j).queued hq).1] at this
        cases this
      | some v => exact hm (mem_map.mpr ⟨(j, v), h.mem.mpr ⟨hq, hv⟩, rfl⟩)
  refine ⟨⟨nodup_nil, fun {j v} => ?_, fun j => ?_, by simp [close]⟩, .serve (by simp [close]),
    fun {j v} => ?_, by simp, fun {j} => ?_, by simp, by simp, fun {j} hj => ?_, fun _ => .inr rfl⟩
  · simp only [hnq j, Bool.false_eq_true, false_and, iff_false]
    simp [close]
  · rcases hcases j with hj | ⟨hq, hj⟩ <;> rw [hj]
    · exact h.wf j
    · obtain ⟨hpc, -, hc⟩ := (h.wf j).queued hq
      exact ⟨(h.wf j).value, by simp [hpc], by simp, by simp⟩
  · rcases hcases j with hj | ⟨hq, hj⟩ <;> simp [hj]
  · rcases hcases j with hj | ⟨hq, hj⟩
    · simp [hj]
    · obtain ⟨hpc, hok, -⟩ := (h.wf j).queued hq
      simp [hj, delivered, hpc, hok]
  · rcases hcases j with hj' | ⟨hq, hj'⟩ <;> rw [hj'] <;> exact hj

omit h

/-! ### The steps of the senders -/

/-- The call that the step starts. -/
def Send.starts : Send κ α → List (κ × α)
  | .send i value _ => [(i, value)]
  | _ => []

/-- **What a sender's step does**: to the senders, to the buffer, and to what a parked receiver
could take. -/
structure Dealt (capacity : ℕ) (w : Bool) (c : Core κ α) (starts : List (κ × α)) (d : Sent κ α) :
    Prop where
  change : ∃ delivers, d.accepts = delivers.map snd ∧
    Change capacity c d.stock starts d.reaches delivers
  closed : d.stock.closed = c.closed
  quiet : w = true → d.stock.buffer = [] ∧ d.stock.senders = []
  hand : match d.hand with
    | none => d.stock.buffer = c.buffer ++ d.accepts
    | some v => w = true ∧ d.accepts = [v]
  room : c.buffer.length ≤ capacity → d.stock.buffer.length ≤ capacity

section Steps

variable {w : Bool} {starts : List (κ × α)}
  (hw : w = true → c.buffer = [] ∧ c.senders = [] ∧ c.closed = false)

include hw

omit [DecidableEq κ] in
/-- Nothing goes in. -/
theorem dealt_outside {c' : Core κ α} (hc : Change capacity c c' starts [] [])
    (hb : c'.buffer = c.buffer) (hcl : c'.closed = c.closed) :
    Dealt capacity w c starts { stock := c' } := by
  refine ⟨⟨[], rfl, hc⟩, hcl, fun hwt => ?_, by simp [hb], by simp [hb]⟩
  obtain ⟨hbuf, hs, -⟩ := hw hwt
  have hq := hc.queue
  rw [hs] at hq
  cases hq with
  | serve hsub => exact ⟨hb.trans hbuf, sublist_nil.mp hsub⟩

variable {i : κ} {v : α}

include h

/-- The value is handed to the oldest parked receiver. -/
theorem dealt_hand (hwt : w = true) (ha : (c.send i).arrived = false) {x : SendCall α} (hx : x.Wf)
    (hv : x.value = some v) (hq : x.queued = false) (hd : x.delivered = true)
    (hxa : x.arrived = true)
    (hs : (c.send i).value = none ∧ starts = [(i, v)] ∨ (c.send i).value = some v ∧ starts = []) :
    Dealt capacity w c starts
      { stock := c.set i x, hand := some v, accepts := [v], reaches := [(i, v)] } := by
  obtain ⟨hbuf, hnone, -⟩ := hw hwt
  exact ⟨⟨[(i, v)], rfl, change_deliver h ha hx hv hq hd hxa hnone hs⟩, rfl,
    fun _ => ⟨hbuf, hnone⟩, ⟨hwt, rfl⟩, id⟩

omit hw in
/-- The value goes to the end of the buffer. -/
theorem dealt_buffer (hwf : w = false) (hroom : c.buffer.length < capacity)
    (ha : (c.send i).arrived = false) {x : SendCall α} (hx : x.Wf) (hv : x.value = some v)
    (hq : x.queued = false) (hd : x.delivered = true) (hxa : x.arrived = true)
    (hs : (c.send i).value = none ∧ starts = [(i, v)] ∨ (c.send i).value = some v ∧ starts = []) :
    Dealt capacity w c starts
      { stock := { c.set i x with buffer := c.buffer ++ [v] }
        accepts := [v], reaches := [(i, v)] } := by
  have hnone : c.senders = [] := by
    by_contra hne
    have := (h.full hne).1
    omega
  refine ⟨⟨[(i, v)], rfl, change_deliver h ha hx hv hq hd hxa hnone hs⟩, rfl, by simp [hwf], rfl,
    fun _ => ?_⟩
  simp only [length_append, length_singleton]
  omega

/-- One round of the loop. -/
theorem dealt_awaitSuspend (hpc : (c.send i).pc = .looked ∨ (c.send i).pc = .arming)
    (hv : (c.send i).value = some v) (core : Option Bool) (armed : Bool) :
    Dealt capacity w c [] (awaitSuspend capacity w c i v core armed) := by
  have ha : (c.send i).arrived = false := by rcases hpc with h | h <;> simp [h]
  obtain ⟨hok, hq, hc⟩ := (h.wf i).fresh ha
  have hd := h.unarrived ha
  have harr : (c.send i).arrived = true → False := by rw [ha]; nofun
  have hnd : (c.send i).pc ≠ .destroyed := by rcases hpc with h | h <;> simp [h]
  dsimp only [awaitSuspend]
  -- one case for each test of the loop body, in its order
  split
  · refine dealt_outside hw (change_set h ⟨by simp [hv], by simp, by simp [hq],
      fun _ => hok⟩ rfl rfl ?_ (fun h => (harr h).elim) ?_ hnd) rfl rfl
    · rw [hd]
      exact hok
    · simp [hc]
  split
  · refine dealt_outside hw (change_set h ⟨by simp [hv], by simp, by simp [hq],
      by simp⟩ rfl rfl ?_ (fun h => (harr h).elim) id hnd) rfl rfl
    rw [hd]
    rfl
  rename_i hopen
  split
  · exact dealt_hand h hw ‹_› ha ⟨by simp [hv], by simp, by simp [hq],
      by simp [hc]⟩ hv hq rfl rfl (.inr ⟨hv, rfl⟩)
  rename_i hwf
  split
  · exact dealt_buffer h (by simpa using hwf) ‹_› ha ⟨by simp [hv], by simp,
      by simp [hq], by simp [hc]⟩ hv hq rfl rfl (.inr ⟨hv, rfl⟩)
  split
  · exact ⟨⟨[], rfl, change_enqueue h ha ⟨by simp [hv], by simp,
      by simp [hok, hc], by simp [hc]⟩ hv hv rfl (by omega) (by simpa using hopen)⟩, rfl,
      fun hwt => absurd hwt hwf, (append_nil _).symm, id⟩
  split
  · refine dealt_outside hw (change_set h ⟨by simp [hv], by simp, by simp [hq],
      fun _ => hok⟩ rfl rfl ?_ (fun h => (harr h).elim) ?_ hnd) rfl rfl
    · rw [hd]
      exact hok
    · simp [hc]
  · refine dealt_outside hw (change_set h ⟨by simp [hv], by simp [hok, hq, hc], by simp [hq],
      fun _ => hok⟩ rfl rfl ?_ (fun h => (harr h).elim) ?_ hnd) rfl rfl
    · rw [hd]
      exact hok
    · simp [hc]

/-- The fast path. -/
theorem dealt_send (hpc : (c.send i).pc = .idle) (v : α) (timed : Bool) :
    Dealt capacity w c [(i, v)] (send capacity w c i v timed) := by
  have ha : (c.send i).arrived = false := by simp [hpc]
  have hv := (h.wf i).value.mp hpc
  obtain ⟨hok, hq, hc⟩ := (h.wf i).fresh ha
  dsimp only [send]
  split
  · exact dealt_outside hw (change_start h hpc ⟨by simp, by simp, by simp [hq],
      fun _ => hok⟩ rfl hq rfl) rfl rfl
  split
  · exact dealt_hand h hw ‹_› ha ⟨by simp, by simp, by simp [hq],
      fun _ => hok⟩ rfl hq rfl rfl (.inl ⟨hv, rfl⟩)
  rename_i hwf
  split
  · exact dealt_buffer h (by simpa using hwf) ‹_› ha ⟨by simp, by simp,
      by simp [hq], fun _ => hok⟩ rfl hq rfl rfl (.inl ⟨hv, rfl⟩)
  · exact dealt_outside hw (change_start h hpc ⟨by simp, by simp [hok, hq, hc], by simp [hq],
      fun _ => hok⟩ rfl hq hok) rfl rfl

/-- **Every step of a sender.** -/
theorem act_dealt {e : Send κ α} {d : Sent κ α} (ha : act capacity w c e = some d) :
    Dealt capacity w c e.starts d := by
  have hval : ∀ {i}, (c.send i).pc ≠ .idle → (c.send i).value ≠ none := fun {i} hpc hn =>
    hpc ((h.wf i).value.mpr hn)
  cases e with (simp only [act] at ha; split at ha <;> try cases ha)
  | send i value timed =>
    next hpc =>
    exact dealt_send h hw hpc value timed
  | suspend i core =>
    next hpc hv =>
    exact dealt_awaitSuspend h hw (.inl hpc) hv core false
  | retry =>
    next hpc hv =>
    exact dealt_awaitSuspend h hw (.inr hpc) hv (some false) true
  | cancel i =>
    dsimp only [cancelThunk]
    split_ifs with hq
    · obtain ⟨hpc, hok, -⟩ := (h.wf i).queued hq
      exact dealt_outside hw (change_unlink h hq ⟨(h.wf i).value,
        by simp [hpc], by simp, fun _ => hok⟩ rfl
        (by simp [delivered, hpc, hok]) (by simp [hpc]) (.inl rfl))
        rfl rfl
    · have hwf := h.wf i
      exact dealt_outside hw (change_set h ⟨hwf.value, hwf.fresh, hwf.queued, hwf.failed⟩ rfl
        rfl rfl id id (by grind)) rfl rfl
  | wake i =>
    next hpc =>
    obtain ⟨hpc, hq⟩ := hpc
    refine dealt_outside hw (change_set h ⟨by simp [hval, hpc], by simp,
      by simp [hq], ?_⟩ rfl rfl (by simp [delivered, hpc]) (fun _ => rfl) id
      (by simp [hpc])) rfl rfl
    rintro (hc | ⟨e, he⟩)
    · exact (h.wf i).failed (.inl hc)
    · cases he
  | resume i =>
    next hpc =>
    have hq : (c.send i).queued = false := by
      by_contra hq
      simp [((h.wf i).queued (by simpa using hq)).1] at hpc
    dsimp only [awaitResume]
    split
    · rename_i hc
      exact dealt_outside hw (change_set h ⟨by simp [hval, hpc], by simp,
        by simp [hq], fun _ => (h.wf i).failed (.inl hc)⟩ rfl rfl
        (by simp [delivered, hpc]) (fun _ => rfl) id (by simp [hpc])) rfl rfl
    · rename_i hc
      exact dealt_outside hw (change_set h ⟨by simp [hval, hpc], by simp,
        by simp [hq], by simp [hc]⟩ rfl rfl (by simp [delivered, hpc]) (fun _ => rfl) id
        (by simp [hpc])) rfl rfl
  | fail i =>
    next hpc =>
    have harr : (c.send i).arrived = false := by rcases hpc with h | h <;> simp [h]
    obtain ⟨hok, hq, -⟩ := (h.wf i).fresh harr
    have hne : (c.send i).pc ≠ .idle := by rcases hpc with h | h <;> simp [h]
    exact dealt_outside hw (change_set h ⟨by simp [hval, hne], by simp,
      by simp [hq], fun _ => hok⟩ rfl rfl (by rw [h.unarrived harr]; exact hok) (fun _ => rfl) id
      (by grind)) rfl rfl
  | destroy i =>
    next hpc =>
    dsimp only [abandon]
    split_ifs with hq
    · obtain ⟨-, hok, -⟩ := (h.wf i).queued hq
      exact dealt_outside hw (change_unlink h hq ⟨by simp [hval, hpc],
        by simp, by simp, fun _ => hok⟩ rfl hok rfl (.inr rfl)) rfl rfl
    · refine dealt_outside hw (change_set h ⟨by simp [hval, hpc], by simp,
        by simp [hq], ?_⟩ rfl rfl (by simp [delivered, hpc]) (fun _ => rfl) id
        (by simp [hpc])) rfl rfl
      rintro (hc | ⟨e, he⟩)
      · exact (h.wf i).failed (.inl hc)
      · cases he

end Steps

/-! ### The fields as a whole -/

theorem take_eq_none {capacity : ℕ} {c : Core κ α} :
    take capacity c = none ↔ c.buffer = [] ∧ c.senders = [] := by
  unfold take
  split
  · rename_i hb hs
    split <;> simp [hb]
  · rename_i hb hs
    simp [hb]
  · rename_i hb hs
    simp [hs]
  · rename_i hb hs
    simp [hb, hs]

/-- What a receiver's taking does to the senders and to the buffer. -/
theorem take_change (h : Ok capacity c) {acc : List α} (ht : take capacity c = some (v, c', acc)) :
    (∃ delivers, acc = delivers.map snd ∧ Change capacity c c' [] [] delivers) ∧
      c.buffer ++ acc = v :: c'.buffer ∧ c'.closed = c.closed ∧
      (c.buffer.length ≤ capacity → c'.buffer.length ≤ capacity) := by
  unfold take at ht
  split at ht
  · rename_i x rest i y ws hb hs
    split at ht
    · rename_i hroom
      obtain ⟨rfl, rfl, rfl⟩ : x = v ∧ _ = c' ∧ [y] = acc := by simpa using ht
      have hfull := (h.full (by simp [hs])).1
      simp only [hb, length_cons] at hfull
      refine ⟨⟨[(i, y)], rfl, change_pop h hs fun _ => ?_⟩, by simp [hb], rfl, fun _ => ?_⟩
      · simpa using hfull
      · rw [length_append]
        exact hroom
    · rename_i hfull
      obtain ⟨rfl, rfl, rfl⟩ : x = v ∧ _ = c' ∧ [] = acc := by simpa using ht
      refine ⟨⟨[], rfl, change_buffer h rfl rfl rfl fun _ => by simpa using hfull⟩, by simp [hb],
        rfl, fun hle => ?_⟩
      simp only [hb, length_cons] at hle ⊢
      omega
  · rename_i x rest hb hs
    obtain ⟨rfl, rfl, rfl⟩ : x = v ∧ _ = c' ∧ [] = acc := by simpa using ht
    refine ⟨⟨[], rfl, change_buffer h rfl rfl rfl fun hne => absurd hs hne⟩, by simp [hb],
      rfl, fun hle => ?_⟩
    simp only [hb, length_cons] at hle ⊢
    omega
  · rename_i i y ws hb hs
    obtain ⟨rfl, rfl, rfl⟩ : y = v ∧ _ = c' ∧ [y] = acc := by simpa using ht
    have hfull := (h.full (by simp [hs])).1
    exact ⟨⟨[(i, y)], rfl, change_pop h hs fun _ => hfull⟩,
      by simp [hb, Core.popSender, Core.set], rfl, id⟩
  · cases ht

theorem lawful (capacity : ℕ) : Lawful (side capacity) (Ok (κ := κ) (α := α) capacity) where
  take_none _ h := (take_eq_none.mp h).1
  take_some := by
    intro c v c' acc h ht
    obtain ⟨⟨_, -, hc⟩, hb, hcl, -⟩ := take_change h ht
    exact ⟨hc.ok, hb, hcl⟩
  pushFront v h := ⟨(change_front h v).ok, rfl, rfl⟩
  close := by
    intro c h _
    refine ⟨(change_close h).ok, rfl, rfl, fun ht => ?_⟩
    exact take_eq_none.mpr ⟨(take_eq_none.mp ht).1, rfl⟩
  act := by
    intro w c e d h hw ha
    obtain ⟨d', ha', rfl⟩ := Option.map_eq_some_iff.mp ha
    have hd := act_dealt h (fun hwt => by
      obtain ⟨ht, hcl⟩ := hw hwt
      obtain ⟨hb, hs⟩ := take_eq_none.mp ht
      exact ⟨hb, hs, hcl⟩) ha'
    obtain ⟨_, -, hc⟩ := hd.change
    exact ⟨hc.ok, hd.closed, fun hwt => take_eq_none.mpr (hd.quiet hwt), hd.hand⟩

end Manwe.BoundedChannel
