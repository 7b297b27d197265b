import Manwe.Soccer.Http2.Client

/-!
# Who waits for a stream
-/

namespace Manwe.Http2.Client

open Function List Option Table State Http2Stream Phase

/-- The stream that a request has to its name. -/
@[simp] def Phase.stream : Phase → Option ℕ
  | .flushing id => some id
  | .awaiting id => some id
  | .suspending id => some id
  | .parked id => some id
  | .resumed id => some id
  | _ => none

variable {ι : Type}

/-- What holds between the streams, the requests and the handles under way. -/
@[grind cases]
structure Inv (s : State ι) : Prop where
  fresh : ∀ id st, s.streams.find id = some st → id < s.nextId
  named : ∀ i id, (s.ops i).stream = some id → s.streams.find id ≠ none
  kept : ∀ i id st, (s.ops i).stream = some id → s.streams.find id = some st → st.consumed = false
  own : ∀ i j id, (s.ops i).stream = some id → (s.ops j).stream = some id → i = j
  waiter : ∀ id st i, s.streams.find id = some st → st.waiter = some i →
    s.ops i = .parked id ∧ st.done = false
  parked : ∀ i id st, s.ops i = .parked id → s.streams.find id = some st →
    st.waiter = some i ∨ i ∈ s.resuming
  resuming : ∀ i ∈ s.resuming, ∃ id, s.ops i = .parked id
  woken : ∀ i id st, i ∈ s.resuming → s.ops i = .parked id → s.streams.find id = some st →
    st.done = true
  nodup : s.resuming.Nodup
  resumed : ∀ i id st, s.ops i = .resumed id → s.streams.find id = some st → st.done = true
  swept : s.closed = true → (∃ i, s.ops i = .sweeping) ∨
    ∀ id st, s.streams.find id = some st → st.done = true

theorem Inv.init : Inv ({} : State ι) := by
  constructor <;> simp

variable {s : State ι}

variable (h : Inv s)

include h

theorem Inv.find_nextId : s.streams.find s.nextId = none := by
  by_contra hne
  obtain ⟨st, hst⟩ := ne_none_iff_exists'.1 hne
  exact absurd (h.fresh _ st hst) (lt_irrefl _)

/-- The three things about a stream that matter to who waits for it stay as they are. -/
def Alike (st st' : Http2Stream ι) : Prop :=
  st'.done = st.done ∧ st'.waiter = st.waiter ∧ st'.consumed = st.consumed

variable {id : ℕ} {l : List ι}

theorem Inv.fill {f : Http2Stream ι → Http2Stream ι} (hf : ∀ st, Alike st (f st)) :
    Inv (s.adjust id f) := by
  simp only [Alike] at hf
  constructor <;> simp only [State.adjust, find_adjust] <;> grind [map_eq_some_iff, map_eq_none_iff]

/-- The streams for which `f` is not the identity are done, and their waiters are on their way. -/
theorem Inv.wake {f : ℕ → Http2Stream ι → Http2Stream ι}
    (hc : ∀ id st, (f id st).consumed = st.consumed)
    (hf : ∀ id st, s.streams.find id = some st → Alike st (f id st) ∨
      ((f id st).done = true ∧ (f id st).waiter = none ∧ ∀ j, st.waiter = some j → j ∈ l))
    (hl : ∀ j ∈ l, ∃ id st, s.streams.find id = some st ∧ st.waiter = some j ∧
      (f id st).done = true)
    (hnd : l.Nodup) : Inv { s with streams := s.streams.map f, resuming := s.resuming ++ l } := by
  simp only [Alike] at hf
  constructor <;> simp only [find_map, mem_append, nodup_append] <;>
    grind [map_eq_some_iff, map_eq_none_iff]

/-- A stream that nobody has to its name may go. -/
theorem Inv.erase (hno : ∀ j, (s.ops j).stream ≠ some id) :
    Inv { s with streams := s.streams.erase id } := by
  constructor <;> simp only [find_erase] <;> grind [stream]

/-- A stream that nobody has to its name may be given away. -/
theorem Inv.consume (hno : ∀ j, (s.ops j).stream ≠ some id) :
    Inv (s.adjust id fun st => { st with consumed := true, response := {} }) := by
  constructor <;> simp only [State.adjust, find_adjust] <;>
    grind [stream, map_eq_some_iff, map_eq_none_iff]

theorem Inv.onStreamClose (id code : ℕ) : Inv (s.onStreamClose id code) := by
  rw [State.onStreamClose]
  split
  · exact h
  · next st hst =>
    split
    · next hcon =>
      -- the awaiter has left, so nobody has the stream to its name
      have hno : ∀ j, (s.ops j).stream ≠ some id := by
        intro j hj
        rw [h.kept j id st hj hst] at hcon
        cases hcon
      have hw : st.waiter = none := by
        by_contra hne
        obtain ⟨j, hj⟩ := ne_none_iff_exists'.1 hne
        exact hno j (by simp [(h.waiter id st j hst hj).1])
      rw [hw, toList_none, append_nil]
      exact h.erase hno
    · refine h.wake (fun k st' => ?_) (fun k st' hk => ?_) (fun j hj => ?_) ?_
      · split <;> rfl
      · split
        · next hid =>
          subst hid
          cases hst.symm.trans hk
          exact .inr ⟨rfl, rfl, fun j hj => by rw [hj]; exact mem_singleton_self j⟩
        · exact .inl ⟨rfl, rfl, rfl⟩
      · rw [mem_toList] at hj
        exact ⟨id, st, hst, hj, by rw [if_pos rfl]; rfl⟩
      · cases st.waiter <;> simp

/-! ### Giving streams up -/

omit h

variable {st : Http2Stream ι}

theorem mem_woken {j : ι} : j ∈ st.woken ↔ st.done = false ∧ st.waiter = some j := by
  rw [woken]
  cases st.done <;> simp

theorem nodup_woken (st : Http2Stream ι) : st.woken.Nodup := by
  rw [woken]
  split
  · exact nodup_nil
  · cases st.waiter <;> simp

/-- The stream is given up, if it is not done. -/
structure GivesUp (st st' : Http2Stream ι) : Prop where
  same : st.done = true → st' = st
  done : st'.done = true
  waiter : st.done = false → st'.waiter = none
  consumed : st'.consumed = st.consumed

variable {st' : Http2Stream ι}

theorem GivesUp.alike_or (h : GivesUp st st') (hl : ∀ j ∈ st.woken, j ∈ l) :
    Alike st st' ∨ (st'.done = true ∧ st'.waiter = none ∧ ∀ j, st.waiter = some j → j ∈ l) := by
  cases hd : st.done with
  | true =>
    rw [h.same hd]
    exact .inl ⟨rfl, rfl, rfl⟩
  | false => exact .inr ⟨h.done, h.waiter hd, fun j hj => hl j (mem_woken.2 ⟨hd, hj⟩)⟩

theorem GivesUp.ite (hd : st'.done = true) (hw : st'.waiter = none)
    (hc : st'.consumed = st.consumed) : GivesUp st (if st.done then st else st') := by
  split
  · next h => exact ⟨fun _ => rfl, h, fun hf => by simp [h] at hf, rfl⟩
  · next h => exact ⟨(absurd · h), hd, fun _ => hw, hc⟩

theorem givesUp_fail (st : Http2Stream ι) (timedOut : Bool) : GivesUp st (st.fail timedOut) :=
  .ite rfl rfl rfl

theorem givesUp_lose (st : Http2Stream ι) : GivesUp st st.lose := .ite rfl rfl rfl

theorem Inv.failStream (h : Inv s) (id : ℕ) (timedOut : Bool) : Inv (s.failStream id timedOut) := by
  rw [State.failStream]
  split
  · exact h
  · next st hst =>
    refine Inv.wake (f := fun k st => if k = id then st.fail timedOut else st) h (fun k st' => ?_)
      (fun k st' hk => ?_) (fun j hj => ?_) (nodup_woken st)
    · split
      · exact (givesUp_fail st' timedOut).consumed
      · rfl
    · split
      · next hid =>
        subst hid
        cases hst.symm.trans hk
        exact (givesUp_fail st timedOut).alike_or fun _ hj => hj
      · exact .inl ⟨rfl, rfl, rfl⟩
    · refine ⟨id, st, hst, (mem_woken.1 hj).2, ?_⟩
      rw [if_pos rfl]
      exact (givesUp_fail st timedOut).done

/-- Two streams do not wake the same request. -/
theorem Inv.nodup_flatMap_woken (h : Inv s) :
    (s.streams.entries.flatMap fun p => p.2.woken).Nodup := by
  rw [nodup_flatMap]
  refine ⟨fun p _ => nodup_woken p.2, (pairwise_map.1 s.streams.nodup).imp_of_mem ?_⟩
  intro p q hp hq hne j hj hj'
  have h₁ := h.waiter p.1 p.2 j (find_eq_some.2 hp) (mem_woken.1 hj).2
  have h₂ := h.waiter q.1 q.2 j (find_eq_some.2 hq) (mem_woken.1 hj').2
  exact hne (parked.inj (h₁.1.symm.trans h₂.1))

theorem Inv.failOutstandingStreams (h : Inv s) : Inv s.failOutstandingStreams := by
  refine h.wake (fun k st => (givesUp_lose st).consumed) (fun k st hk => ?_) (fun j hj => ?_)
    h.nodup_flatMap_woken
  · refine (givesUp_lose st).alike_or fun j hj => ?_
    exact mem_flatMap.2 ⟨(k, st), find_eq_some.1 hk, hj⟩
  · obtain ⟨p, hp, hj⟩ := mem_flatMap.1 hj
    exact ⟨p.1, p.2, find_eq_some.2 hp, (mem_woken.1 hj).2, (givesUp_lose p.2).done⟩

/-! ### Callbacks -/

theorem alike_onHeader (st : Http2Stream ι) (name value : Bytes) :
    Alike st (st.onHeader name value) := by
  simp only [onHeader, storeHeader, rejectHeaders, addStatus, addField]
  split_ifs <;> exact ⟨rfl, rfl, rfl⟩

theorem alike_onDataChunk (st : Http2Stream ι) (data : Bytes) : Alike st (st.onDataChunk data) := by
  simp only [onDataChunk]
  split_ifs <;> exact ⟨rfl, rfl, rfl⟩

theorem alike_onFrameRecv (st : Http2Stream ι) (endStream : Bool) :
    Alike st (st.onFrameRecv endStream) := by
  simp only [onFrameRecv]
  split_ifs <;> exact ⟨rfl, rfl, rfl⟩

theorem Inv.onCallback (h : Inv s) (id : ℕ) (c : Callback) : Inv (s.onCallback id c) := by
  cases c with
  | beginHeaders => exact h.fill fun st => ⟨rfl, rfl, rfl⟩
  | header name value => exact h.fill fun st => alike_onHeader st name value
  | data chunk => exact h.fill fun st => alike_onDataChunk st chunk
  | frame endStream => exact h.fill fun st => alike_onFrameRecv st endStream
  | close code => exact h.onStreamClose id code

/-! ### Steps -/

variable [DecidableEq ι] {i : ι} {p q : Phase}

/-- A step of one operation that touches no stream. -/
theorem Inv.move (h : Inv s) {c : Bool} (hi : s.ops i = q) (hc : c = s.closed ∨ p = .sweeping)
    (hre : ∀ id, p = .resumed id → s.unfinished id = false := by simp)
    (hst : ∀ id, p.stream = some id → q.stream = some id := by simp)
    (hpk' : ∀ id, p ≠ .parked id := by simp) (hpk : ∀ id, q ≠ .parked id := by simp)
    (hsw : q = .sweeping → ∀ id st, s.streams.find id = some st → st.done = true := by simp) :
    Inv { s.put i p with closed := c } := by
  subst hi
  simp only [unfinished] at hre
  constructor <;> simp only [put, update_apply] <;> grind [stream]

theorem Inv.register (h : Inv s) (hi : s.ops i = .checked) : Inv (s.register i) := by
  have hnew := h.find_nextId
  rw [State.register]
  split <;> constructor <;> simp only [put, update_apply, find_emplace hnew] <;>
    grind [stream]

theorem Inv.park (h : Inv s) {id : ℕ} (hi : s.ops i = .suspending id)
    (hu : s.unfinished id = true) :
    Inv ((s.put i (.parked id)).adjust id fun st => { st with waiter := some i }) := by
  simp only [unfinished] at hu
  constructor <;> simp only [State.put, State.adjust, update_apply, find_adjust] <;>
    grind [stream, map_eq_some_iff, map_eq_none_iff]

theorem Inv.resume (h : Inv s) {id : ℕ} (hi : s.ops i = .parked id) (hm : i ∈ s.resuming) :
    Inv { s.put i (.resumed id) with resuming := s.resuming.erase i } := by
  constructor <;> simp only [put, update_apply] <;>
    grind [stream, Nodup.erase]

/-- The frame of a parked request is destroyed. -/
def Event.destroys : Event ι → Bool
  | .destroy _ => true
  | _ => false

theorem Inv.step (h : Inv s) {e : Event ι} {t : State ι} (he : e.destroys = false)
    (hs : Client.step s e = some t) : Inv t := by
  cases e with (simp only [Client.step] at hs; split at hs <;> try cases hs)
  | request | deadline =>
    next hi =>
    exact h.move hi (.inl rfl) (by split <;> simp) (by split <;> simp) (by split <;> simp)
  | submitFails | shut => next hi => exact h.move hi (by simp)
  | register => next hi => exact h.register hi
  | flushed => next id hi => exact h.move hi (.inl rfl)
  | flushFails => next id hi => exact h.move hi (.inr rfl)
  | ready =>
    next id hi =>
    cases hu : s.unfinished id with
    | true => exact h.move hi (.inl rfl)
    | false =>
      refine h.move hi (.inl rfl) ?_
      rintro _ ⟨⟩
      exact hu
  | suspend =>
    next id hi =>
    split at hs <;> cases hs
    · next hu => exact h.park hi hu
    · next hu =>
      refine h.move hi (.inl rfl) ?_
      rintro _ ⟨⟩
      simpa using hu
  | resume i =>
    next hm =>
    obtain ⟨id, hi⟩ := h.resuming i hm
    simp only [hi] at hs
    cases hs
    exact h.resume hi hm
  | take i =>
    next id hi =>
    have hmove : Inv (s.put i .ended) := h.move hi (.inl rfl)
    have hno : ∀ j, ((s.put i .ended).ops j).stream ≠ some id := by
      intro j hj
      obtain rfl | hne := eq_or_ne j i
      · simp [put] at hj
      · simp only [put, update_of_ne hne] at hj
        exact hne (h.own j i id hj (by simp [hi]))
    split at hs <;> cases hs
    · exact hmove
    · rw [State.take]
      split
      · exact hmove.erase hno
      · exact hmove.consume hno
  | callback id c => exact h.onCallback id c
  | failStream i =>
    next id hi =>
    have hmove : Inv (s.put i .ended) := h.move hi (.inl rfl)
    exact hmove.failStream id true
  | close =>
    next hi =>
    refine h.move hi ?_ (by split <;> simp) (by split <;> simp) (by split <;> simp)
    split
    · next hc => exact .inl hc.symm
    · exact .inr rfl
  | sweep =>
    next hi =>
    -- the sweep first, and then the party is done
    have hswept := h.failOutstandingStreams
    refine hswept.move hi (.inl rfl) (by simp) (by simp) (by simp) (by simp) fun _ id st hst => ?_
    rw [State.failOutstandingStreams, find_map, map_eq_some_iff] at hst
    obtain ⟨st', -, rfl⟩ := hst
    exact (givesUp_lose st').done
  | destroy => cases he

theorem inv_run {tr : List (State ι × Event ι)} (h : Run Client.step {} tr s)
    (hd : ∀ p ∈ tr, p.2.destroys = false) : Inv s :=
  h.invariant (fun _ e => e.destroys = false) hd .init fun h => h.step

end Manwe.Http2.Client
