import Manwe.Transition.Tally
import Manwe.Wire.Signal

/-!
# An emission sees a frozen list

The list an emission goes through is not edited as long as the emission has it, because the writers
edit in place only when `active` is zero, and `active` counts the emissions that have a list. So
what an emission has called is at any time the first part of its snapshot, and in the end all of it.
-/

namespace Manwe.Signal

open Function List State EmitPc Cow Option

variable {η α χ : Type*}

/-! ### What an emission does -/

/-- The snapshot of emission `k`, with its arguments. -/
def snapsAt (k : ℕ) (s : State η α χ) : Event η α χ → List (Mode × α × List (ℕ × η))
  | .emit i m args => if i = k then [(m, args, s.connected)] else []
  | _ => []

/-- The call of a handler with arguments. -/
def callOf (args : α) (p : ℕ × η) : ℕ × η × α := (p.1, p.2, args)

/-- Emission `k` calls a handler, or gives it to the pool. -/
def callsAt (k : ℕ) (s : State η α χ) : Event η α χ → List (ℕ × η × α)
  | .invoke i _ =>
    if i = k then
      match s.emits i with
      | .calling _ args a n _ => (s.handlers.cells a)[n]?.toList.map (callOf args)
      | _ => []
    else []
  | _ => []

/-- A handler called by `emit` throws. -/
def throwsAt (k : ℕ) (s : State η α χ) : Event η α χ → List χ
  | .returned i thrown =>
    if i = k then
      match s.emits i with
      | .running .emit _ _ _ _ => thrown.toList
      | _ => []
    else []
  | _ => []

namespace EmitPc

/-- The snapshot the emission has. -/
def list : EmitPc α χ → Option ℕ
  | .waking _ _ list _ => list
  | .calling _ _ a _ _ | .running _ _ a _ _ => some a
  | .idle | .releasing _ | .finished _ => none

/-- The emission counts in `active`. -/
def counted : EmitPc α χ → Prop
  | .waking _ _ list _ => list ≠ none
  | .calling _ _ _ _ _ | .running _ _ _ _ _ | .releasing _ => True
  | .idle | .finished _ => False

variable {p : EmitPc α χ}

theorem counted_of_list {a : ℕ} (h : p.list = some a) : p.counted := by
  cases p with
  | waking => exact (h ▸ some_ne_none a :)
  | calling | running => trivial
  | idle | releasing | finished => cases h

/-- What the history says, depending on where the emission stands. -/
def Tells (cells : ℕ → List (ℕ × η)) (snaps : List (Mode × α × List (ℕ × η)))
    (calls : List (ℕ × η × α)) (throws : List χ) : EmitPc α χ → Prop
  | .idle => snaps = [] ∧ calls = [] ∧ throws = []
  | .waking m args list _ => snaps = [(m, args, list.elim [] cells)] ∧ calls = [] ∧ throws = []
  | .calling m args a i first => snaps = [(m, args, cells a)] ∧
      calls = ((cells a).take i).map (callOf args) ∧ first = throws.head?
  | .running m args a i first => snaps = [(m, args, cells a)] ∧
      calls = ((cells a).take (i + 1)).map (callOf args) ∧ first = throws.head?
  | .releasing first | .finished first => ∃ m args view, snaps = [(m, args, view)] ∧
      calls = view.map (callOf args) ∧ first = throws.head?

theorem Tells.congr {cells cells' : ℕ → List (ℕ × η)} {snaps : List (Mode × α × List (ℕ × η))}
    {calls : List (ℕ × η × α)} {throws : List χ} (h : p.Tells cells snaps calls throws)
    (hc : ∀ a, p.list = some a → cells' a = cells a) :
    p.Tells cells' snaps calls throws := by
  cases p with
  | waking m args list =>
    cases list with
    | none => exact h
    | some a => simpa [Tells, hc a rfl] using h
  | calling m args a | running m args a => simpa only [Tells, hc a rfl] using h
  | idle | releasing | finished => exact h

end EmitPc

/-! ### The list is frozen -/

/-- The cells that emissions have. -/
def State.held (s : State η α χ) : Set ℕ := {a | ∃ k, (s.emits k).list = some a}

structure Frozen (s : State η α χ) : Prop where
  ok : s.handlers.Ok s.held
  count : Tally (fun k => (s.emits k).counted) s.active

theorem Frozen.held_eq_empty {s : State η α χ} (h : Frozen s) (ha : (s.active == 0) = true) :
    s.held = ∅ := by
  refine Set.eq_empty_of_forall_notMem fun a hmem => ?_
  obtain ⟨k, hk⟩ := hmem
  have hcount := h.count
  rw [beq_iff_eq.mp ha] at hcount
  exact hcount.none_of_zero k (counted_of_list hk)

/-- The step leaves the handlers and the emissions alone. -/
structure Still (s t : State η α χ) : Prop where
  emits : t.emits = s.emits
  handlers : t.handlers = s.handlers
  active : t.active = s.active
  tasks : t.tasks = s.tasks

variable (s : State η α χ) (j : ℕ)

theorem still_park (core : Option Bool) (armed : Bool) : Still s (s.park j core armed) := by
  unfold park
  dsimp only
  repeat' split
  all_goals exact ⟨rfl, rfl, rfl, rfl⟩

theorem still_cancelThunk : Still s (s.cancelThunk j) := by
  unfold cancelThunk
  dsimp only
  split <;> exact ⟨rfl, rfl, rfl, rfl⟩

theorem still_destroyNext : Still s (s.destroyNext j) := by
  unfold destroyNext
  dsimp only
  split <;> exact ⟨rfl, rfl, rfl, rfl⟩

theorem still_hand (args : Option α) : Still s (s.hand j args) := by
  unfold hand
  split <;> exact ⟨rfl, rfl, rfl, rfl⟩

theorem State.held_update {s t : State η α χ} {k : ℕ} {p : EmitPc α χ}
    (ht : t.emits = update s.emits k p) {a : ℕ} (ha : a ∈ t.held) :
    p.list = some a ∨ a ∈ s.held := by
  obtain ⟨i, hi⟩ := ha
  rw [ht] at hi
  obtain rfl | hik := eq_or_ne i k
  · rw [update_self] at hi
    exact .inl hi
  · rw [update_of_ne hik] at hi
    exact .inr ⟨i, hi⟩

namespace Frozen

variable {s t : State η α χ} {e : Event η α χ}

theorem init : Frozen ({} : State η α χ) where
  ok := ⟨nofun, fun _ ⟨_, hk⟩ => nomatch hk⟩
  count := .zero fun _ => id

variable (h : Frozen s)

include h

/-- The list may be edited. -/
theorem edit (hok : t.handlers.Ok s.held) (he : t.emits = s.emits) (ha : t.active = s.active) :
    Frozen t := by
  refine ⟨?_, ?_⟩
  · rwa [show t.held = s.held by simp only [held, he]]
  · rw [ha, he]
    exact h.count

theorem still (hs : Still s t) : Frozen t := h.edit (hs.handlers ▸ h.ok) hs.emits hs.active

/-- An emission goes on with the list it has, or drops it. -/
theorem move {k : ℕ} {p q : EmitPc α χ} (hk : s.emits k = q) (ht : t.emits = update s.emits k p)
    (hh : t.handlers = s.handlers) (ha : t.active = s.active)
    (hlist : p.list = none ∨ p.list = q.list) (hcount : p.counted ↔ q.counted) : Frozen t := by
  refine ⟨hh ▸ h.ok.mono fun a hmem => ?_, ?_⟩
  · rcases held_update ht hmem with hp | hmem
    · refine ⟨k, ?_⟩
      rw [hk]
      rcases hlist with hl | hl
      · cases hl.symm.trans hp
      · exact hl ▸ hp
    · exact hmem
  · rw [ht, ha]
    exact h.count.update counted (hk ▸ hcount)

theorem snapshot {k : ℕ} (m : Mode) (args : α) (hk : s.emits k = .idle) :
    Frozen (s.snapshot k m args) := by
  have hidle : ¬ (s.emits k).counted := by
    rw [hk]
    exact id
  refine ⟨?_, ?_⟩
  · cases hc : s.handlers.cur with
    | none =>
      refine h.ok.mono fun a hmem => ?_
      rcases held_update rfl hmem with hp | hmem
      · cases hc.symm.trans hp
      · exact hmem
    | some =>
      refine h.ok.take hc fun a hmem => ?_
      rcases held_update rfl hmem with hp | hmem
      · exact .inl (some.inj (hp.symm.trans hc))
      · exact .inr hmem
  · simp only [State.snapshot]
    cases hc : s.handlers.cur with
    | none => exact h.count.update counted (iff_of_false (fun hn => hn rfl) hidle)
    | some b => exact h.count.update_enter counted hidle (some_ne_none b)

theorem connect (f : η) (ok : Bool) : Frozen (s.connect f ok) := by
  refine h.edit ?_ rfl rfl
  unfold State.connect
  split
  · exact h.ok.put _
  · exact h.ok

theorem disconnect (id : ℕ) (ok : Bool) : Frozen (s.disconnect id ok) := by
  unfold State.disconnect
  split
  · refine h.edit ?_ rfl rfl
    dsimp only
    split
    · exact h.ok.clear
    · exact h.ok.put _
  · exact h

theorem step (hc : Change s e t) : Frozen t := by
  cases hc with
  | connect => exact h.connect _ _
  | disconnect => exact h.disconnect _ _
  | emit hk => exact h.snapshot _ _ hk
  | @wake k m args list j waiters ok hk =>
    have hs := still_hand s j (if ok then some args else none)
    have hk' := (congrFun hs.emits k).trans hk
    exact (h.still hs).move hk' rfl rfl rfl (.inr rfl) Iff.rfl
  | enterNone hk => exact h.move hk rfl rfl rfl (.inl rfl) (by simp [counted])
  | enter hk => exact h.move hk rfl rfl rfl (.inr rfl) (by simp [counted])
  | invokeEnd hk => exact h.move hk rfl rfl rfl (.inl rfl) Iff.rfl
  | dispatch hk | call hk | returned hk | returnedAsync hk =>
    exact h.move hk rfl rfl rfl (.inr rfl) Iff.rfl
  | @release k first hk =>
    refine ⟨h.ok.mono fun a hmem => ?_, ?_⟩
    · rcases held_update rfl hmem with hp | hmem
      · cases hp
      · exact hmem
    · exact h.count.update_leave counted (by rw [hk]; trivial) id
  | next | retry => exact h.still (still_park ..)
  | cancel => exact h.still (still_cancelThunk ..)
  | destroy => exact h.still (still_destroyNext ..)
  | destroySignal => exact h.edit h.ok.clear rfl rfl
  | runTask | post | runKilled | run | resume | orphan => exact h.edit h.ok rfl rfl

/-- **No step changes a list that an emission has.** -/
theorem cells_step (hc : Change s e t) {a : ℕ} (ha : a ∈ s.held) :
    t.handlers.cells a = s.handlers.cells a := by
  cases hc with
  | connect =>
    unfold State.connect
    split
    · exact read_put h.ok ha h.held_eq_empty
    · rfl
  | disconnect =>
    unfold State.disconnect
    split
    · dsimp only
      split
      · rfl
      · exact read_put h.ok ha h.held_eq_empty
    · rfl
  | @wake k m args list j waiters ok =>
    have hs := still_hand s j (if ok then some args else none)
    exact congrFun (congrArg cells hs.handlers) a
  | next | retry => exact congrFun (congrArg cells (still_park ..).handlers) a
  | cancel => exact congrFun (congrArg cells (still_cancelThunk ..).handlers) a
  | destroy => exact congrFun (congrArg cells (still_destroyNext ..).handlers) a
  | _ => rfl

end Frozen

/-! ### The calls of an emission -/

/-- **The history of every emission.** -/
def Told (tr : List (State η α χ × Event η α χ)) (s : State η α χ) : Prop :=
  ∀ k, (s.emits k).Tells s.handlers.cells (logOf (snapsAt k) tr) (logOf (callsAt k) tr)
    (logOf (throwsAt k) tr)

/-- Steps that say nothing of emission `k`. -/
def Silent (s : State η α χ) (e : Event η α χ) (k : ℕ) : Prop :=
  snapsAt k s e = [] ∧ callsAt k s e = [] ∧ throwsAt k s e = []

namespace Told

variable {tr : List (State η α χ × Event η α χ)} {s t : State η α χ} {e : Event η α χ}

theorem init : Told [] ({} : State η α χ) := fun _ => ⟨rfl, rfl, rfl⟩

variable (h : Told tr s) (hf : Frozen s) (hc : Change s e t)

include h hf hc

/-- An emission that does nothing is told the same. -/
theorem keep {k : ℕ} (hk : t.emits k = s.emits k) (hs : Silent s e k) :
    (t.emits k).Tells t.handlers.cells (logOf (snapsAt k) (tr ++ [(s, e)]))
      (logOf (callsAt k) (tr ++ [(s, e)])) (logOf (throwsAt k) (tr ++ [(s, e)])) := by
  simp only [logOf_snoc, hs.1, hs.2.1, hs.2.2, append_nil, hk]
  exact (h k).congr fun a ha => hf.cells_step hc ⟨k, ha⟩

/-- The step of emission `i`, with what was told of it before. -/
theorem own {i : ℕ} {p q : EmitPc α χ} (hk : s.emits i = q) (ht : t.emits = update s.emits i p)
    (hs : ∀ k, i ≠ k → Silent s e k)
    (hp : q.Tells s.handlers.cells (logOf (snapsAt i) tr) (logOf (callsAt i) tr)
        (logOf (throwsAt i) tr) →
      p.Tells t.handlers.cells (logOf (snapsAt i) tr ++ snapsAt i s e)
        (logOf (callsAt i) tr ++ callsAt i s e) (logOf (throwsAt i) tr ++ throwsAt i s e)) :
    Told (tr ++ [(s, e)]) t := by
  intro k
  obtain rfl | hi := eq_or_ne i k
  · simp only [ht, update_self, logOf_snoc]
    exact hp (hk ▸ h i)
  · exact h.keep hf hc (by rw [ht, update_of_ne hi.symm]) (hs k hi)

theorem step : Told (tr ++ [(s, e)]) t := by
  have hown {i : ℕ} {p q : EmitPc α χ} := h.own hf hc (i := i) (p := p) (q := q)
  have hkeep (ht : t.emits = s.emits) (hs : ∀ k, Silent s e k) : Told (tr ++ [(s, e)]) t :=
    fun k => h.keep hf hc (congrFun ht k) (hs k)
  cases hc with
  | @emit i m args hk =>
    refine hown hk rfl (fun _ hi => ⟨if_neg hi, rfl, rfl⟩) fun hi => ?_
    rw [hi.1, hi.2.1, hi.2.2]
    exact ⟨if_pos rfl, rfl, rfl⟩
  | @wake i m args list j ws ok hk =>
    have hs := still_hand s j (if ok then some args else none)
    refine hown (p := .waking m args list ws) hk ?_ (fun _ _ => ⟨rfl, rfl, rfl⟩) fun hi => ?_
    · rw [putEmit, hs.emits]
    · simp only [snapsAt, callsAt, throwsAt, append_nil, putEmit, hs.handlers]
      exact hi
  | enterNone hk | enter hk | release hk =>
    refine hown hk rfl (fun _ _ => ⟨rfl, rfl, rfl⟩) fun hi => ?_
    simp only [snapsAt, callsAt, throwsAt, append_nil]
    first
    | exact hi
    | exact ⟨hi.1, hi.2.1, by simp [hi.2.2]⟩
    | exact ⟨_, _, [], hi.1, hi.2.1, by simp [hi.2.2]⟩
  | @invokeEnd i m args a n first refused hk hn =>
    refine hown hk rfl (fun _ hi => ⟨rfl, if_neg hi, rfl⟩) fun hi => ?_
    have hlen : (s.handlers.cells a).length ≤ n := getElem?_eq_none_iff.mp hn
    have hcalls := hi.2.1
    rw [take_of_length_le hlen] at hcalls
    simp only [snapsAt, callsAt, throwsAt, hk, hn, if_true, toList_none, map_nil, append_nil]
    exact ⟨_, _, _, hi.1, hcalls, hi.2.2⟩
  | @dispatch i args a n first id f hk | @call i m args a n first id f refused hk hn _ =>
    refine hown hk rfl (fun _ hi => ⟨rfl, if_neg hi, rfl⟩) fun hi => ?_
    simp only [snapsAt, callsAt, throwsAt, hk, if_true, append_nil]
    refine ⟨hi.1, ?_, hi.2.2⟩
    rw [hi.2.1, ← map_append, ← take_add_one]
    rfl
  | @returned i args a n first thrown hk =>
    refine hown hk rfl (fun _ hi => ⟨rfl, rfl, if_neg hi⟩) fun hi => ?_
    simp only [snapsAt, callsAt, throwsAt, hk, if_true, append_nil]
    refine ⟨hi.1, hi.2.1, ?_⟩
    rw [hi.2.2, head?_append]
    cases thrown <;> simp
  | returnedAsync hk =>
    refine hown hk rfl (fun _ hi => ⟨rfl, rfl, if_neg hi⟩) fun hi => ?_
    simp only [snapsAt, callsAt, throwsAt, hk, if_true, append_nil]
    exact hi
  | disconnect =>
    refine hkeep ?_ fun _ => ⟨rfl, rfl, rfl⟩
    unfold State.disconnect
    split <;> rfl
  | next _ | retry _ => exact hkeep (still_park ..).emits fun _ => ⟨rfl, rfl, rfl⟩
  | cancel _ => exact hkeep (still_cancelThunk ..).emits fun _ => ⟨rfl, rfl, rfl⟩
  | destroy _ _ => exact hkeep (still_destroyNext ..).emits fun _ => ⟨rfl, rfl, rfl⟩
  | _ => exact hkeep rfl fun _ => ⟨rfl, rfl, rfl⟩

end Told

/-! ### Connected handlers -/

/-- What the step does to the handlers that are connected, as a plain list. -/
def edit (s : State η α χ) (e : Event η α χ) (l : List (ℕ × η)) : List (ℕ × η) := match e with
  | .connect h ok => if ok then l ++ [(s.nextId, h)] else l
  | .disconnect id ok => if s.active == 0 || ok then l.eraseP fun p => p.1 == id else l
  | .destroySignal => []
  | _ => l

variable {e : Event η α χ}

theorem connected_step {s t : State η α χ} (hc : Change s e t) :
    t.connected = edit s e s.connected := by
  have hsame {t : State η α χ} (ht : t.handlers = s.handlers) : t.connected = s.connected := by
    rw [connected, ht]
    rfl
  cases hc with
  | @connect h ok =>
    cases ok with
    | true => exact value_put _
    | false => rfl
  | @disconnect id ok =>
    simp only [State.disconnect, edit]
    cases hok : (s.active == 0 || ok) with
    | false => simp only [Bool.and_false, Bool.false_eq_true, if_false]
    | true =>
      simp only [Bool.and_true, if_true]
      split
      · split_ifs with hrest
        · exact (isEmpty_iff.mp hrest).symm
        · exact value_put _
      · rename_i hany
        refine (eraseP_of_forall_not fun p hp hid => hany ?_).symm
        exact any_eq_true.mpr ⟨p, hp, hid⟩
  | wake => exact hsame (still_hand ..).handlers
  | next | retry => exact hsame (still_park ..).handlers
  | cancel => exact hsame (still_cancelThunk ..).handlers
  | destroy => exact hsame (still_destroyNext ..).handlers
  | _ => rfl

/-! ### Dispatched handlers -/

/-- A handler is given to the pool. -/
def dispatchesAt (s : State η α χ) : Event η α χ → List (HandlerTask η α)
  | .invoke k false =>
    match s.emits k with
    | .calling .emitAsync args a i _ =>
      (s.handlers.cells a)[i]?.toList.map fun p => ⟨k, p.1, p.2, args⟩
    | _ => []
  | _ => []

/-- The pool runs a handler. -/
def runsAt (s : State η α χ) : Event η α χ → List (HandlerTask η α)
  | .runTask i => s.tasks[i]?.toList
  | _ => []

theorem tasks_step {s t : State η α χ} (hc : Change s e t) :
    (s.tasks ++ dispatchesAt s e).Perm (t.tasks ++ runsAt s e) := by
  have hsame {l : List (HandlerTask η α)} (hl : l = s.tasks) : (s.tasks ++ []).Perm (l ++ []) := by
    rw [hl]
  cases hc with
  | @dispatch k args a i first id h hk hi =>
    simp only [dispatchesAt, hk, hi, runsAt, append_nil]
    exact .refl _
  | @runTask i hi =>
    simp only [dispatchesAt, runsAt, getElem?_eq_getElem hi, append_nil]
    exact (getElem_cons_eraseIdx_perm hi).symm.trans (perm_append_singleton _ _).symm
  | @invokeEnd k m args a i first refused hk hi
  | @call k m args a i first id h refused =>
    have hd : dispatchesAt s (.invoke k refused) = [] := by
      cases refused <;> cases m <;> simp_all [dispatchesAt]
    rw [hd]
    exact hsame rfl
  | disconnect =>
    refine hsame ?_
    unfold State.disconnect
    split <;> rfl
  | wake => exact hsame (still_hand ..).tasks
  | next | retry => exact hsame (still_park ..).tasks
  | cancel => exact hsame (still_cancelThunk ..).tasks
  | destroy => exact hsame (still_destroyNext ..).tasks
  | _ => exact hsame rfl

end Manwe.Signal
