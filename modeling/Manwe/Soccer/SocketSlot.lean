import Manwe.Transition.Tally
import Manwe.Transition.Ledger

/-!
# The socket slot

`Soccer::detail::SocketSlot` owns one descriptor that other threads may close while a coroutine
uses it. Every use is counted in `busy` before the descriptor is loaded; a closer takes the
descriptor out of the slot, files it in `deferred` and closes what is filed once `busy` is
zero, either itself (`retire`) or through the last use that ends (`end`, then `flush`).

Every atomic operation and every locked section is one step. An **activity** `k : ι` is one
use from `begin` to the end of its destructor, one `Watch::shutdownIf`, or one `close` (`take`
followed by `retire`); a thread that nests them is several activities. `reset` refills an empty
slot with a descriptor the kernel just opened, so the number is not that of an open one.

The count and the close are two steps, and `flush` does not look at `busy` again. Between the
decrement that found itself last and the locked section of `flush` that follows it, another use
can count itself in and load the descriptor, and a closer can file it: `flush` then closes it
under that use (`closesUnderUse`). What the slot does guarantee is `closes_unused_of_quiet`:
if every `flush` that finds something filed still finds `busy = 0`, no descriptor is closed
under a use that loaded it.
-/

namespace Manwe.SocketSlot

open Function

variable {ι : Type*}

/-- How many retired descriptors may be filed at once. -/
def kMaxDeferred : ℕ := 4

/-- Where an activity stands between its atomic operations. -/
inductive Op
  | idle
  /-- `begin` has counted itself in and has not loaded the descriptor yet -/
  | counted
  /-- a live `Use` whose `begin` loaded `fd` -/
  | using (fd : Int)
  /-- `shutdownIf fd` has counted itself in -/
  | watchCounted (fd : Int)
  /-- `shutdownIf` found `fd` in the slot and is about to shut it down -/
  | watchShut (fd : Int)
  /-- `shutdownIf` is about to call `end` -/
  | watchEnd
  /-- `close` has taken `fd` out of the slot -/
  | took (fd : Int)
  /-- `retire` has filed its descriptor and evicted the oldest one, `now` -/
  | evicting (now : Int)
  /-- `retire` is about to look at `busy` -/
  | retired
  /-- `busy` was seen to drop to (or be) zero: `flush` comes next -/
  | toFlush
  /-- `flush` is closing the descriptors it found filed -/
  | flushing (todo : List Int)
  | done
  deriving DecidableEq

/-- The activity is one of those `busy` counts. -/
@[simp] def Op.counts : Op → Bool
  | .counted | .using _ | .watchCounted _ | .watchShut _ | .watchEnd => true
  | _ => false

/-- The slot's shared block, the activities on it and which descriptors are open. -/
structure State (ι : Type*) where
  fdValue : Int
  busy : ℕ
  deferred : List Int
  ops : ι → Op
  isOpen : Int → Bool

/-- A slot constructed with `fd`, before anything uses it. -/
def init (fd : Int) : State ι where
  fdValue := fd
  busy := 0
  deferred := []
  ops := fun _ => .idle
  isOpen := fun d => decide (d = fd)

inductive Event (ι : Type*)
  | beginCount (k : ι)
  | beginLoad (k : ι)
  | endUse (k : ι)
  | watchCount (k : ι) (fd : Int)
  | watchLoad (k : ι)
  | watchShutdown (k : ι)
  | watchEnd (k : ι)
  | take (k : ι)
  | retire (k : ι)
  | closeNow (k : ι)
  | retireLoad (k : ι)
  | flush (k : ι)
  | closeOne (k : ι)
  | reset (fd : Int)

section Step

variable [DecidableEq ι]

/-- Activity `k` moves on to `op`. -/
def State.set (s : State ι) (k : ι) (op : Op) : State ι := { s with ops := update s.ops k op }

/-- `State::end`: count the activity out; whoever was last flushes. -/
def State.end (s : State ι) (k : ι) : State ι :=
  { s.set k (if s.busy = 1 then .toFlush else .done) with busy := s.busy - 1 }

/-- `closeSocket`: the number is free again. -/
def State.closeSocket (s : State ι) (fd : Int) : State ι :=
  { s with isOpen := update s.isOpen fd false }

/-- `take`: the exchange that empties the slot. -/
def State.take (s : State ι) (k : ι) : State ι :=
  { s.set k (if s.fdValue < 0 then .done else .took s.fdValue) with fdValue := -1 }

/-- The locked section of `retire fd`. -/
def State.retire (s : State ι) (k : ι) (fd : Int) : State ι := match s.deferred with
  | d :: ds =>
    -- no room: the oldest one is closed at once
    if s.deferred.length = kMaxDeferred then { s.set k (.evicting d) with deferred := ds ++ [fd] }
    else { s.set k .retired with deferred := s.deferred ++ [fd] }
  | [] => { s.set k .retired with deferred := [fd] }

/-- The locked section of `flush`. -/
def State.flush (s : State ι) (k : ι) : State ι :=
  { s.set k (.flushing s.deferred) with deferred := [] }

/-- The steps of the activities on one slot. -/
def step (s : State ι) : Event ι → Option (State ι)
  | .beginCount k =>
    if s.ops k = .idle then some { s.set k .counted with busy := s.busy + 1 } else none
  | .beginLoad k => if s.ops k = .counted then some (s.set k (.using s.fdValue)) else none
  | .endUse k =>
    match s.ops k with
    | .using _ => some (s.end k)
    | _ => none
  | .watchCount k fd =>
    if s.ops k = .idle then some { s.set k (.watchCounted fd) with busy := s.busy + 1 } else none
  | .watchLoad k =>
    match s.ops k with
    | .watchCounted fd => some (s.set k (if s.fdValue = fd then .watchShut fd else .watchEnd))
    | _ => none
  | .watchShutdown k =>
    match s.ops k with
    | .watchShut _ => some (s.set k .watchEnd)
    | _ => none
  | .watchEnd k => if s.ops k = .watchEnd then some (s.end k) else none
  | .take k => if s.ops k = .idle then some (s.take k) else none
  | .retire k =>
    match s.ops k with
    | .took fd => some (s.retire k fd)
    | _ => none
  | .closeNow k =>
    match s.ops k with
    | .evicting d => some ((s.set k .retired).closeSocket d)
    | _ => none
  | .retireLoad k =>
    if s.ops k = .retired then some (s.set k (if s.busy = 0 then .toFlush else .done)) else none
  | .flush k => if s.ops k = .toFlush then some (s.flush k) else none
  | .closeOne k =>
    match s.ops k with
    | .flushing (d :: ds) => some ((s.set k (.flushing ds)).closeSocket d)
    | _ => none
  | .reset fd =>
    if s.fdValue < 0 ∧ 0 ≤ fd ∧ s.isOpen fd = false then
      some { s with fdValue := fd, isOpen := update s.isOpen fd true }
    else none

end Step

/-- The descriptor a step passes to `closeSocket`. -/
def closes (s : State ι) : Event ι → Option Int
  | .closeNow k =>
    match s.ops k with
    | .evicting d => some d
    | _ => none
  | .closeOne k =>
    match s.ops k with
    | .flushing (d :: _) => some d
    | _ => none
  | _ => none

/-- A step that closes nothing a live `Use` has loaded. -/
def ClosesUnused (s : State ι) (e : Event ι) : Prop :=
  ∀ d, closes s e = some d → ∀ u, s.ops u ≠ .using d

/-- A step that files a descriptor only while there is room for it. -/
def HasRoom (s : State ι) : Event ι → Prop
  | .retire _ => s.deferred.length < kMaxDeferred
  | _ => True

/-- A step that, if it is the locked section of `flush` and something is filed, still finds no
activity counted in. -/
def QuietFlush (s : State ι) : Event ι → Prop
  | .flush _ => s.busy = 0 ∨ s.deferred = []
  | _ => True

instance (s : State ι) : (e : Event ι) → Decidable (HasRoom s e)
  | .retire _ => inferInstanceAs (Decidable (s.deferred.length < kMaxDeferred))
  | .beginCount _ | .beginLoad _ | .endUse _ | .watchCount .. | .watchLoad _ | .watchShutdown _
  | .watchEnd _ | .take _ | .closeNow _ | .retireLoad _ | .flush _ | .closeOne _ | .reset _ =>
    inferInstanceAs (Decidable True)

instance (s : State ι) : (e : Event ι) → Decidable (QuietFlush s e)
  | .flush _ => inferInstanceAs (Decidable (s.busy = 0 ∨ s.deferred = []))
  | .beginCount _ | .beginLoad _ | .endUse _ | .watchCount .. | .watchLoad _ | .watchShutdown _
  | .watchEnd _ | .take _ | .retire _ | .closeNow _ | .retireLoad _ | .closeOne _ | .reset _ =>
    inferInstanceAs (Decidable True)

/-! ### One place for every descriptor -/

/-- Where a descriptor that has not been closed can be. -/
inductive Place (ι : Type*)
  | slot
  | took (k : ι)
  | filed (i : ℕ)
  | todo (k : ι) (i : ℕ)
  deriving DecidableEq

/-- Descriptor `d` is at a place. -/
def At (s : State ι) : Place ι → Int → Prop
  | .slot, d => s.fdValue = d ∧ 0 ≤ d
  | .took k, d => s.ops k = .took d
  | .filed i, d => s.deferred[i]? = some d
  | .todo k i, d => ∃ l, s.ops k = .flushing l ∧ l[i]? = some d

/-- The activity holds no descriptor it will file or close. -/
@[simp] def Op.plain : Op → Bool
  | .took _ | .flushing _ | .evicting _ => false
  | _ => true

/-- What every quiet run keeps: `busy` counts the uses, every descriptor is open and in one
place, and nothing a live use loaded is on its way to `closeSocket`. -/
structure Inv (s : State ι) : Prop where
  counted : Tally (fun k => (s.ops k).counts = true) s.busy
  excl : Exclusive (At s)
  isOpen : ∀ {p d}, At s p d → s.isOpen d = true ∧ 0 ≤ d
  noEvict : ∀ k d, s.ops k ≠ .evicting d
  safe : ∀ {u d}, s.ops u = .using d → ∀ k i, ¬ At s (.todo k i) d

theorem inv_init (fd : Int) : Inv (init fd : State ι) where
  counted := .zero fun k => by simp [init]
  excl := by
    intro p p' d hp hp'
    cases p <;> cases p' <;> simp_all [At, init]
  isOpen := by
    intro p d hp
    cases p <;> simp_all [At, init]
  noEvict := by simp [init]
  safe := by simp [init]

variable {s t : State ι}

/-- The descriptor in the slot is not on its way to `closeSocket`. -/
theorem Inv.slot_safe (h : Inv s) (k : ι) (i : ℕ) : ¬ At s (.todo k i) s.fdValue := by
  intro ht
  have hs : At s .slot s.fdValue := ⟨rfl, (h.isOpen ht).2⟩
  exact absurd (h.excl _ _ _ hs ht) (by simp)

/-- Closing a descriptor that is nowhere any more. -/
theorem Inv.closeSocket (h : Inv s) {d : Int} (hd : ∀ p, ¬ At s p d) : Inv (s.closeSocket d) where
  counted := h.counted
  excl := h.excl.mono fun p _ hp => by cases p <;> exact hp
  isOpen := by
    intro p d' hp
    have hp' : At s p d' := by cases p <;> exact hp
    have hne : d' ≠ d := by
      rintro rfl
      exact hd p hp'
    simpa [State.closeSocket, hne] using h.isOpen hp'
  noEvict := h.noEvict
  safe := fun hu k i => h.safe hu k i

/-- `reset` puts a descriptor in the empty slot that is nowhere else. -/
theorem Inv.reset (h : Inv s) {fd : Int} (hfd : 0 ≤ fd) (hfree : s.isOpen fd = false) :
    Inv { s with fdValue := fd, isOpen := update s.isOpen fd true } := by
  have hnew : ∀ p, ¬ At s p fd := fun p hp => by simp [(h.isOpen hp).1] at hfree
  have hcases : ∀ p d, At { s with fdValue := fd, isOpen := update s.isOpen fd true } p d →
      At s p d ∨ d = fd ∧ p = .slot := by
    intro p d hp
    cases p with
    | slot => exact .inr ⟨hp.1.symm, rfl⟩
    | filed | took | todo => exact .inl hp
  refine ⟨h.counted, h.excl.of_insert hnew hcases, ?_, h.noEvict, fun hu k i => h.safe hu k i⟩
  intro p d hp
  rcases hcases p d hp with hp' | ⟨rfl, -⟩
  · have hne : d ≠ fd := by
      rintro rfl
      exact hnew p hp'
    simpa [hne] using h.isOpen hp'
  · exact ⟨by simp, hfd⟩

variable [DecidableEq ι] {k : ι} {op : Op}

/-- The places do not see a step between plain situations. -/
theorem at_plain (hfd : t.fdValue = s.fdValue) (hdef : t.deferred = s.deferred)
    (hops : t.ops = update s.ops k op) (hold : (s.ops k).plain = true)
    (hnew : op.plain = true) (p : Place ι) (d : Int) : At t p d ↔ At s p d := by
  cases p with
  | slot => rw [At, At, hfd]
  | filed => rw [At, At, hdef]
  | took j =>
    rw [At, At, hops]
    obtain rfl | hj := eq_or_ne j k
    · rw [update_self]
      constructor
      · rintro rfl
        simp at hnew
      · intro h
        simp [h] at hold
    · rw [update_of_ne hj]
  | todo j =>
    rw [At, At, hops]
    obtain rfl | hj := eq_or_ne j k
    · rw [update_self]
      constructor
      · rintro ⟨l, rfl, -⟩
        simp at hnew
      · rintro ⟨l, h, -⟩
        simp [h] at hold
    · rw [update_of_ne hj]

variable (h : Inv s)

include h

/-- A step between plain situations keeps the invariant if the count is right and a descriptor
it loads is not on its way to `closeSocket`. -/
theorem Inv.plain (hfd : t.fdValue = s.fdValue) (hdef : t.deferred = s.deferred)
    (hopen : t.isOpen = s.isOpen) (hops : t.ops = update s.ops k op) (hold : (s.ops k).plain = true)
    (hnew : op.plain = true) (hcount : Tally (fun j => (t.ops j).counts = true) t.busy)
    (hload : ∀ d, op = .using d → ∀ j i, ¬ At s (.todo j i) d) : Inv t := by
  have hat := at_plain hfd hdef hops hold hnew
  refine ⟨hcount, h.excl.mono fun p d => (hat p d).mp, ?_, ?_, ?_⟩
  · intro p d hp
    rw [hopen]
    exact h.isOpen ((hat p d).mp hp)
  · intro j d
    rw [hops]
    refine update_rec (p := (· ≠ _)) (fun _ => ?_) fun _ => h.noEvict j d
    rintro rfl
    simp at hnew
  · intro u d hu j i
    rw [hat]
    rw [hops] at hu
    obtain ⟨rfl, hu'⟩ | ⟨-, hu⟩ := of_update hu
    · exact hload d hu' j i
    · exact h.safe hu j i

/-! ### The steps keep it -/

/-- Counting an activity in. -/
theorem Inv.enter (hk : s.ops k = .idle) (hop : op.plain = true) (hc : op.counts = true)
    (hu : ∀ d, op ≠ .using d) : Inv { s.set k op with busy := s.busy + 1 } := by
  refine h.plain rfl rfl rfl rfl (by simp [hk]) hop ?_ fun d hd => absurd hd (hu d)
  exact h.counted.update_enter (Op.counts · = true) (by simp [hk]) hc

/-- Counting an activity out. -/
theorem Inv.end (hk : (s.ops k).counts = true) (hp : (s.ops k).plain = true) : Inv (s.end k) := by
  refine h.plain rfl rfl rfl rfl hp ?_ ?_ ?_
  · split <;> rfl
  · exact h.counted.update_leave (Op.counts · = true) hk (by split <;> simp)
  · intro d hd
    split at hd <;> cases hd

/-- Moving on without changing the count. -/
theorem Inv.set (hold : (s.ops k).plain = true) (hop : op.plain = true)
    (hc : op.counts = (s.ops k).counts) (hload : ∀ d, op = .using d → ∀ j i, ¬ At s (.todo j i) d) :
    Inv (s.set k op) :=
  h.plain rfl rfl rfl rfl hold hop (h.counted.update (Op.counts · = true) (by rw [hc])) hload

/-- **Steps that take a descriptor along.** Whatever is anywhere afterwards came from
somewhere, `f` naming where it went, and nothing that went on the way to `closeSocket` is
loaded by a live use. -/
theorem Inv.carry (hopen : t.isOpen = s.isOpen)
    (hops : t.ops = update s.ops k op) (hcount : op.counts = (s.ops k).counts)
    (hbusy : t.busy = s.busy) (hev : ∀ d, op ≠ .evicting d) (huse : ∀ d, op ≠ .using d)
    (f : Place ι → Int → Place ι) (back : ∀ p d, At t p d → ∃ p₀, At s p₀ d ∧ f p₀ d = p)
    (hsafe : ∀ {p₀ d j i}, At s p₀ d → f p₀ d = .todo j i → ∀ u, s.ops u ≠ .using d) : Inv t := by
  refine ⟨?_, h.excl.of_moves f back, ?_, ?_, ?_⟩
  · rw [hops, hbusy]
    exact h.counted.update (Op.counts · = true) (by rw [hcount])
  · intro p d hp
    obtain ⟨p₀, hp₀, -⟩ := back p d hp
    rw [hopen]
    exact h.isOpen hp₀
  · intro j d
    rw [hops]
    exact update_rec (p := (· ≠ _)) (fun _ => hev d) fun _ => h.noEvict j d
  · intro u d hu j i ht
    obtain ⟨p₀, hp₀, hf⟩ := back _ d ht
    rw [hops] at hu
    obtain ⟨rfl, hu'⟩ | ⟨-, hu⟩ := of_update hu
    · exact huse d hu'
    · exact hsafe hp₀ hf u hu

/-- `take` moves the descriptor from the slot into the closer's hands. -/
theorem Inv.take (hk : s.ops k = .idle) : Inv (s.take k) := by
  refine h.carry rfl rfl ?_ rfl ?_ ?_ (fun p _ => match p with | .slot => .took k | p => p) ?_ ?_
  · rw [hk]
    split <;> rfl
  · intro d
    split <;> simp
  · intro d
    split <;> simp
  · intro p d hp
    cases p with
    | slot =>
      obtain ⟨h1, h2⟩ := hp
      simp only [State.take] at h1
      omega
    | filed i => exact ⟨.filed i, hp, rfl⟩
    | took j =>
      obtain ⟨rfl, hp'⟩ | ⟨-, hp⟩ := of_update hp
      · split at hp'
        · cases hp'
        · injection hp' with hp'
          exact ⟨.slot, ⟨hp', by omega⟩, rfl⟩
      · exact ⟨.took j, hp, rfl⟩
    | todo j i =>
      obtain ⟨l, hl, hi⟩ := hp
      obtain ⟨rfl, hl'⟩ | ⟨-, hl⟩ := of_update hl
      · split at hl' <;> cases hl'
      · exact ⟨.todo j i, ⟨l, hl, hi⟩, rfl⟩
  · intro p₀ d j i hp₀ hf u hu
    cases p₀ with
    | todo j' i' => exact h.safe hu j' i' hp₀
    | slot | took | filed => cases hf

omit h

/-- With room left, `retire` just files its descriptor. -/
theorem retire_of_room (hroom : s.deferred.length < kMaxDeferred) (k : ι) (fd : Int) :
    s.retire k fd = { s.set k .retired with deferred := s.deferred ++ [fd] } := by
  unfold State.retire
  split
  · rw [if_neg (by omega)]
  · rename_i hnil
    simp [hnil]

/-- `retire` moves the descriptor from the closer's hands into the file. -/
theorem Inv.retire (h : Inv s) {fd : Int} (hk : s.ops k = .took fd)
    (hroom : s.deferred.length < kMaxDeferred) : Inv (s.retire k fd) := by
  rw [retire_of_room hroom]
  refine h.carry rfl rfl (by simp [hk]) rfl (by simp) (by simp)
    (fun p d => if p = .took k then .filed s.deferred.length else p) ?_ ?_
  · intro p d hp
    cases p with
    | slot => exact ⟨.slot, hp, by simp⟩
    | filed i =>
      simp only [At] at hp
      rw [List.getElem?_append] at hp
      split at hp
      · exact ⟨.filed i, hp, by simp⟩
      · rw [List.getElem?_singleton] at hp
        split at hp
        · injection hp with hp
          subst hp
          refine ⟨.took k, hk, ?_⟩
          simp only [if_true, Place.filed.injEq]
          omega
        · cases hp
    | took j =>
      obtain ⟨rfl, hp'⟩ | ⟨hj, hp⟩ := of_update hp
      · cases hp'
      · exact ⟨.took j, hp, by simp [hj]⟩
    | todo j i =>
      obtain ⟨l, hl, hi⟩ := hp
      obtain ⟨rfl, hl'⟩ | ⟨-, hl⟩ := of_update hl
      · cases hl'
      · exact ⟨.todo j i, ⟨l, hl, hi⟩, by simp⟩
  · intro p₀ d j i hp₀ hf u hu
    split at hf
    · cases hf
    · subst hf
      exact h.safe hu j i hp₀

/-- `flush` moves everything filed on its way to `closeSocket`; a quiet one finds no live use
of any of it. -/
theorem Inv.flush (h : Inv s) (hk : s.ops k = .toFlush) (hquiet : s.busy = 0 ∨ s.deferred = []) :
    Inv (s.flush k) := by
  refine h.carry rfl rfl (by simp [hk]) rfl (by simp) (by simp)
    (fun p _ => match p with | .filed i => .todo k i | p => p) ?_ ?_
  · intro p d hp
    cases p with
    | slot => exact ⟨.slot, hp, rfl⟩
    | filed => simp [At, State.flush] at hp
    | took j =>
      simp only [At, State.flush, State.set, update_apply] at hp
      split at hp
      · cases hp
      · exact ⟨.took j, hp, rfl⟩
    | todo j i =>
      simp only [At, State.flush, State.set, update_apply] at hp
      obtain ⟨l, hl, hi⟩ := hp
      split_ifs at hl with hj
      · injection hl with hl
        subst hl hj
        exact ⟨.filed i, hi, rfl⟩
      · exact ⟨.todo j i, ⟨l, hl, hi⟩, rfl⟩
  · intro p₀ d j i hp₀ hf u hu
    cases p₀ with
    | todo j' i' => exact h.safe hu j' i' hp₀
    | slot | took => cases hf
    | filed =>
      rcases hquiet with h0 | hnil
      · -- nobody is counted in, so nobody is using anything
        exact (h0 ▸ h.counted).none_of_zero u (by simp [hu])
      · simp [At, hnil] at hp₀

/-- `flush` closes the next descriptor on its list. -/
theorem Inv.closeOne (h : Inv s) {d : Int} {ds : List Int} (hk : s.ops k = .flushing (d :: ds)) :
    Inv ((s.set k (.flushing ds)).closeSocket d) := by
  have hback : ∀ p d', At (s.set k (.flushing ds)) p d' → ∃ p₀, At s p₀ d' ∧
      (match p₀ with | .todo j i => if j = k then .todo j (i - 1) else .todo j i | p => p) = p ∧
      p₀ ≠ .todo k 0 := by
    intro p d' hp
    cases p with
    | slot => exact ⟨.slot, hp, rfl, by simp⟩
    | filed i => exact ⟨.filed i, hp, rfl, by simp⟩
    | took j =>
      simp only [At, State.set, update_apply] at hp
      split at hp
      · cases hp
      · exact ⟨.took j, hp, rfl, by simp⟩
    | todo j i =>
      simp only [At, State.set, update_apply] at hp
      obtain ⟨l, hl, hi⟩ := hp
      split_ifs at hl with hj
      · injection hl with hl
        subst hl hj
        exact ⟨.todo j (i + 1), ⟨_, hk, by simpa using hi⟩, by simp, by simp⟩
      · exact ⟨.todo j i, ⟨l, hl, hi⟩, by simp [hj], by simp [hj]⟩
  have hset : Inv (s.set k (.flushing ds)) := by
    refine h.carry rfl rfl (by simp [hk]) rfl (by simp) (by simp) (fun p _ => match p with
        | .todo j i => if j = k then .todo j (i - 1) else .todo j i
        | p => p) ?_ ?_
    · intro p d' hp
      obtain ⟨p₀, hp₀, hf, -⟩ := hback p d' hp
      exact ⟨p₀, hp₀, hf⟩
    · intro p₀ d' j i hp₀ hf u hu
      cases p₀ with
      | todo j' i' => exact h.safe hu j' i' hp₀
      | slot | took | filed => cases hf
  -- the old head of the list was at `todo k 0` and nowhere else, and has left it
  refine hset.closeSocket fun p hp => ?_
  obtain ⟨p₀, hp₀, -, hne⟩ := hback p d hp
  exact hne (h.excl _ _ d hp₀ ⟨_, hk, rfl⟩)

theorem inv_step {e : Event ι} (h : Inv s) (hroom : HasRoom s e) (hquiet : QuietFlush s e)
    (hs : step s e = some t) : Inv t := by
  cases e with (simp only [step] at hs; repeat' first | cases hs | split at hs)
  | beginCount | watchCount => next hk => exact h.enter hk rfl rfl (by simp)
  | beginLoad =>
    next hk =>
    -- what is in the slot is on nobody's list
    refine h.set (by simp [hk]) rfl (by simp [hk]) fun d hd j i => ?_
    injection hd with hd
    exact hd ▸ h.slot_safe j i
  | endUse | watchEnd => next hk => exact h.end (by simp [hk]) (by simp [hk])
  | watchLoad | retireLoad =>
    next hk =>
    refine h.set (by simp [hk]) ?_ ?_ ?_
    · split <;> rfl
    · rw [hk]
      split <;> rfl
    · intro d hd
      split at hd <;> cases hd
  | watchShutdown => next hk => exact h.set (by simp [hk]) rfl (by simp [hk]) (by simp)
  | take => next hk => exact h.take hk
  | retire => next hk => exact h.retire hk hroom
  | closeNow k =>
    -- with room in the file nothing is ever evicted
    next d hk => exact absurd hk (h.noEvict k d)
  | flush => next hk => exact h.flush hk hquiet
  | closeOne => next hk => exact h.closeOne hk
  | reset => next hfd => exact h.reset hfd.2.1 hfd.2.2

/-! ### What is closed, and under whom -/

omit [DecidableEq ι] in
/-- Under the invariant a step closes nothing a live use has loaded. -/
theorem Inv.closesUnused (h : Inv s) (e : Event ι) : ClosesUnused s e := by
  intro d hd u hu
  cases e with
  | closeNow k =>
    simp only [closes] at hd
    split at hd
    · rename_i d' hk
      exact h.noEvict k d' hk
    · cases hd
  | closeOne k =>
    simp only [closes] at hd
    split at hd
    · rename_i d' ds hk
      injection hd with hd
      subst hd
      exact h.safe hu k 0 ⟨_, hk, rfl⟩
    · cases hd
  | _ => cases hd

/-- **No descriptor is closed under a live use**, in every run in which a descriptor is filed
only while there is room and every `flush` that finds one filed still finds `busy = 0`. -/
theorem closes_unused_of_quiet {fd : Int} {tr : List (State ι × Event ι)} {s : State ι}
    (h : Run step (init fd) tr s) (hroom : ∀ p ∈ tr, HasRoom p.1 p.2)
    (hquiet : ∀ p ∈ tr, QuietFlush p.1 p.2) : ∀ p ∈ tr, ClosesUnused p.1 p.2 :=
  h.forall_steps (fun s e => HasRoom s e ∧ QuietFlush s e)
    (fun p hp => ⟨hroom p hp, hquiet p hp⟩) (inv_init fd)
    (fun hi hok hs => inv_step hi hok.1 hok.2 hs) fun hi _ _ => hi.closesUnused _

/-- A close that comes while a use is live, and is carried out by that use when it ends. -/
def deferredClose : List (Event ℕ) :=
  [.beginCount 0, .beginLoad 0, .take 1, .retire 1, .retireLoad 1, .endUse 0, .flush 0, .closeOne 0]

theorem closes_unused_deferredClose : ∃ tr s, Run step (init 7 : State ℕ) tr s ∧
    (∀ p ∈ tr, HasRoom p.1 p.2) ∧ (∀ p ∈ tr, QuietFlush p.1 p.2) ∧
    (∃ p ∈ tr, closes p.1 p.2 = some 7) ∧ ∀ p ∈ tr, ClosesUnused p.1 p.2 :=
  have hr := Run.of_exec (show exec step (init 7 : State ℕ) deferredClose = some _ from rfl)
  ⟨_, _, hr, by decide, by decide, by decide, closes_unused_of_quiet hr (by decide) (by decide)⟩

/-- Use `0` is the last one out; before its `flush`, use `1` loads the descriptor and a closer
files it. -/
def lateFlush : List (Event ℕ) :=
  [.beginCount 0, .beginLoad 0, .endUse 0, .beginCount 1, .beginLoad 1, .take 2, .retire 2,
    .retireLoad 2, .flush 0, .closeOne 0]

/-- **A late `flush` closes a descriptor under a live use.** -/
theorem closesUnderUse : ¬ ∀ (fd : Int) (tr : List (State ℕ × Event ℕ)) (s : State ℕ),
    Run step (init fd) tr s → (∀ p ∈ tr, HasRoom p.1 p.2) → ∀ p ∈ tr, ClosesUnused p.1 p.2 := by
  intro h
  have hr := Run.of_exec (show exec step (init 7 : State ℕ) lateFlush = some _ from rfl)
  obtain ⟨tr, s, hr, hroom, p, hp, hclose, huse⟩ : ∃ tr s, Run step (init 7 : State ℕ) tr s ∧
      (∀ p ∈ tr, HasRoom p.1 p.2) ∧ ∃ p ∈ tr, closes p.1 p.2 = some 7 ∧ p.1.ops 1 = .using 7 :=
    ⟨_, _, hr, by decide, by decide⟩
  exact h 7 tr s hr hroom p hp 7 hclose 1 huse

end Manwe.SocketSlot
