import Mathlib
import Manwe.Transition.Run

/-!
# The bounded queue of many producers and consumers

`MPMCQueue` (`MPMCQueue.h`): a ring of cells with a sequence number each. A producer claims a
position by a compare-exchange on `head`, constructs its element in the cell of the position and
publishes it by storing the next sequence number; a consumer claims a position on `tail`, moves the
element out and gives the cell back for the position one round later. Every load, compare-exchange,
construction, move-out and store is a step; a compare-exchange may fail for no reason. A party is
one call.

What a cell is for is said by its sequence number: `Holds p k` pins the cell of position `p` with
the number `p + k`, and **no two positions can pin one cell**, since the positions of a cell are a
capacity of at least two apart. A step that writes to a cell its party has pinned is therefore seen
by nobody else, and the invariant says who has pinned what: between `tail` and `head` the producer
that fills the position, or nobody if the element is ready; from `head` on up to a round after
`tail` the consumer that still drains the position a round before, or nobody if the cell is free.
-/

namespace Manwe.MPMCQueue

open Function List Option Nat Prod

variable {ι α : Type*}

/-- Where a call of `enqueue` or `pop_front` stands. -/
inductive Op (α : Type*)
  | idle
  /-- before the load of `head` -/
  | enqueue (v : α)
  | enqueueSequence (v : α) (pos : ℕ)
  /-- before the compare-exchange -/
  | enqueueClaim (v : α) (pos : ℕ)
  | construct (v : α) (pos : ℕ)
  | publish (v : α) (pos : ℕ)
  | enqueued (v : α) (pos : ℕ)
  | full
  /-- before the load of `tail` -/
  | pop
  | popSequence (pos : ℕ)
  | popClaim (pos : ℕ)
  | moveOut (pos : ℕ)
  | release (v : α) (pos : ℕ)
  | popped (v : α) (pos : ℕ)
  | empty
  deriving DecidableEq

structure State (ι : Type*) (α : Type*) where
  head : ℕ := 0
  tail : ℕ := 0
  sequence : ℕ → ℕ := id
  /-- the live elements -/
  cells : ℕ → Option α := fun _ => none
  /-- an element was constructed over a live one, or a dead one was read -/
  wild : Bool := false
  ops : ι → Op α := fun _ => .idle

inductive Event (ι : Type*) (α : Type*)
  | enqueue (i : ι) (v : α)
  | popFront (i : ι)
  /-- the next step of a call; a compare-exchange may fail spuriously -/
  | act (i : ι) (spurious : Bool)

/-- `pos & mask`. -/
def index (size pos : ℕ) : ℕ := pos &&& (size - 1)

section Step

variable [DecidableEq ι]

def State.put (s : State ι α) (i : ι) (op : Op α) : State ι α := { s with ops := update s.ops i op }

def State.setSequence (s : State ι α) (c n : ℕ) : State ι α :=
  { s with sequence := update s.sequence c n }

def State.setCell (s : State ι α) (c : ℕ) (v : Option α) : State ι α :=
  { s with cells := update s.cells c v }

def act (size : ℕ) (s : State ι α) (i : ι) (spurious : Bool) : Option (State ι α) :=
  match s.ops i with
  | .enqueue v => some (s.put i (.enqueueSequence v s.head))
  | .enqueueSequence v pos =>
    let seq := s.sequence (index size pos)
    some (s.put i
      (if seq = pos then .enqueueClaim v pos else if seq < pos then .full else .enqueue v))
  | .enqueueClaim v pos =>
    if s.head = pos ∧ spurious = false then some { s.put i (.construct v pos) with head := pos + 1 }
    else some (s.put i (.enqueueSequence v s.head))
  | .construct v pos =>
    some { (s.put i (.publish v pos)).setCell (index size pos) (some v) with
      wild := s.wild || (s.cells (index size pos)).isSome }
  | .publish v pos => some ((s.put i (.enqueued v pos)).setSequence (index size pos) (pos + 1))
  | .pop => some (s.put i (.popSequence s.tail))
  | .popSequence pos =>
    let seq := s.sequence (index size pos)
    some (s.put i (if seq = pos + 1 then .popClaim pos else if seq < pos + 1 then .empty else .pop))
  | .popClaim pos =>
    if s.tail = pos ∧ spurious = false then some { s.put i (.moveOut pos) with tail := pos + 1 }
    else some (s.put i (.popSequence s.tail))
  | .moveOut pos =>
    match s.cells (index size pos) with
    | some v => some ((s.put i (.release v pos)).setCell (index size pos) none)
    | none => some { s.put i .empty with wild := true }
  | .release v pos => some ((s.put i (.popped v pos)).setSequence (index size pos) (pos + size))
  | .idle | .enqueued _ _ | .full | .popped _ _ | .empty => none

def step (size : ℕ) (s : State ι α) : Event ι α → Option (State ι α)
  | .enqueue i v =>
    match s.ops i with
    | .idle => some (s.put i (.enqueue v))
    | _ => none
  | .popFront i =>
    match s.ops i with
    | .idle => some (s.put i .pop)
    | _ => none
  | .act i spurious => act size s i spurious

end Step

/-- The producer that claims a position on `head` in a step, with its value. -/
def claims (s : State ι α) : Event ι α → List (ι × α)
  | .act i spurious =>
    match s.ops i with
    | .enqueueClaim v pos => if s.head = pos ∧ spurious = false then [(i, v)] else []
    | _ => []
  | _ => []

/-- The consumer that claims a position on `tail` in a step. -/
def takers (s : State ι α) : Event ι α → List ι
  | .act i spurious =>
    match s.ops i with
    | .popClaim pos => if s.tail = pos ∧ spurious = false then [i] else []
    | _ => []
  | _ => []

/-! ### Positions and cells -/

variable {k : ℕ}

theorem index_eq (pos : ℕ) : index (2 ^ k) pos = pos % 2 ^ k := and_two_pow_sub_one_eq_mod pos k

variable {p : ℕ}

/-- Two positions of one cell are a capacity apart. -/
theorem index_far {q : ℕ} (h : index (2 ^ k) p = index (2 ^ k) q) (hlt : p < q) :
    p + 2 ^ k ≤ q := by
  rw [index_eq, index_eq] at h
  have := mod_add_div p (2 ^ k)
  have := mod_add_div q (2 ^ k)
  have hd : p / 2 ^ k < q / 2 ^ k := by
    by_contra hd
    have := mul_le_mul_left (2 ^ k) (not_lt.1 hd)
    omega
  have := mul_le_mul_left (2 ^ k) hd
  rw [mul_succ] at this
  omega

theorem index_add : index (2 ^ k) (p + 2 ^ k) = index (2 ^ k) p := by
  rw [index_eq, index_eq, add_mod_right]

/-- The cell of position `p` has the number `p + k` and contains `c`. -/
def Holds (size : ℕ) (s : State ι α) (p k : ℕ) (c : Option α) : Prop :=
  s.sequence (index size p) = p + k ∧ s.cells (index size p) = c ∧ k ≤ 1

/-- **No two positions pin one cell.** -/
theorem Holds.inj (hk : 1 ≤ k) {s : State ι α} {q a b : ℕ} {c d : Option α}
    (hp : Holds (2 ^ k) s p a c) (hq : Holds (2 ^ k) s q b d)
    (h : index (2 ^ k) p = index (2 ^ k) q) : p = q := by
  have h2 : 2 ^ 1 ≤ 2 ^ k := Nat.pow_le_pow_right (by decide) hk
  have hseq := hp.1.symm.trans (h ▸ hq.1)
  obtain ⟨-, -, ha⟩ := hp
  obtain ⟨-, -, hb⟩ := hq
  rcases lt_trichotomy p q with hlt | heq | hlt
  · have := index_far h hlt
    omega
  · exact heq
  · have := index_far h.symm hlt
    omega

/-! ### The invariant -/

/-- The position a call has won on `head` (left) or on `tail` (right). -/
def Op.position : Op α → Option (ℕ ⊕ ℕ)
  | .construct _ pos | .publish _ pos | .enqueued _ pos => some (.inl pos)
  | .moveOut pos | .release _ pos | .popped _ pos => some (.inr pos)
  | _ => none

/-- The position a call fills (left) or drains (right). -/
def Op.work : Op α → Option (ℕ ⊕ ℕ)
  | .construct _ pos | .publish _ pos => some (.inl pos)
  | .moveOut pos | .release _ pos => some (.inr pos)
  | _ => none

theorem Op.position_of_work {op : Op α} {x : ℕ ⊕ ℕ} (h : op.work = some x) :
    op.position = some x := by
  cases op with
  | construct | publish | moveOut | release => exact h
  | _ => cases h

/-- A call has won a position, given who has claimed what on `head`, in order, and on `tail`. -/
def Won (C : List (ι × α)) (T : List ι) (i : ι) : ℕ ⊕ ℕ → Prop
  | .inl p => ∃ v, C[p]? = some (i, v)
  | .inr p => T[p]? = some i

/-- The cell of a position that is filled or drained. -/
def Pins (size : ℕ) (s : State ι α) : ℕ ⊕ ℕ → Option α → Prop
  | .inl p, c => s.tail ≤ p ∧ Holds size s p 0 c
  | .inr p, c => s.head ≤ p + size ∧ Holds size s p 1 c

/-- What a call knows. -/
def Knows (size : ℕ) (C : List (ι × α)) (T : List ι) (s : State ι α) (i : ι) : Op α → Prop
  | .enqueueSequence _ pos => pos ≤ s.head
  | .enqueueClaim _ pos => pos ≤ s.head ∧ (pos = s.head → s.sequence (index size pos) = pos)
  | .construct v pos => C[pos]? = some (i, v) ∧ Pins size s (.inl pos) none
  | .publish v pos => C[pos]? = some (i, v) ∧ Pins size s (.inl pos) (some v)
  | .enqueued v pos => C[pos]? = some (i, v)
  | .popSequence pos => pos ≤ s.tail
  | .popClaim pos => pos ≤ s.tail ∧ (pos = s.tail → s.sequence (index size pos) = pos + 1)
  | .moveOut pos =>
    T[pos]? = some i ∧ ∃ v, (∃ j, C[pos]? = some (j, v)) ∧ Pins size s (.inr pos) (some v)
  | .release v pos => T[pos]? = some i ∧ (∃ j, C[pos]? = some (j, v)) ∧ Pins size s (.inr pos) none
  | .popped v pos => T[pos]? = some i ∧ ∃ j, C[pos]? = some (j, v)
  | .idle | .enqueue _ | .full | .pop | .empty => True

structure Inv (size : ℕ) (C : List (ι × α)) (T : List ι) (s : State ι α) : Prop where
  head : C.length = s.head
  tail : T.length = s.tail
  le : s.tail ≤ s.head
  cap : s.head ≤ s.tail + size
  tame : s.wild = false
  knows : ∀ i, Knows size C T s i (s.ops i)
  ready : ∀ p, s.tail ≤ p → p < s.head →
    (∃ i, (s.ops i).work = some (.inl p)) ∨ Holds size s p 1 (C[p]?.map snd)
  free : ∀ p, s.head ≤ p → p < s.tail + size →
    (∃ i q, (s.ops i).work = some (.inr q) ∧ q + size = p) ∨ Holds size s p 0 none
  won : ∀ {i x}, Won C T i x → (s.ops i).position = some x

variable {k pos : ℕ} {C C' : List (ι × α)} {T T' : List ι} {s s' : State ι α} {i j : ι} {op : Op α}
  {x : ℕ ⊕ ℕ}

/-- What a call knows stays true if nothing happens to the cell it has pinned, nor to the one it is
about to claim. -/
theorem Knows.imp {size : ℕ} (h : Knows size C T s j op)
    (hC : ∀ {p : ℕ} {x}, C[p]? = some x → C'[p]? = some x)
    (hT : ∀ {p : ℕ} {x}, T[p]? = some x → T'[p]? = some x)
    (hhead : s.head ≤ s'.head) (htail : s.tail ≤ s'.tail)
    (henq : s'.head = s.head → s.sequence (index size s.head) = s.head →
      s'.sequence (index size s.head) = s.head)
    (hpop : s'.tail = s.tail → s.sequence (index size s.tail) = s.tail + 1 →
      s'.sequence (index size s.tail) = s.tail + 1)
    (hpins : ∀ {x c}, op.work = some x → Pins size s x c → Pins size s' x c) :
    Knows size C' T' s' j op := by
  cases op with
  | enqueueSequence | popSequence => exact le_trans h ‹_›
  | enqueueClaim v p =>
    refine ⟨le_trans h.1 hhead, fun hp => ?_⟩
    obtain rfl : p = s.head := le_antisymm h.1 (hp ▸ hhead)
    exact henq hp.symm (h.2 rfl)
  | popClaim p =>
    refine ⟨le_trans h.1 htail, fun hp => ?_⟩
    obtain rfl : p = s.tail := le_antisymm h.1 (hp ▸ htail)
    exact hpop hp.symm (h.2 rfl)
  | construct | publish => exact ⟨hC h.1, hpins rfl h.2⟩
  | enqueued => exact hC h
  | moveOut =>
    obtain ⟨hp, v, hv, hd⟩ := h
    exact ⟨hT hp, v, hv.imp fun _ => hC, hpins rfl hd⟩
  | release => exact ⟨hT h.1, h.2.1.imp fun _ => hC, hpins rfl h.2.2⟩
  | popped => exact ⟨hT h.1, h.2.imp fun _ => hC⟩
  | _ => trivial

theorem Won.inj (hi : Won C T i x) (hj : Won C T j x) : i = j := by
  cases x with
  | inl =>
    obtain ⟨⟨v, hv⟩, w, hw⟩ := hi, hj
    exact congrArg fst (some.inj (hv.symm.trans hw))
  | inr => exact some.inj (hi.symm.trans hj)

theorem snoc_lookup {β : Type*} {l : List β} {a b : β} {p : ℕ} (h : (l ++ [a])[p]? = some b) :
    l[p]? = some b ∨ p = l.length ∧ b = a := by
  obtain hp | hp := lt_or_ge p l.length
  · exact .inl (getElem?_append_left hp ▸ h)
  · rw [getElem?_append_right hp, getElem?_singleton] at h
    split at h
    · exact .inr ⟨by omega, (some.inj h).symm⟩
    · cases h

namespace Inv

variable (h : Inv (2 ^ k) C T s)

include h

/-- Who fills or drains a position has won it and pinned its cell. -/
theorem of_work (hi : (s.ops i).work = some x) : Won C T i x ∧ ∃ c, Pins (2 ^ k) s x c := by
  have hknow := h.knows i
  generalize s.ops i = op at hi hknow
  cases op with
  | construct v | publish v =>
    cases hi
    exact ⟨⟨v, hknow.1⟩, _, hknow.2⟩
  | moveOut =>
    cases hi
    obtain ⟨hT, v, -, hd⟩ := hknow
    exact ⟨hT, _, hd⟩
  | release =>
    cases hi
    exact ⟨hknow.1, _, hknow.2.2⟩
  | _ => cases hi

theorem lt_tail (hi : T[pos]? = some i) : pos < s.tail :=
  h.tail ▸ (List.getElem?_eq_some_iff.1 hi).1

theorem lt_head {y : ι × α} (hi : C[pos]? = some y) : pos < s.head :=
  h.head ▸ (List.getElem?_eq_some_iff.1 hi).1

/-- No two calls are at work on one position. -/
theorem work_inj {y : ℕ ⊕ ℕ} (hi : (s.ops i).work = some x) (hj : (s.ops j).work = some y)
    (hxy : x.elim id id = y.elim id id) : i = j := by
  obtain ⟨hwi, c, hc⟩ := h.of_work hi
  obtain ⟨hwj, d, hd⟩ := h.of_work hj
  rcases x with p | p <;> rcases y with q | q <;> obtain rfl : p = q := hxy
  · exact hwi.inj hwj
  · exact absurd hc.1 (not_le.2 (h.lt_tail hwj))
  · exact absurd hd.1 (not_le.2 (h.lt_tail hwi))
  · exact hwi.inj hwj

/-- A call that has won no position is none of those that have. -/
theorem won_of_position (hi : (s.ops i).position = none) (hj : Won C T j x) {P : Prop} :
    Won C T j x ∧ (j = i → P) := by
  refine ⟨hj, ?_⟩
  rintro rfl
  cases hi.symm.trans (h.won hj)

omit h

theorem ne_of_work (hi : (s.ops i).position = none) (hj : (s.ops j).work = some x) : j ≠ i := by
  rintro rfl
  cases hi.symm.trans (Op.position_of_work hj)

variable [DecidableEq ι]

/-- **What a step has to show**: the call that moves is all right, the others still know what they
know, and a position that is neither filled nor drained by another call has a cell that says so. -/
theorem move (h : Inv (2 ^ k) C T s) (hops : s'.ops = update s.ops i op)
    (hhead : C'.length = s'.head) (htail : T'.length = s'.tail) (hle : s'.tail ≤ s'.head)
    (hcap : s'.head ≤ s'.tail + 2 ^ k) (htame : s'.wild = false) (hi : Knows (2 ^ k) C' T' s' i op)
    (hj : ∀ j ≠ i, Knows (2 ^ k) C T s j (s.ops j) → Knows (2 ^ k) C' T' s' j (s.ops j))
    (hready : ∀ p, s'.tail ≤ p → p < s'.head → (∃ j ≠ i, (s.ops j).work = some (.inl p)) ∨
      op.work = some (.inl p) ∨ Holds (2 ^ k) s' p 1 (C'[p]?.map snd))
    (hfree : ∀ p, s'.head ≤ p → p < s'.tail + 2 ^ k →
      (∃ j q, j ≠ i ∧ (s.ops j).work = some (.inr q) ∧ q + 2 ^ k = p) ∨
      (∃ q, op.work = some (.inr q) ∧ q + 2 ^ k = p) ∨ Holds (2 ^ k) s' p 0 none)
    (hwon : ∀ {j x}, Won C' T' j x → Won C T j x ∧ (j = i → op.position = (s.ops i).position) ∨
      j = i ∧ op.position = some x) : Inv (2 ^ k) C' T' s' := by
  have hself : s'.ops i = op := by rw [hops, update_self]
  have hne : ∀ j, j ≠ i → s'.ops j = s.ops j := fun j hj => by rw [hops, update_of_ne hj]
  refine ⟨hhead, htail, hle, hcap, htame, fun j => ?_, fun p hlo hhi => ?_, fun p hlo hhi => ?_,
    fun {j x} hp => ?_⟩
  · obtain rfl | hji := eq_or_ne j i
    · exact hself ▸ hi
    · exact hne j hji ▸ hj j hji (h.knows j)
  · obtain ⟨j, hji, hf⟩ | hf | hf := hready p hlo hhi
    · exact .inl ⟨j, hne j hji ▸ hf⟩
    · exact .inl ⟨i, hself ▸ hf⟩
    · exact .inr hf
  · obtain ⟨j, q, hji, hd, hq⟩ | ⟨q, hd, hq⟩ | hf := hfree p hlo hhi
    · exact .inl ⟨j, q, hne j hji ▸ hd, hq⟩
    · exact .inl ⟨i, q, hself ▸ hd, hq⟩
    · exact .inr hf
  · obtain ⟨hw, hop⟩ | ⟨rfl, hop⟩ := hwon hp
    · obtain rfl | hji := eq_or_ne j i
      · exact hself ▸ (hop rfl).trans (h.won hw)
      · exact hne j hji ▸ h.won hw
    · exact hself ▸ hop

/-- A call moves on that has won no position, and wins none. -/
theorem quiet (h : Inv (2 ^ k) C T s) (hi : (s.ops i).position = none) (hop : op.position = none)
    (hk : Knows (2 ^ k) C T s i op) : Inv (2 ^ k) C T (s.put i op) := by
  refine h.move rfl h.head h.tail h.le h.cap h.tame hk (fun j _ hj => hj) (fun p hlo hhi => ?_)
    (fun p hlo hhi => ?_) fun hw => .inl ⟨hw, fun _ => hop.trans hi.symm⟩
  · exact (h.ready p hlo hhi).imp (fun ⟨j, hj⟩ => ⟨j, ne_of_work hi hj, hj⟩) .inr
  · exact (h.free p hlo hhi).imp (fun ⟨j, q, hj, hq⟩ => ⟨j, q, ne_of_work hi hj, hj, hq⟩) .inr

variable (hk : 1 ≤ k) (h : Inv (2 ^ k) C T s)

include hk h

/-- **Who has pinned a cell writes to it unseen.** -/
theorem write (hown : (s.ops i).work = some x) (hx : x.elim id id = pos)
    (hops : s'.ops = update s.ops i op)
    (hsame : s'.head = s.head ∧ s'.tail = s.tail ∧ s'.wild = false)
    (hcell : ∀ y ≠ index (2 ^ k) pos, s'.sequence y = s.sequence y ∧ s'.cells y = s.cells y)
    (hi : Knows (2 ^ k) C T s' i op) (hpos : op.position = some x)
    (hdone : op.work = some x ∨ match x with
      | .inl p => Holds (2 ^ k) s' p 1 (C[p]?.map snd)
      | .inr p => Holds (2 ^ k) s' (p + 2 ^ k) 0 none) :
    Inv (2 ^ k) C T s' := by
  obtain ⟨hh, ht, hw⟩ := hsame
  have hn : 2 ^ 1 ≤ 2 ^ k := Nat.pow_le_pow_right (by decide) hk
  have hle := h.le
  obtain ⟨hwon, c, hc⟩ := h.of_work hown
  have hpin : (s.tail ≤ pos ∧ pos < s.head ∧ Holds (2 ^ k) s pos 0 c) ∨
      (pos < s.tail ∧ Holds (2 ^ k) s pos 1 c) := by
    subst hx
    cases x with
    | inl => exact .inl ⟨hc.1, h.lt_head hwon.choose_spec, hc.2⟩
    | inr => exact .inr ⟨h.lt_tail hwon, hc.2⟩
  have hfar : ∀ {q b d}, q ≠ pos → Holds (2 ^ k) s q b d → Holds (2 ^ k) s' q b d := by
    intro q b d hq hd
    obtain ⟨hs, hc⟩ := hcell _ fun hx =>
      hq (hpin.elim (fun hp => hd.inj hk hp.2.2 hx) fun hp => hd.inj hk hp.2 hx)
    rwa [Holds, hs, hc]
  have hseq : (s.tail ≤ pos ∧ pos < s.head ∧ s.sequence (index (2 ^ k) pos) = pos) ∨
      (pos < s.tail ∧ s.sequence (index (2 ^ k) pos) = pos + 1) :=
    hpin.imp (fun hp => ⟨hp.1, hp.2.1, hp.2.2.1⟩) fun hp => ⟨hp.1, hp.2.1⟩
  refine h.move hops (h.head.trans hh.symm) (h.tail.trans ht.symm) (by omega) (hh ▸ ht ▸ h.cap) hw
    hi (fun j hji hj => ?_) (fun p hlo hhi => ?_) (fun p hlo hhi => ?_)
    fun hw => .inl ⟨hw, fun _ => hpos.trans (Op.position_of_work hown).symm⟩
  · refine hj.imp id id hh.ge ht.ge (fun _ hseq => ?_) (fun _ hseq => ?_) fun {y d} hy hd => ?_
    · rw [(hcell _ fun hx => ?_).1, hseq]
      rw [hx] at hseq
      have := index_far hx.symm (by omega)
      omega
    · rw [(hcell _ fun hx => ?_).1, hseq]
      rw [hx] at hseq
      have := index_far hx (by omega)
      omega
    · -- nobody else is at work on the position
      have hne : y.elim id id ≠ pos := fun he => hji (h.work_inj hy hown (he.trans hx.symm))
      cases y with
      | inl => exact ⟨ht ▸ hd.1, hfar hne hd.2⟩
      | inr => exact ⟨hh ▸ hd.1, hfar hne hd.2⟩
  · obtain ⟨j, hj⟩ | hd := h.ready p (ht ▸ hlo) (hh ▸ hhi)
    · obtain rfl | hji := eq_or_ne j i
      · cases hown.symm.trans hj
        exact .inr hdone
      · exact .inl ⟨j, hji, hj⟩
    · refine .inr (.inr (hfar ?_ hd))
      rintro rfl
      have := hd.1
      omega
  · obtain ⟨j, q, hj, hq⟩ | hd := h.free p (hh ▸ hlo) (ht ▸ hhi)
    · obtain rfl | hji := eq_or_ne j i
      · cases hown.symm.trans hj
        exact .inr (hdone.imp (fun hd => ⟨q, hd, hq⟩) fun hd => hq ▸ hd)
      · exact .inl ⟨j, q, hji, hj, hq⟩
    · exact .inr (.inr (hfar (by omega) hd))

variable {v : α}

/-- A producer claims the position at `head`. -/
theorem claimHead (hi : s.ops i = .enqueueClaim v s.head) :
    Inv (2 ^ k) (C ++ [(i, v)]) T { s.put i (.construct v s.head) with head := s.head + 1 } := by
  have hn : 2 ^ 1 ≤ 2 ^ k := Nat.pow_le_pow_right (by decide) hk
  have hlen := h.head
  have hseq : s.sequence (index (2 ^ k) s.head) = s.head := by
    have := h.knows i
    rw [hi] at this
    exact this.2 rfl
  -- the cell of `head` is that of the position a capacity before, which may not be pinned
  have hback : ∀ {p a c}, p + 2 ^ k = s.head → ¬ Holds (2 ^ k) s p a c := by
    rintro p a c hp ⟨hs, -, ha⟩
    rw [← index_add, hp, hseq] at hs
    omega
  have hroom : s.head < s.tail + 2 ^ k := by
    refine lt_of_le_of_ne h.cap fun hfull => ?_
    obtain ⟨j, hj⟩ | hd := h.ready s.tail le_rfl (by omega)
    · obtain ⟨-, c, hd⟩ := h.of_work hj
      exact hback hfull.symm hd.2
    · exact hback hfull.symm hd
  have hcell : Holds (2 ^ k) s s.head 0 none := by
    refine (h.free s.head le_rfl hroom).resolve_left ?_
    rintro ⟨j, q, hj, hq⟩
    obtain ⟨-, c, hd⟩ := h.of_work hj
    exact hback hq hd.2
  have hC : ∀ {p x}, C[p]? = some x → (C ++ [(i, v)])[p]? = some x := fun hx => by
    rw [getElem?_append_left (getElem?_eq_some_iff.1 hx).1, hx]
  have hpos : (s.ops i).position = none := congrArg Op.position hi
  refine h.move rfl (by simp [hlen]) h.tail (le_succ_of_le h.le) hroom h.tame
    ⟨by simp [← hlen], h.le, hcell⟩ (fun j _ hj => ?_) (fun p hlo hhi => ?_) (fun p hlo hhi => ?_)
    fun {j x} hw => ?_
  · refine hj.imp hC id (le_succ _) le_rfl (fun hh _ => absurd hh (succ_ne_self _))
      (fun _ => id) fun {x c} _ hd => ?_
    cases x with
    | inl => exact hd
    | inr => exact ⟨lt_of_le_of_ne hd.1 fun he => hback he.symm hd.2, hd.2⟩
  · obtain hp | rfl := Nat.lt_succ_iff_lt_or_eq.1 hhi
    · rw [getElem?_append_left (hlen ▸ hp)]
      exact (h.ready p hlo hp).imp (fun ⟨j, hj⟩ => ⟨j, ne_of_work hpos hj, hj⟩) .inr
    · exact .inr (.inl rfl)
  · exact (h.free p (le_of_succ_le hlo) hhi).imp
      (fun ⟨j, q, hj, hq⟩ => ⟨j, q, ne_of_work hpos hj, hj, hq⟩) .inr
  · cases x with
    | inl p =>
      obtain ⟨w, hw⟩ := hw
      obtain hw | ⟨rfl, he⟩ := snoc_lookup hw
      · exact .inl (h.won_of_position hpos (x := .inl p) ⟨w, hw⟩)
      · exact .inr ⟨congrArg fst he, hlen ▸ rfl⟩
    | inr p => exact .inl (h.won_of_position hpos (x := .inr p) hw)

/-- A consumer claims the position at `tail`. -/
theorem claimTail (hi : s.ops i = .popClaim s.tail) :
    Inv (2 ^ k) C (T ++ [i]) { s.put i (.moveOut s.tail) with tail := s.tail + 1 } := by
  have hn : 2 ^ 1 ≤ 2 ^ k := Nat.pow_le_pow_right (by decide) hk
  have hlen := h.tail
  have hseq : s.sequence (index (2 ^ k) s.tail) = s.tail + 1 := by
    have := h.knows i
    rw [hi] at this
    exact this.2 rfl
  have hpin : ∀ {c}, ¬ Holds (2 ^ k) s s.tail 0 c := fun hd => by
    have := hd.1
    omega
  have hlt : s.tail < s.head := by
    refine lt_of_le_of_ne h.le fun he => ?_
    obtain ⟨j, q, hj, hq⟩ | hd := h.free s.tail he.ge (by omega)
    · obtain ⟨-, c, -, hd, -⟩ := h.of_work hj
      rw [← index_add, hq] at hd
      omega
    · exact hpin hd
  have hcell : Holds (2 ^ k) s s.tail 1 (C[s.tail]?.map snd) := by
    refine (h.ready s.tail le_rfl hlt).resolve_left ?_
    rintro ⟨j, hj⟩
    obtain ⟨-, c, hd⟩ := h.of_work hj
    exact hpin hd.2
  obtain ⟨⟨j, v⟩, hv⟩ : ∃ y, C[s.tail]? = some y :=
    ⟨_, getElem?_eq_getElem (by rw [h.head]; exact hlt)⟩
  rw [hv] at hcell
  have hT : ∀ {p x}, T[p]? = some x → (T ++ [i])[p]? = some x := fun hx => by
    rw [getElem?_append_left (getElem?_eq_some_iff.1 hx).1, hx]
  have hpos : (s.ops i).position = none := congrArg Op.position hi
  refine h.move rfl h.head (by simp [hlen]) hlt
    (show s.head ≤ s.tail + 1 + 2 ^ k by have := h.cap; omega) h.tame
    ⟨by simp [← hlen], v, ⟨j, hv⟩, h.cap, hcell⟩ (fun j _ hj => ?_)
    (fun p hlo hhi => ?_) (fun p hlo hhi => ?_) fun {j x} hw => ?_
  · refine hj.imp id hT le_rfl (le_succ _) (fun _ => id)
      (fun hh _ => absurd hh (succ_ne_self _)) fun {x c} _ hd => ?_
    cases x with
    | inl => exact ⟨lt_of_le_of_ne hd.1 fun he => hpin (he ▸ hd.2), hd.2⟩
    | inr => exact hd
  · exact (h.ready p (le_of_succ_le hlo) hhi).imp
      (fun ⟨j, hj⟩ => ⟨j, ne_of_work hpos hj, hj⟩) .inr
  · obtain hp | hp := lt_or_ge p (s.tail + 2 ^ k)
    · exact (h.free p hlo hp).imp (fun ⟨j, q, hj, hq⟩ => ⟨j, q, ne_of_work hpos hj, hj, hq⟩) .inr
    · exact .inr (.inl ⟨s.tail, rfl, by dsimp only at hhi; omega⟩)
  · cases x with
    | inl p => exact .inl (h.won_of_position hpos (x := .inl p) hw)
    | inr p =>
      obtain hw | ⟨rfl, he⟩ := snoc_lookup hw
      · exact .inl (h.won_of_position hpos (x := .inr p) hw)
      · exact .inr ⟨he, hlen ▸ rfl⟩

theorem act {spurious : Bool} (hs : act (2 ^ k) s i spurious = some s') :
    Inv (2 ^ k) (C ++ claims s (.act i spurious)) (T ++ takers s (.act i spurious)) s' := by
  have hi := h.knows i
  simp only [MPMCQueue.act, claims, takers] at hs ⊢
  cases hop : s.ops i with (rw [hop] at hi; simp only [hop, append_nil] at hs ⊢)
  | enqueueClaim | popClaim =>
    split_ifs at hs ⊢ with hc <;> obtain rfl := some.inj hs
    · obtain ⟨rfl, rfl⟩ := hc
      first | exact h.claimHead hk hop | exact h.claimTail hk hop
    · rw [append_nil]
      exact h.quiet (congrArg Op.position hop) rfl le_rfl
  | enqueue | pop =>
    cases hs
    exact h.quiet (congrArg Op.position hop) rfl le_rfl
  | enqueueSequence | popSequence =>
    cases hs
    refine h.quiet (congrArg Op.position hop) (by split_ifs <;> rfl) ?_
    split_ifs with hseq
    · exact ⟨hi, fun _ => hseq⟩
    all_goals trivial
  | construct =>
    cases hs
    obtain ⟨hC, hlo, hpin⟩ := hi
    exact h.write hk (congrArg Op.work hop) rfl rfl ⟨rfl, rfl, by simp [hpin.2.1, h.tame]⟩
      (fun x hx => ⟨rfl, update_of_ne hx _ _⟩)
      ⟨hC, hlo, hpin.1, update_self .., hpin.2.2⟩ rfl (.inl rfl)
  | publish =>
    cases hs
    obtain ⟨hC, -, hpin⟩ := hi
    exact h.write hk (congrArg Op.work hop) rfl rfl ⟨rfl, rfl, h.tame⟩
      (fun x hx => ⟨update_of_ne hx _ _, rfl⟩) hC rfl
      (.inr ⟨update_self .., hC ▸ hpin.2.1, le_rfl⟩)
  | moveOut =>
    obtain ⟨hT, v, hv, hhi, hpin⟩ := hi
    simp only [hpin.2.1] at hs
    cases hs
    exact h.write hk (congrArg Op.work hop) rfl rfl ⟨rfl, rfl, h.tame⟩
      (fun x hx => ⟨rfl, update_of_ne hx _ _⟩)
      ⟨hT, hv, hhi, hpin.1, update_self .., le_rfl⟩ rfl (.inl rfl)
  | release =>
    cases hs
    obtain ⟨hT, hv, -, hpin⟩ := hi
    refine h.write hk (congrArg Op.work hop) rfl rfl ⟨rfl, rfl, h.tame⟩
      (fun x hx => ⟨update_of_ne hx _ _, rfl⟩) ⟨hT, hv⟩ rfl (.inr ?_)
    dsimp only
    rw [Holds, index_add]
    exact ⟨update_self .., hpin.2.1, zero_le _⟩
  | _ => cases hs

theorem step {e : Event ι α} (hs : step (2 ^ k) s e = some s') :
    Inv (2 ^ k) (C ++ claims s e) (T ++ takers s e) s' := by
  cases e with
  | enqueue | popFront =>
    simp only [MPMCQueue.step, claims, takers, append_nil] at hs ⊢
    split at hs <;> cases hs
    next hi => exact h.quiet (congrArg Op.position hi) rfl trivial
  | act => exact h.act hk hs

omit hk h

omit [DecidableEq ι] in
/-- The producer of a position that was claimed on `tail` has returned. -/
theorem enqueued_of (h : Inv (2 ^ k) C T s) (hC : C[pos]? = some (i, v))
    (hT : T[pos]? = some j) : s.ops i = .enqueued v pos := by
  have hpos := h.won (x := .inl pos) ⟨v, hC⟩
  have hknow := h.knows i
  generalize s.ops i = op at hpos hknow
  cases op with
  | construct | publish =>
    cases hpos
    exact absurd hknow.2.1 (not_le.2 (h.lt_tail hT))
  | enqueued =>
    cases hpos
    cases hC.symm.trans hknow
    rfl
  | _ => cases hpos

omit [DecidableEq ι] in
/-- The consumer of a position drains it or has returned its value. -/
theorem popped_of (h : Inv (2 ^ k) C T s) (hC : C[pos]? = some (i, v))
    (hT : T[pos]? = some j) : (s.ops j).work = some (.inr pos) ∨ s.ops j = .popped v pos := by
  have hpos := h.won (x := .inr pos) hT
  have hknow := h.knows j
  generalize s.ops j = op at hpos hknow
  cases op with
  | moveOut | release =>
    cases hpos
    exact .inl rfl
  | popped =>
    cases hpos
    obtain ⟨-, l, hw⟩ := hknow
    cases hC.symm.trans hw
    exact .inr rfl
  | _ => cases hpos

end Inv

section Run

variable [DecidableEq ι] {tr : List (State ι α × Event ι α)}

theorem inv_run (hk : 1 ≤ k) (h : Run (step (2 ^ k)) {} tr s) :
    Inv (2 ^ k) (logOf claims tr) (logOf takers tr) s := by
  induction h with
  | start =>
    refine ⟨rfl, rfl, le_rfl, zero_le _, rfl, fun _ => trivial, fun p _ hp => ?_,
      fun p _ hp => ?_, ?_⟩
    · cases hp
    · rw [zero_add] at hp
      exact .inr ⟨by simp [index_eq, mod_eq_of_lt hp], rfl, zero_le _⟩
    · rintro i (p | p) hp <;> simp [Won] at hp
  | next _ hs ih => simpa only [logOf_snoc] using ih.step hk hs

/-- **The queue is a queue.** The consumer of the `pos`-th exchange on `tail` returns the value of
the producer of the `pos`-th exchange on `head`, and no call makes two exchanges; a value enqueued
is being moved out by that consumer, or was returned by it, or is ready in its cell. No element is
constructed over another nor read before it is there, and the positions claimed and not given back
are a capacity at most. -/
theorem queue_exact (hk : 1 ≤ k) (h : Run (step (2 ^ k)) ({} : State ι α) tr s) :
    (∀ j v pos, s.ops j = .popped v pos → (logOf takers tr)[pos]? = some j ∧
      ∃ i, (logOf claims tr)[pos]? = some (i, v) ∧ s.ops i = .enqueued v pos) ∧
    (∀ i v pos, s.ops i = .enqueued v pos → (logOf claims tr)[pos]? = some (i, v) ∧
      ((∃ j, (logOf takers tr)[pos]? = some j ∧
        ((s.ops j).work = some (.inr pos) ∨ s.ops j = .popped v pos)) ∨
      s.tail ≤ pos ∧ Holds (2 ^ k) s pos 1 (some v))) ∧
    (∀ i x y, Won (logOf claims tr) (logOf takers tr) i x →
      Won (logOf claims tr) (logOf takers tr) i y → x = y) ∧
    s.wild = false ∧
    ∀ p < s.head, s.tail ≤ p ∨ (∃ j, (s.ops j).work = some (.inr p)) → s.head ≤ p + 2 ^ k := by
  have hinv := inv_run hk h
  refine ⟨fun j v pos hj => ?_, fun i v pos hi => ?_, fun i x y hx hy => ?_, hinv.tame,
    fun p _ hp => ?_⟩
  · have hknow := hinv.knows j
    rw [hj] at hknow
    obtain ⟨hT, i, hC⟩ := hknow
    exact ⟨hT, i, hC, hinv.enqueued_of hC hT⟩
  · have hC := hinv.knows i
    rw [hi] at hC
    refine ⟨hC, ?_⟩
    obtain hlt | hle := lt_or_ge pos s.tail
    · have hT := getElem?_eq_getElem (hinv.tail ▸ hlt)
      exact .inl ⟨_, hT, hinv.popped_of hC hT⟩
    · refine .inr ⟨hle, ?_⟩
      obtain ⟨j, hj⟩ | hd := hinv.ready pos hle (hinv.lt_head hC)
      · obtain rfl := (hinv.of_work hj).1.inj ⟨v, hC⟩
        rw [hi] at hj
        cases hj
      · rwa [hC] at hd
  · exact some.inj ((hinv.won hx).symm.trans (hinv.won hy))
  · obtain hp | ⟨j, hj⟩ := hp
    · exact hinv.cap.trans (Nat.add_le_add_right hp _)
    · exact (hinv.of_work hj).2.choose_spec.1

/-- The second producer claims before the first and publishes after it. -/
def crossed : List (Event (Fin 4) ℕ) :=
  [.enqueue 0 7, .enqueue 1 8, .act 0 false, .act 0 false, .act 1 false, .act 1 false, .act 1 false,
    .act 0 false, .act 0 false, .act 0 false, .act 0 false, .act 0 false,
    .popFront 2, .act 2 false, .act 2 false, .act 1 false, .act 1 false,
    .popFront 3, .act 3 false, .act 3 false, .act 3 true, .act 3 false, .act 3 false, .act 3 false,
    .act 3 false]

theorem queue_exact_crossed :
    ∃ tr s, Run (step (2 ^ 1)) ({} : State (Fin 4) ℕ) tr s ∧ s.ops 2 = .empty ∧
      s.ops 0 = .enqueued 7 1 ∧ s.ops 3 = .popped 8 0 ∧
      ∃ i, (logOf claims tr)[0]? = some (i, 8) ∧ s.ops i = .enqueued 8 0 := by
  obtain ⟨tr, s, h, h2, h0, h3⟩ : ∃ tr s, Run (step (2 ^ 1)) ({} : State (Fin 4) ℕ) tr s ∧
      s.ops 2 = .empty ∧ s.ops 0 = .enqueued 7 1 ∧ s.ops 3 = .popped 8 0 :=
    Run.exists_of_exec crossed (by decide +kernel)
  exact ⟨tr, s, h, h2, h0, h3, ((queue_exact le_rfl h).1 _ _ _ h3).2⟩

end Run

end Manwe.MPMCQueue
