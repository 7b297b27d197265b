import Manwe.Soccer.TlsStream

/-!
# What a step does to the descriptor of a TLS stream

Seen from the descriptor, a party is two things: whether it has a **ticket**, and whether it has to
take **care** of the descriptor, as a `close` that has taken it out or as the one that will close
it. The `Impl` is four fields. `Touch` says how a step of a party can change the two; the many
places of the calls, the locks and the sticky error are all behind its first constructor.
-/

namespace Manwe.TlsStream

open Function State

variable {ι : Type} [DecidableEq ι]

/-- The descriptor a party has to take care of. -/
inductive Care where
  | none
  /-- taken out, by a `close` between its sections -/
  | hand (fd : Int)
  /-- to be closed, by a `close` -/
  | shuts (fd : Int)
  /-- to be closed, in the destruction of a ticket -/
  | drops (fd : Int)

/-- What the next step of a `close` closes. -/
def Closer.closes : Closer → List Int
  | .shut fd => [fd]
  | _ => []

def Closer.care : Closer → Care
  | .notify fd | .notifyAgain fd | .free fd | .wake fd | .retire fd => .hand fd
  | .take => .none
  | .shut fd => .shuts fd

/-- A party as the descriptor sees it. -/
structure View where
  ticket : Bool
  care : Care

def Place.care : Place → Care
  | .close c | .hsClose _ _ c => c.care
  | .shut _ fd _ => .drops fd
  | _ => .none

def Place.view (p : Place) : View := ⟨p.ticket, p.care⟩

/-- The `Impl` as the descriptor sees it. -/
structure Shared where
  ctx : Bool
  fd : Int
  waiters : Int
  retiredFd : Int

def State.shared (s : State ι) : Shared := ⟨s.ctx, s.fd, s.waiters, s.retiredFd⟩

def State.view (s : State ι) (i : ι) : View := (s.parties i).place.view

inductive Label where
  | none
  | takes
  | closes (fd : Int)

def Label.closed : Label → List Int
  | .closes fd => [fd]
  | _ => []

def Label.taken : Label → ι → List ι
  | .takes, i => [i]
  | _, _ => []

/-- What a step can do to the `Impl` and to the party that takes it. -/
inductive Touch : Shared → View → Label → Shared → View → Prop
  | quiet {c v} : Touch c v .none c v
  /-- a ticket is taken -/
  | enter {c : Shared} : c.ctx = true →
      Touch c ⟨false, .none⟩ .none { c with waiters := c.waiters + 1 } ⟨true, .none⟩
  /-- a ticket goes, and nobody has left a descriptor, or others wait -/
  | leave {c : Shared} : (c.waiters - 1 = 0 → c.retiredFd < 0) →
      Touch c ⟨true, .none⟩ .none
        { c with waiters := c.waiters - 1
                 retiredFd := if c.waiters - 1 = 0 then -1 else c.retiredFd } ⟨false, .none⟩
  /-- the last ticket goes, and takes the descriptor along -/
  | leaveLast {c : Shared} : c.waiters - 1 = 0 → 0 ≤ c.retiredFd →
      Touch c ⟨true, .none⟩ .none { c with waiters := c.waiters - 1, retiredFd := -1 }
        ⟨false, .drops c.retiredFd⟩
  | take {c : Shared} {b} : (c.ctx = true ∨ 0 ≤ c.fd) →
      Touch c ⟨b, .none⟩ .takes { c with ctx := false, fd := -1 } ⟨b, .hand c.fd⟩
  /-- another `close` has been here -/
  | takeNone {c : Shared} {b} : c.ctx = false → c.fd < 0 →
      Touch c ⟨b, .none⟩ .none { c with ctx := false, fd := -1 } ⟨b, .none⟩
  /-- there was a context, but no descriptor -/
  | free {c b fd} : fd < 0 → Touch c ⟨b, .hand fd⟩ .none c ⟨b, .none⟩
  | keep {c : Shared} {b fd} : c.waiters = 0 →
      Touch c ⟨b, .hand fd⟩ .none c ⟨b, .shuts fd⟩
  | retire {c : Shared} {b fd} : c.waiters ≠ 0 →
      Touch c ⟨b, .hand fd⟩ .none { c with retiredFd := fd } ⟨b, .none⟩
  | shut {c b fd} : Touch c ⟨b, .shuts fd⟩ (.closes fd) c ⟨b, .none⟩
  | drop {c b fd} : Touch c ⟨b, .drops fd⟩ (.closes fd) c ⟨b, .none⟩

/-- Who takes a step. -/
def Event.actor : Event ι → ι
  | .start i _ _ | .handshake i _ _ | .allocFails i | .transfer i _ | .register i | .resume i
  | .cancel i | .destroy i | .leave i | .close i _ | .alpnSelected i => i

/-- A step of `i` that does what `l` says. -/
structure Touches (s : State ι) (i : ι) (l : Label) (s' : State ι) : Prop where
  others : ∀ j, j ≠ i → s'.parties j = s.parties j
  touch : Touch s.shared (s.view i) l s'.shared (s'.view i)

variable {s : State ι} {i : ι}

variable {t : State ι} {q : Party} {c : Closer}

/-- A party moves on. -/
theorem Touches.move {l : Label} (ht : t.parties = update s.parties i q)
    (h : Touch s.shared (s.view i) l t.shared q.place.view) : Touches s i l t where
  others j hj := by rw [ht, update_of_ne hj]
  touch := by
    have hq : t.view i = q.place.view := by rw [view, ht, update_self]
    rwa [hq]

/-- A party moves on, and the descriptor does not see it. -/
theorem Touches.quiet (ht : t.parties = update s.parties i q) (hc : t.shared = s.shared)
    (hq : q.place.view = (s.parties i).place.view) : Touches s i .none t :=
  .move ht (by rw [hc, hq]; exact .quiet)

theorem view_finish (job : Job) (r : Result) : (finish job r).view = ⟨false, .none⟩ := by
  unfold finish
  split <;> rfl

theorem view_pastHandshake (job : Job) : (pastHandshake job).view = ⟨false, .none⟩ := by
  cases job <;> rfl

theorem view_left (job : Job) (hs : Bool) (r : Option Result) :
    (left job hs r).view = ⟨false, .none⟩ := by
  cases hs with
  | true => rfl
  | false =>
    cases r with
    | none => rfl
    | some r => exact view_finish job r

/-- The section of `leave`. -/
theorem touches_leave (hi : s.view i = ⟨true, .none⟩) (hs : Bool) (r : Option Result) :
    Touches s i .none (leave s i hs r) := by
  have hshared : (leave s i hs r).shared = { s.shared with
      waiters := s.shared.waiters - 1
      retiredFd := if s.shared.waiters - 1 = 0 then -1 else s.shared.retiredFd } := rfl
  by_cases hlast : s.waiters - 1 = 0 ∧ 0 ≤ s.retiredFd
  · obtain ⟨hw, hr⟩ := hlast
    refine .move (q := { s.parties i with place := .shut hs s.retiredFd r })
      (by simp [leave, put, hw, hr]) ?_
    rw [hi, hshared, if_pos (by exact hw)]
    exact .leaveLast hw hr
  · have hstay : s.waiters - 1 = 0 → s.retiredFd < 0 := fun hw =>
      Int.not_le.1 fun hr => hlast ⟨hw, hr⟩
    have hneg : ¬ 0 ≤ if s.waiters - 1 = 0 then s.retiredFd else -1 := by
      split
      · next hw => exact Int.not_le.2 (hstay hw)
      · decide
    refine .move (q := { s.parties i with place := left (s.parties i).job hs r })
      (by simp [leave, put, hneg]) ?_
    rw [hi, hshared, view_left]
    exact .leave hstay

omit [DecidableEq ι] in
/-- What a step of `close` does, for a party with a ticket or without. -/
theorem touch_closeStep (s : State ι) (retry b : Bool) (c : Closer) : ∃ l : Label,
    Touch s.shared ⟨b, c.care⟩ l (closeStep s retry c).1.shared
      ((closeStep s retry c).2.elim ⟨b, .none⟩ fun c => ⟨b, c.care⟩) ∧
    l.closed = c.closes ∧
    ∀ i : ι, l.taken i = if c = .take ∧ (s.ctx = true ∨ 0 ≤ s.fd) then [i] else [] := by
  cases c with
  | take =>
    by_cases hc : s.ctx = true ∨ 0 ≤ s.fd
    · refine ⟨.takes, ?_, rfl, fun i => (if_pos ⟨rfl, hc⟩).symm⟩
      have hnext : (closeStep s retry .take).2 = some (.notify s.fd) ∨
          (closeStep s retry .take).2 = some (.wake s.fd) := by
        by_cases hctx : s.ctx = true
        · exact .inl (if_pos hctx)
        · exact .inr ((if_neg hctx).trans (if_pos (hc.resolve_left hctx)))
      obtain h | h := hnext <;> rw [h] <;> exact .take hc
    · obtain ⟨hctx, hfd⟩ := not_or.1 hc
      refine ⟨.none, ?_, rfl, fun i => (if_neg fun h => hc h.2).symm⟩
      have hnext : (closeStep s retry .take).2 = none := (if_neg hctx).trans (if_neg hfd)
      rw [hnext]
      exact .takeNone (Bool.eq_false_iff.2 hctx) (Int.not_le.1 hfd)
  | notify fd =>
    refine ⟨.none, ?_, rfl, fun i => rfl⟩
    by_cases hr : retry = true ∧ 0 ≤ fd
    · rw [show closeStep s retry (.notify fd) = (s, some (.notifyAgain fd)) by simp [hr]]
      exact .quiet
    · rw [show closeStep s retry (.notify fd) = (s, some (.free fd)) by simp [hr]]
      exact .quiet
  | notifyAgain | wake => exact ⟨.none, .quiet, rfl, fun i => rfl⟩
  | free fd =>
    refine ⟨.none, ?_, rfl, fun i => rfl⟩
    by_cases hfd : 0 ≤ fd
    · rw [show closeStep s retry (.free fd) = (s, some (.wake fd)) by simp [hfd]]
      exact .quiet
    · rw [show closeStep s retry (.free fd) = (s, none) by simp [hfd]]
      exact .free (Int.not_le.1 hfd)
  | retire fd =>
    refine ⟨.none, ?_, rfl, fun i => rfl⟩
    by_cases hw : s.waiters = 0
    · rw [show closeStep s retry (.retire fd) = (s, some (.shut fd)) by simp [hw]]
      exact .keep hw
    · rw [show closeStep s retry (.retire fd) = ({ s with retiredFd := fd }, none) by simp [hw]]
      exact .retire hw
  | shut fd => exact ⟨.closes fd, .shut, rfl, fun i => rfl⟩

omit [DecidableEq ι] in
theorem parties_closeStep (s : State ι) (retry : Bool) (c : Closer) :
    (closeStep s retry c).1.parties = s.parties := by
  cases c with
  | retire =>
    rw [closeStep]
    split <;> rfl
  | _ => rfl

omit [DecidableEq ι] in
theorem closesAt_close {retry : Bool} (h : (s.parties i).place.closer = some c) :
    closesAt s (.close i retry) = c.closes := by
  simp only [closesAt, h]
  cases c <;> rfl

/-- A step of `close`, called for itself or by a failed handshake: `back` is where the party goes
when it returns. -/
theorem touches_closeStep {retry b : Bool} {back : Place} {into : Closer → Place}
    (hc : (s.parties i).place.closer = some c) (hview : s.view i = ⟨b, c.care⟩)
    (hback : back.view = ⟨b, .none⟩) (hinto : ∀ c, (into c).view = ⟨b, c.care⟩) : ∃ l,
      Touches s i l ((closeStep s retry c).1.put i ((closeStep s retry c).2.elim back into)) ∧
      closesAt s (.close i retry) = l.closed ∧ takesAt s (.close i retry) = l.taken i := by
  obtain ⟨l, ht, hl, htaken⟩ := touch_closeStep s retry b c
  have hplace : ((closeStep s retry c).2.elim back into).view =
      (closeStep s retry c).2.elim ⟨b, .none⟩ fun c => ⟨b, c.care⟩ := by
    cases (closeStep s retry c).2 with
    | none => exact hback
    | some c' => exact hinto c'
  refine ⟨l, .move (q := { s.parties i with place := (closeStep s retry c).2.elim back into }) ?_
    ?_,
    ?_, ?_⟩
  · simp only [put, parties_closeStep]
  · rw [hview, hplace]
    exact ht
  · rw [closesAt_close hc, hl]
  · rw [htaken]
    simp only [takesAt, hc, Option.some.injEq]

/-- **Every step is a touch.** -/
theorem touches_of_step {s' : State ι} {e : Event ι} (h : step s e = some s') :
    ∃ l, Touches s e.actor l s' ∧ closesAt s e = l.closed ∧ takesAt s e = l.taken e.actor := by
  cases e with
  | leave i =>
    cases hp : (s.parties i).place with
    | hsLeave r | leave r =>
      simp only [step, hp] at h
      cases h
      have hview : s.view i = ⟨true, .none⟩ := by rw [view, hp]; rfl
      refine ⟨.none, touches_leave hview _ r, ?_, rfl⟩
      simp only [closesAt, hp]
      rfl
    | shut hs fd =>
      simp only [step, hp] at h
      cases h
      have hview : s.view i = ⟨false, .drops fd⟩ := by rw [view, hp]; rfl
      refine ⟨.closes fd, ?_, ?_, rfl⟩
      · refine .move (i := i) rfl ?_
        rw [hview, view_left]
        exact .drop
      · simp only [closesAt, hp]
        rfl
    | _ => simp [step, hp] at h
  | close i =>
    cases hp : (s.parties i).place with
    | close c =>
      simp only [step, hp] at h
      cases h
      have hview : s.view i = ⟨false, c.care⟩ := by rw [view, hp]; rfl
      have hc : (s.parties i).place.closer = some c := by rw [hp]; rfl
      exact touches_closeStep hc hview rfl fun _ => rfl
    | hsClose f last c =>
      simp only [step, hp] at h
      cases h
      have hview : s.view i = ⟨true, c.care⟩ := by rw [view, hp]; rfl
      have hc : (s.parties i).place.closer = some c := by rw [hp]; rfl
      refine touches_closeStep hc hview ?_ fun _ => rfl
      split <;> rfl
    | _ => simp [step, hp] at h
  | alpnSelected =>
    cases h
    exact ⟨.none, ⟨fun _ _ => rfl, .quiet⟩, rfl, rfl⟩
  | _ =>
    -- in all other events a party moves on unseen, or takes a ticket while the context is there
    refine ⟨.none, ?_, rfl, rfl⟩
    simp only [step, interrupt, transfer] at h
    repeat' split at h
    all_goals cases h
    all_goals first
      | exact .quiet rfl rfl (by simp only [Event.actor, *]; rfl)
      | exact .quiet rfl rfl (by simp only [Event.actor, *]; exact view_finish _ _)
      | exact .quiet rfl rfl (by simp only [Event.actor, *]; exact view_pastHandshake _)
      | refine .move rfl ?_
        simp only [view, Event.actor, *]
        exact .enter ‹_›
      | exact .quiet rfl rfl (by simp only [Event.actor, *])

end Manwe.TlsStream
