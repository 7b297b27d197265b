import Manwe.Transition.Tally
import Manwe.Yarn.ParkBase.Runs

/-!
# Running a function once

`AsyncOnce::callOnce` is a loop. In each round a fresh awaiter looks at the state: the first
caller that finds it `Idle` becomes the **runner**, a caller that finds it `Done` is through, and
the others park until the runner has finished and then look again. The runner writes the outcome of
its function outside the lock and then sets `Done` under it, or `Idle` if the function was
cancelled. If the runner's frame is destroyed inside the function, a guard sets `Idle`.

An awaiter is named by its caller and its round. The awaiters park at a `Resource` whose own state
is the phase of the machine together with the role each awaiter was given; leaving the queue and
giving back a wake change nothing. Around them stand the callers, with the control points of the
loop, and the field `exception`.

**One owner** is the invariant: while the phase is `Running` there is exactly one caller that will
end it, wherever it stands between its look and the end of its section.
-/

namespace Manwe.AsyncOnce

open Function List Option ParkBase

variable {κ χ : Type*}

/-- `AsyncOnce::State`. -/
inductive Phase
  | idle
  | running
  | done
  deriving DecidableEq

/-- `AsyncOnceAwaiter::Role`. -/
inductive Role
  | firstCaller
  | alreadyDone
  | park
  deriving DecidableEq

/-- The phase, and what each awaiter has been told to do. -/
structure Once (κ : Type*) where
  phase : Phase := .idle
  role : κ × ℕ → Role := fun _ => .park

section Resource

variable [DecidableEq κ]

/-- The look of an awaiter. A look that finds `Running` leaves the role at its first value. -/
def look (i : κ × ℕ) (o : Once κ) : Option (Once κ) := match o.phase with
  | .idle => some { phase := .running, role := update o.role i .firstCaller }
  | .done => some { o with role := update o.role i .alreadyDone }
  | .running => none

def resource : Resource (Once κ) (κ × ℕ) where
  tryNow i o _ := look i o
  fixup o ws := ⟨o, [], ws⟩
  giveBack _ o ws := ⟨o, [], ws⟩
  fixup_split _ _ := rfl
  giveBack_split _ _ _ := rfl

end Resource

/-- Where a caller of `callOnce` stands; `χ` is the type of exceptions. -/
inductive Pc (χ : Type*)
  /-- awaiting in some round -/
  | looking
  /-- inside `fn` -/
  | running
  /-- `fn` is over, and was cancelled or not; the locked section comes next -/
  | leaving (runnerCancelled : Bool)
  /-- the frame was destroyed inside `fn`; the guard's section comes next -/
  | dying
  /-- out of the loop; `exception` is read next -/
  | finishing
  | returned
  | rethrew (x : χ)
  | cancelled
  | destroyed
  deriving DecidableEq

structure State (κ : Type*) (χ : Type*) where
  base : ParkBase.State (Once κ) (κ × ℕ) := { res := {} }
  round : κ → ℕ := fun _ => 0
  pc : κ → Pc χ := fun _ => .looking
  exception : Option χ := none

inductive Event (κ : Type*) (χ : Type*)
  | await (e : ParkBase.Event (κ × ℕ))
  /-- `co_await aw` is over -/
  | next (k : κ)
  | fnReturn (k : κ)
  | fnThrow (k : κ) (x : χ)
  | fnCancel (k : κ)
  | leave (k : κ)
  | finish (k : κ)
  /-- the frame is destroyed while suspended inside `fn` -/
  | destroy (k : κ)
  | guard (k : κ)

section Step

variable [DecidableEq κ]

/-- The awaiter of the caller's current round. -/
def State.awaiter (s : State κ χ) (k : κ) : Call := s.base.calls (k, s.round k)

def State.role (s : State κ χ) (k : κ) : Role := s.base.res.role (k, s.round k)

def State.put (s : State κ χ) (k : κ) (pc : Pc χ) : State κ χ := { s with pc := update s.pc k pc }

/-- The locked section in which a run ends: everybody looks again. -/
def State.endRun (s : State κ χ) (phase : Phase) : State κ χ :=
  { s with base := s.base.serve ⟨{ s.base.res with phase }, s.base.waiters, []⟩ }

/-- The loop body after `co_await aw`. -/
def next (s : State κ χ) (k : κ) : Option (State κ χ) := match (s.awaiter k).pc with
  | .holding =>
    match s.role k with
    | .park => some { s with round := update s.round k (s.round k + 1) }
    | .firstCaller => some (s.put k .running)
    | .alreadyDone => some (s.put k .finishing)
  | .threw => some (s.put k .cancelled)
  | .idle | .arming | .parked | .resuming | .revoking | .finished | .destroyed => none

/-- The caller is where its awaiter of round `r` is created. -/
def State.enters (s : State κ χ) (i : κ × ℕ) : Bool := match s.pc i.1 with
  | .looking => s.round i.1 = i.2
  | _ => false

def step (s : State κ χ) : Event κ χ → Option (State κ χ)
  | .await e =>
    if (begins e).all s.enters then
      (act resource s.base e).map fun a => { s with base := a.next }
    else none
  | .next k =>
    match s.pc k with
    | .looking => next s k
    | _ => none
  | .fnReturn k =>
    match s.pc k with
    | .running => some (s.put k (.leaving false))
    | _ => none
  | .fnThrow k x =>
    match s.pc k with
    | .running => some { s.put k (.leaving false) with exception := some x }
    | _ => none
  | .fnCancel k =>
    match s.pc k with
    | .running => some (s.put k (.leaving true))
    | _ => none
  | .leave k =>
    match s.pc k with
    | .leaving true => some ((s.endRun .idle).put k .cancelled)
    | .leaving false => some ((s.endRun .done).put k .finishing)
    | _ => none
  | .finish k =>
    match s.pc k with
    | .finishing => some (s.put k (s.exception.elim .returned .rethrew))
    | _ => none
  | .destroy k =>
    match s.pc k with
    | .running => some (s.put k .dying)
    | _ => none
  | .guard k =>
    match s.pc k with
    | .dying => some ((s.endRun .idle).put k .destroyed)
    | _ => none

/-- What holds of the caller that moves and of all others holds of every caller. -/
theorem forall_put {s : State κ χ} {k : κ} {pc : Pc χ} {P : κ → Pc χ → Prop} (hk : P k pc)
    (h : ∀ j, j ≠ k → P j (s.pc j)) (j : κ) : P j ((s.put k pc).pc j) := by
  obtain rfl | hj := eq_or_ne j k
  · simpa [State.put] using hk
  · simpa [State.put, hj] using h j hj

end Step

/-! ### What an awaiter does to the phase -/

section Look

variable [DecidableEq κ] {s : ParkBase.State (Once κ) (κ × ℕ)} {i : κ × ℕ}

theorem look_eq_none {o : Once κ} (h : look i o = none) : o.phase = .running := by
  unfold look at h
  split at h <;> simp_all

/-- An awaiter that is let through, whose look has changed `s.res` to `o`. -/
structure LetThrough (s : ParkBase.State (Once κ) (κ × ℕ)) (i : κ × ℕ) (o : Once κ)
    (t : ParkBase.State (Once κ) (κ × ℕ)) : Prop where
  look : look i s.res = some o
  arrived : (s.calls i).arrived = false
  next : t = { s.set i { s.calls i with pc := .resuming } with res := o }

/-- The queue gets longer only while somebody runs. -/
structure Unmoved (s t : ParkBase.State (Once κ) (κ × ℕ)) : Prop where
  res : t.res = s.res
  waiters : s.res.phase = .running ∨ t.waiters.Sublist s.waiters

theorem park_once (hi : (s.calls i).arrived = false) (core : Option Bool) (armed : Bool) :
    (∃ o, LetThrough s i o (park resource s i core armed).next) ∨
      Unmoved s (park resource s i core armed).next := by
  rcases park_cases resource s i core armed with hp | ⟨o, ho, hp⟩ | ⟨hn, hp⟩ | hp
  · exact .inr (hp ▸ ⟨rfl, .inr (Sublist.refl _)⟩)
  · exact .inl ⟨o, hp ▸ ⟨ho, hi, rfl⟩⟩
  · exact .inr (hp ▸ ⟨rfl, .inl (look_eq_none hn)⟩)
  · exact .inr (hp ▸ ⟨rfl, .inr (Sublist.refl _)⟩)

/-- **A step of the awaiters** lets one of them through or leaves the phase and the roles alone. -/
theorem act_once {e : ParkBase.Event (κ × ℕ)} {a : Act (Once κ) (κ × ℕ)}
    (ha : act resource s e = some a) :
    (∃ i o, LetThrough s i o a.next ∧ (begins e = some i ∨ (s.calls i).pc = .arming)) ∨
      Unmoved s a.next := by
  have hsame : ∀ {t : ParkBase.State (Once κ) (κ × ℕ)}, t.res = s.res →
      t.waiters.Sublist s.waiters → Unmoved s t := fun hr hw => ⟨hr, .inr hw⟩
  cases e with obtain ⟨hpc, rfl⟩ := of_guard ha
  | park i core =>
    have hp := park_once (s := s) (i := i) (by simp [Call.arrived, hpc]) core false
    refine hp.imp_left ?_
    rintro ⟨o, ho⟩
    exact ⟨i, o, ho, .inl rfl⟩
  | retry i =>
    have hp := park_once (s := s) (i := i) (by simp [Call.arrived, hpc]) (some false) true
    refine hp.imp_left ?_
    rintro ⟨o, ho⟩
    exact ⟨i, o, ho, .inr hpc⟩
  | cancel i =>
    dsimp only [cancelThunk]
    split
    · exact .inr (hsame rfl (withdraw_sublist i _))
    · exact .inr (hsame rfl (Sublist.refl _))
  | wake | resume | revoke => exact .inr (hsame rfl (Sublist.refl _))
  | destroy i =>
    dsimp only [abandon]
    split
    · exact .inr (hsame rfl (withdraw_sublist i _))
    split <;> exact .inr (hsame rfl (Sublist.refl _))

/-- A look tells only the awaiter that looks. -/
theorem role_of_look {o : Once κ} (h : look i s.res = some o) {j : κ × ℕ} (hj : j ≠ i) :
    o.role j = s.res.role j := by
  unfold look at h
  split at h
  · cases h
    simp [hj]
  · cases h
    simp [hj]
  · simp at h

end Look

/-! ### Rounds

Before its current round a caller's awaiters have returned, after it they have not begun, and a
caller that is out of the loop has its last awaiter behind it. An awaiter with a role other than
`park` has been let through. -/

structure Rounds (s : State κ χ) : Prop where
  base : ParkBase.Inv s.base
  through : ∀ {i}, s.base.res.role i ≠ .park → (s.base.calls i).Through
  behind : ∀ {k r}, r < s.round k → (s.base.calls (k, r)).pc = .holding
  ahead : ∀ {k r}, s.round k < r → (s.base.calls (k, r)).pc = .idle
  left : ∀ {k}, s.pc k ≠ .looking → (s.awaiter k).pc = .holding ∨ (s.awaiter k).pc = .threw

namespace Rounds

theorem init : Rounds ({} : State κ χ) := ⟨ParkBase.inv_init _, by simp, by simp, by simp, by simp⟩

variable [DecidableEq κ] {s : State κ χ} {k : κ}

theorem put (h : Rounds s) (hk : (s.awaiter k).pc = .holding ∨ (s.awaiter k).pc = .threw)
    (pc : Pc χ) : Rounds (s.put k pc) := by
  refine ⟨h.base, h.through, h.behind, h.ahead, fun {j} hj => ?_⟩
  exact forall_put (P := fun j x => x ≠ .looking →
    (s.awaiter j).pc = .holding ∨ (s.awaiter j).pc = .threw) (fun _ => hk) (fun _ _ => h.left) j hj

variable (h : Rounds s)

include h

theorem endRun (phase : Phase) : Rounds (s.endRun phase) := by
  have hpc := pc_serve s.base ⟨{ s.base.res with phase }, s.base.waiters, []⟩
  refine ⟨h.base.serve (by simp), fun {i} hi => through_serve (h.through hi),
    fun hr => (hpc _).trans (h.behind hr), fun hr => (hpc _).trans (h.ahead hr), fun {j} hj => ?_⟩
  exact (hpc (j, s.round j)).symm ▸ h.left hj

/-- The next round. -/
theorem turn (hk : (s.awaiter k).pc = .holding) (hl : s.pc k = .looking) :
    Rounds { s with round := update s.round k (s.round k + 1) } := by
  refine ⟨h.base, h.through, fun {j r} hr => ?_, fun {j r} hr => ?_, fun {j} hj => ?_⟩
  · obtain rfl | hjk := eq_or_ne j k
    · simp only [update_self] at hr
      rcases Nat.lt_succ_iff_lt_or_eq.mp hr with hr | rfl
      · exact h.behind hr
      · exact hk
    · exact h.behind (by simpa [hjk] using hr)
  · obtain rfl | hjk := eq_or_ne j k
    · simp only [update_self] at hr
      exact h.ahead (by omega)
    · exact h.ahead (by simpa [hjk] using hr)
  · have hjk : j ≠ k := fun e => hj (e ▸ hl)
    simpa [State.awaiter, hjk] using h.left hj

omit [DecidableEq κ] in
/-- A call that has not arrived is the awaiter of its caller's current round. -/
theorem current {i : κ × ℕ} (hi : (s.base.calls i).arrived = false)
    (hr : i.2 ≤ s.round i.1) : s.pc i.1 = .looking ∧ s.round i.1 = i.2 := by
  have hround : s.round i.1 = i.2 := by
    by_contra hne
    simp [Call.arrived, h.behind (k := i.1) (r := i.2) (by omega)] at hi
  refine ⟨?_, hround⟩
  by_contra hl
  rcases h.left hl with hp | hp
  all_goals
    simp only [State.awaiter, hround] at hp
    simp [Call.arrived, hp] at hi

/-- **A step of the awaiters** keeps the rounds. -/
theorem await {e : ParkBase.Event (κ × ℕ)} {a : Act (Once κ) (κ × ℕ)}
    (ha : act resource s.base e = some a)
    (hin : (begins e).all s.enters = true) : Rounds { s with base := a.next } := by
  have hk := act_keeps ha
  have hover : ∀ {i}, (s.base.calls i).pc.settled = true →
      (a.next.calls i).pc = (s.base.calls i).pc := fun {i} hi =>
    (hk i).resolve_right fun hn => Bool.false_ne_true (hn.1.symm.trans hi)
  refine ⟨(act_refines h.base ha).inv, fun {i} hi => ?_, fun {j r} hr => ?_,
    fun {j r} hr => ?_, fun {j} hj => ?_⟩
  · rcases act_once ha with ⟨j, o, hl, -⟩ | hu
    · obtain rfl | hij := eq_or_ne i j
      · simp only [hl.next, State.set, update_self]
        exact ⟨.inl rfl, h.base.live (.inr hl.arrived)⟩
      · refine act_through h.base ha (h.through ?_)
        simpa [hl.next, role_of_look hl.look hij] using hi
    · exact act_through h.base ha (h.through (by simpa [hu.res] using hi))
  · have hb := h.behind hr
    exact (hover (by simp [hb])).trans hb
  · have hb := h.ahead hr
    refine ((hk (j, r)).resolve_right fun hn => ?_).trans hb
    rw [hn.2 hb] at hin
    simp only [all_some, State.enters] at hin
    split at hin
    · exact absurd hr (by simpa using (by simpa using hin : s.round j = r).ge)
    · simp at hin
  · rcases h.left hj with hb | hb
    · exact .inl ((hover (by simp [show (s.base.calls _).pc = _ from hb])).trans hb)
    · exact .inr ((hover (by simp [show (s.base.calls _).pc = _ from hb])).trans hb)

end Rounds

/-! ### One owner -/

/-- A caller at this control point, whose awaiter has this role, will end the run. -/
@[simp] def owns : Pc χ → Role → Bool
  | .looking, r => r = .firstCaller
  | .running, _ | .leaving _, _ | .dying, _ => true
  | .finishing, _ | .returned, _ | .rethrew _, _ | .cancelled, _ | .destroyed, _ => false

@[simp] def State.Owner (s : State κ χ) (k : κ) : Prop := owns (s.pc k) (s.role k) = true

def Phase.owners : Phase → ℕ
  | .running => 1
  | .idle | .done => 0

/-- Some function has returned or thrown. -/
@[simp] def State.Decided (s : State κ χ) : Prop :=
  s.base.res.phase = .done ∨ ∃ k, s.pc k = .leaving false

/-- A caller that is through has found `Done`, and has seen what is in `exception`. -/
@[simp] def Sees (s : State κ χ) : Pc χ → Prop
  | .finishing => s.base.res.phase = .done
  | .returned => s.base.res.phase = .done ∧ s.exception = none
  | .rethrew x => s.base.res.phase = .done ∧ s.exception = some x
  | .looking | .running | .leaving _ | .dying | .cancelled | .destroyed => True

/-- The invariant; `outs` are the outcomes of the functions so far, `none` for a return. -/
structure Inv (outs : List (Option χ)) (s : State κ χ) : Prop where
  rounds : Rounds s
  owner : Tally s.Owner s.base.res.phase.owners
  queue : s.base.res.phase ≠ .running → s.base.waiters = []
  decided : s.Decided → outs = [s.exception]
  undecided : ¬ s.Decided → outs = [] ∧ s.exception = none
  told : ∀ {i}, s.base.res.role i = .alreadyDone → s.base.res.phase = .done
  sees : ∀ k, Sees s (s.pc k)

theorem inv_init : Inv [] ({} : State κ χ) where
  rounds := .init
  owner := .zero fun k => by simp [State.role]
  queue _ := rfl
  decided h := by simp at h
  undecided _ := ⟨rfl, rfl⟩
  told h := by simp at h
  sees _ := trivial

namespace Inv

variable {outs : List (Option χ)} {s : State κ χ} {k : κ}

variable (h : Inv outs s) (hk : s.Owner k)

include h hk

theorem running : s.base.res.phase = .running := by
  have hpos := h.owner.pos hk
  cases hp : s.base.res.phase <;> simp_all [Phase.owners]

theorem unique {j : κ} (hj : s.Owner j) : j = k := by
  have hone := h.owner
  rw [h.running hk] at hone
  exact hone.eq_of_one hj hk

/-- While the owner is not about to leave with a verdict there is none. -/
theorem none_of_owner (hpc : s.pc k ≠ .leaving false) : outs = [] ∧ s.exception = none := by
  refine h.undecided ?_
  rintro (hd | ⟨j, hj⟩)
  · simp [h.running hk] at hd
  · exact hpc (h.unique hk (j := j) (by simp [hj]) ▸ hj)

variable [DecidableEq κ]

variable {pc : Pc χ} {t : State κ χ}

omit h hk

omit [DecidableEq κ] in
theorem sees_congr (hp : t.base.res.phase = s.base.res.phase) (he : t.exception = s.exception)
    (h : Sees s pc) : Sees t pc := by
  cases pc <;> simp_all

/-- A caller goes on without entering or leaving the run, and without a verdict. -/
theorem put (h : Inv outs s) (ho : owns pc (s.role k) = owns (s.pc k) (s.role k))
    (hk : s.pc k ≠ .leaving false) (hpc : pc ≠ .leaving false) (hsee : Sees s pc)
    (haw : (s.awaiter k).pc = .holding ∨ (s.awaiter k).pc = .threw) : Inv outs (s.put k pc) := by
  have hleaving : ∀ j, (s.put k pc).pc j = .leaving false ↔ s.pc j = .leaving false :=
    forall_put (P := fun j x => x = .leaving false ↔ s.pc j = .leaving false)
      (iff_of_false hpc hk) fun _ _ => Iff.rfl
  have hdec : (s.put k pc).Decided ↔ s.Decided := or_congr Iff.rfl (exists_congr hleaving)
  refine ⟨h.rounds.put haw pc, h.owner.congr ?_, h.queue, fun hd => h.decided (hdec.mp hd),
    fun hd => h.undecided (mt hdec.mpr hd), h.told, ?_⟩
  · refine forall_put (P := fun j x => owns x (s.role j) = true ↔ s.Owner j) ?_ fun _ _ => Iff.rfl
    rw [ho]
    rfl
  · exact forall_put (sees_congr rfl rfl hsee) fun j _ => sees_congr rfl rfl (h.sees j)

omit [DecidableEq κ] in
/-- Nobody has seen a verdict while the run goes on. -/
theorem sees_of_running (h : Inv outs s) (hrun : s.base.res.phase = .running) (j : κ) :
    Sees t (s.pc j) := by
  have hj := h.sees j
  cases hpc : s.pc j <;> simp_all

/-- The function of the owner is over, with outcome `o`. -/
theorem decide (h : Inv outs s) (hpc : s.pc k = .running) (o : Option χ) :
    Inv (outs ++ [o]) { s.put k (.leaving false) with exception := o } := by
  have hown : s.Owner k := by simp [hpc]
  obtain ⟨rfl, -⟩ := h.none_of_owner hown (by simp [hpc])
  have hrounds := h.rounds.put (h.rounds.left (k := k) (by simp [hpc])) (.leaving false)
  refine ⟨⟨hrounds.base, hrounds.through, hrounds.behind, hrounds.ahead, hrounds.left⟩,
    h.owner.congr ?_, h.queue, fun _ => rfl, fun hd => ?_, h.told, ?_⟩
  · exact forall_put (P := fun j x => owns x (s.role j) = true ↔ s.Owner j)
      (iff_of_true rfl hown) fun _ _ => Iff.rfl
  · exact absurd (.inr ⟨k, by simp [State.put]⟩) hd
  · exact forall_put trivial fun j _ => h.sees_of_running (h.running hown) j

/-- **The section that ends a run**: the owner leaves, everybody else looks again. -/
theorem endRun (h : Inv outs s) (hown : s.Owner k) {phase : Phase} (hlook : s.pc k ≠ .looking)
    (hphase : phase ≠ .running) (hpc : owns pc (s.role k) = false) (hsee : Sees (s.endRun phase) pc)
    (hverdict : phase = .done ↔ s.pc k = .leaving false) :
    Inv outs ((s.endRun phase).put k pc) := by
  have hrun := h.running hown
  have hother : ∀ j, ¬ owns (((s.endRun phase).put k pc).pc j) (s.role j) = true :=
    forall_put (P := fun j x => ¬ owns x (s.role j) = true) (by rw [hpc]; nofun)
      fun j hj hjo => hj (h.unique hown hjo)
  refine ⟨?_, ?_, fun _ => rfl, fun hd => ?_, fun hd => ?_, fun {i} hi => ?_, ?_⟩
  · exact (h.rounds.endRun phase).put ((h.rounds.endRun phase).left hlook) pc
  · have hzero : phase.owners = 0 := by cases phase <;> simp_all [Phase.owners]
    change Tally _ phase.owners
    rw [hzero]
    exact .zero hother
  · rcases hd with hd | ⟨j, hj⟩
    · exact h.decided (.inr ⟨k, hverdict.mp hd⟩)
    · exact absurd (by simp [hj]) (hother j)
  · exact h.none_of_owner hown fun hk => hd (.inl (hverdict.mpr hk))
  · exact absurd (h.told hi) (by simp [hrun])
  · exact forall_put (sees_congr rfl rfl hsee) fun j _ => h.sees_of_running hrun j

/-- A parked caller was woken and looks again. -/
theorem turn (h : Inv outs s) (haw : (s.awaiter k).pc = .holding) (hl : s.pc k = .looking)
    (hrole : s.role k = .park) : Inv outs { s with round := update s.round k (s.round k + 1) } := by
  have hfresh : s.base.res.role (k, s.round k + 1) = .park := by
    by_contra hne
    exact (h.rounds.through hne).ne (by simp) (by simp) (h.rounds.ahead (Nat.lt_succ_self _))
  refine ⟨h.rounds.turn haw hl, h.owner.congr fun j => ?_, h.queue, h.decided, h.undecided, h.told,
    fun j => sees_congr rfl rfl (h.sees j)⟩
  obtain rfl | hjk := eq_or_ne j k
  · unfold State.role at hrole
    simp [State.role, hl, hfresh, hrole]
  · simp [State.role, hjk]

section LetThrough

variable {i : κ × ℕ} {t : ParkBase.State (Once κ) (κ × ℕ)}

/-- The awaiter of round `i.2` found `Idle`: its caller is the owner from now on. -/
theorem firstLook (h : Inv outs s) (hp : s.base.res.phase = .idle)
    (ht : t.res = { phase := .running, role := update s.base.res.role i .firstCaller })
    (hr : Rounds { s with base := t }) (hlook : s.pc i.1 = .looking) (hround : s.round i.1 = i.2) :
    Inv outs { s with base := t } := by
  have hnone := h.owner
  rw [hp] at hnone
  have hundecided : ¬ s.Decided := by
    rintro (hd | ⟨j, hj⟩)
    · simp [hp] at hd
    · exact hnone.none_of_zero j (by simp [hj])
  refine ⟨hr, ?_, fun hn => absurd (by rw [ht]) hn, fun hd => ?_, fun _ => h.undecided hundecided,
    fun {j} hj => ?_, fun k => ?_⟩
  · simp only [ht]
    refine hnone.insert (hnone.none_of_zero i.1) fun k => ?_
    obtain rfl | hk := eq_or_ne k i.1
    · simp [State.role, ht, hlook, hround]
    · have hne : (k, s.round k) ≠ i := fun e => hk (congrArg Prod.fst e)
      simp [State.role, ht, hne, hk]
  · rcases hd with hd | hd
    · simp [ht] at hd
    · exact absurd (.inr hd) hundecided
  · simp only [ht] at hj
    by_cases hji : j = i
    · simp [hji] at hj
    · have hdone := h.told (by simpa [hji] using hj)
      simp [hp] at hdone
  · have hs := h.sees k
    cases hpk : s.pc k <;> simp_all

/-- The awaiter of round `i.2` found `Done`. -/
theorem lateLook (h : Inv outs s) (hp : s.base.res.phase = .done)
    (ht : t.res = { s.base.res with role := update s.base.res.role i .alreadyDone })
    (hw : t.waiters = s.base.waiters) (hr : Rounds { s with base := t })
    (hpark : s.base.res.role i = .park) : Inv outs { s with base := t } := by
  refine ⟨hr, ?_, fun hn => ?_, fun _ => h.decided (.inl hp), fun hd => ?_, fun _ => ?_,
    fun k => sees_congr (s := s) (by rw [ht]) rfl (h.sees k)⟩
  · simp only [ht]
    refine h.owner.congr fun k => ?_
    by_cases hk : (k, s.round k) = i
    · cases hpc : s.pc k <;> simp [State.role, ht, hk, hpark, hpc]
    · simp [State.role, ht, hk]
  · exact hw.trans (h.queue (by simp [hp]))
  · exact absurd (.inl (by simp [ht, hp])) hd
  · simp [ht, hp]

/-- An awaiter that is let through found `Idle` or `Done`. -/
theorem letThrough (h : Inv outs s) {o : Once κ} (hl : LetThrough s.base i o t)
    (hr : Rounds { s with base := t }) (hlook : s.pc i.1 = .looking)
    (hround : s.round i.1 = i.2) : Inv outs { s with base := t } := by
  have hres : t.res = o := by rw [hl.next]
  have hpark : s.base.res.role i = .park := by
    by_contra hne
    have harr := hl.arrived
    rcases (h.rounds.through hne).pc with hp | hp <;> simp [Call.arrived, hp] at harr
  have hseen := hl.look
  unfold look at hseen
  split at hseen
  · rename_i hp
    exact h.firstLook hp (hres.trans (some.inj hseen).symm) hr hlook hround
  · rename_i hp
    exact h.lateLook hp (hres.trans (some.inj hseen).symm) (by simp [hl.next]) hr hpark
  · simp at hseen

end LetThrough

theorem await (h : Inv outs s) {e : ParkBase.Event (κ × ℕ)} {a : Act (Once κ) (κ × ℕ)}
    (ha : act resource s.base e = some a)
    (hin : (begins e).all s.enters = true) : Inv outs { s with base := a.next } := by
  have hr := h.rounds.await ha hin
  rcases act_once ha with ⟨i, o, hl, hi⟩ | hu
  · have hle : i.2 ≤ s.round i.1 := by
      rcases hi with hi | hi
      · simp only [hi, all_some, State.enters] at hin
        split at hin
        · exact (by simpa using hin : s.round i.1 = i.2).ge
        · simp at hin
      · by_contra hlt
        have := h.rounds.ahead (k := i.1) (r := i.2) (by omega)
        simp [hi] at this
    obtain ⟨hlook, hround⟩ := h.rounds.current hl.arrived hle
    exact h.letThrough hl hr hlook hround
  · refine ⟨hr, ?_, fun hn => ?_, fun hd => h.decided ?_, fun hd => h.undecided ?_,
      fun {i} hi => ?_, fun k => ?_⟩
    · simp only [hu.res]
      exact h.owner.congr fun k => by simp [State.role, hu.res]
    · simp only [hu.res] at hn
      have hsub := hu.waiters.resolve_left hn
      rw [h.queue hn] at hsub
      exact sublist_nil.mp hsub
    · simpa [hu.res] using hd
    · simpa [hu.res] using hd
    · simp only [hu.res] at hi ⊢
      exact h.told hi
    · exact sees_congr (s := s) (by rw [hu.res]) rfl (h.sees k)

end Inv

/-! ### Whole runs -/

section Runs

variable [DecidableEq κ]

/-- The outcome of a function that ends in this step; `none` for a return. -/
def outcome : Event κ χ → List (Option χ)
  | .fnReturn _ => [none]
  | .fnThrow _ x => [some x]
  | .await _ | .next _ | .fnCancel _ | .leave _ | .finish _ | .destroy _ | .guard _ => []

/-- What the functions of a run have returned or thrown, cancellations apart. -/
def outcomes : List (State κ χ × Event κ χ) → List (Option χ) := logOf fun _ e => outcome e

/-- The step starts the function of a caller. -/
def startsFn (s : State κ χ) : Event κ χ → Prop
  | .next k => s.pc k = .looking ∧ (s.awaiter k).pc = .holding ∧ s.role k = .firstCaller
  | _ => False

variable {s t : State κ χ} {outs : List (Option χ)}

theorem inv_next (h : Inv outs s) {k : κ} (hl : s.pc k = .looking) (hs : next s k = some t) :
    Inv outs t := by
  unfold next at hs
  split at hs
  · rename_i haw
    split at hs
    all_goals
      rename_i hrole
      cases hs
    · exact h.turn haw hl hrole
    · exact h.put (by simp [hl, hrole]) (by simp [hl]) (by simp) trivial (.inl haw)
    · exact h.put (by simp [hl, hrole]) (by simp [hl]) (by simp) (h.told hrole) (.inl haw)
  · rename_i haw
    cases hs
    have hrole : s.role k = .park := by
      by_contra hne
      exact (h.rounds.through hne).ne (by simp) (by simp) haw
    exact h.put (by simp [hl, hrole]) (by simp [hl]) (by simp) trivial (.inr haw)
  all_goals simp at hs

theorem inv_step {e : Event κ χ} (h : Inv outs s) (hs : step s e = some t) :
    Inv (outs ++ outcome e) t := by
  have hleft : ∀ {k}, s.pc k ≠ .looking → (s.awaiter k).pc = .holding ∨ (s.awaiter k).pc = .threw :=
    h.rounds.left
  cases e with (simp only [step] at hs; repeat' first | cases hs | split at hs)
  | await =>
    next hin =>
    obtain ⟨a, ha, rfl⟩ := map_eq_some_iff.mp hs
    simpa [outcome] using h.await ha hin
  | next => next hl => simpa [outcome] using inv_next h hl hs
  | fnReturn k =>
    next hpc =>
    have hx := (h.none_of_owner (k := k) (by simp [hpc]) (by simp [hpc])).2
    have hd := h.decide hpc none
    rw [show (none : Option χ) = s.exception from hx.symm] at hd
    rw [outcome, show (none : Option χ) = s.exception from hx.symm]
    exact hd
  | fnThrow k x => next hpc => exact h.decide hpc (some x)
  | fnCancel | destroy =>
    next hpc =>
    rw [outcome, append_nil]
    exact h.put (by simp [hpc]) (by simp [hpc]) (by simp) trivial (hleft (by simp [hpc]))
  | leave | guard =>
    next hpc =>
    rw [outcome, append_nil]
    exact h.endRun (by simp [hpc]) (by simp [hpc]) (by simp) rfl (by trivial) (by simp [hpc])
  | finish k =>
    next hpc =>
    have hdone : s.base.res.phase = .done := by simpa [hpc] using h.sees k
    have hput : ∀ pc : Pc χ, owns pc (s.role k) = false → Sees s pc → Inv outs (s.put k pc) :=
      fun pc ho hsee => h.put (by rw [ho, hpc]; rfl) (by simp [hpc])
        (fun e => by simp [e] at ho) hsee (hleft (by simp [hpc]))
    rw [outcome, append_nil]
    cases hx : s.exception with
    | none | some => exact hput _ rfl ⟨hdone, hx⟩

theorem inv_run {tr : List (State κ χ × Event κ χ)} (hr : Run step {} tr s) :
    Inv (outcomes tr) s := by
  induction hr with
  | start => exact inv_init
  | @next tr s t e hr hs ih =>
    have hlog : outcomes (tr ++ [(s, e)]) = outcomes tr ++ outcome e := by simp [outcomes]
    exact hlog ▸ inv_step ih hs

/-- What `callOnce` promises after the run `tr` to `s`. -/
structure Promise (tr : List (State κ χ × Event κ χ)) (s : State κ χ) : Prop where
  /-- at most one runner is inside its function -/
  alone : ∀ {j k}, s.pc j = .running → s.pc k = .running → j = k
  /-- at most one function ever returns or throws -/
  once : (outcomes tr).length ≤ 1
  /-- after that no function is started -/
  never : ∀ {tr₁ p tr₂}, tr = tr₁ ++ p :: tr₂ → startsFn p.1 p.2 → outcomes tr₁ = []
  /-- a caller that returns has seen that function return -/
  returned : ∀ {k}, s.pc k = .returned → outcomes tr = [none]
  /-- a caller that rethrows has seen that function throw the same -/
  rethrew : ∀ {k x}, s.pc k = .rethrew x → outcomes tr = [some x]
  /-- a runner that was cancelled sets `Idle` -/
  cancelled : ∀ {k}, s.pc k = .leaving true →
    ∃ t, step s (.leave k) = some t ∧ t.base.res.phase = .idle
  /-- the guard of a runner that was destroyed sets `Idle` -/
  destroyed : ∀ {k}, s.pc k = .dying → ∃ t, step s (.guard k) = some t ∧ t.base.res.phase = .idle
  /-- callers are queued only while somebody runs -/
  queued : s.base.waiters ≠ [] → s.base.res.phase = .running
  /-- and then somebody will end the run -/
  owned : s.base.res.phase = .running → ∃ k, s.Owner k

/-- **`callOnce` keeps its promise** in every reachable state, whoever is cancelled or destroyed on
the way. -/
theorem once_safe {tr : List (State κ χ × Event κ χ)} {s : State κ χ} (hr : Run step {} tr s) :
    Promise tr s := by
  have h := inv_run hr
  refine ⟨fun {j k} hj hk => ?_, ?_, fun {tr₁ p tr₂} htr hp => ?_, fun {k} hk => ?_,
    fun {k x} hk => ?_, fun {k} hk => ?_, fun {k} hk => ?_, fun hne => ?_, fun hrun => ?_⟩
  · exact h.unique (by simp [hk]) (by simp [hj])
  · by_cases hd : s.Decided
    · simp [h.decided hd]
    · simp [(h.undecided hd).1]
  · subst htr
    obtain ⟨s', e⟩ := p
    cases e with
    | next k =>
      obtain ⟨hl, -, hrole⟩ :
        s'.pc k = .looking ∧ (s'.awaiter k).pc = .holding ∧ s'.role k = .firstCaller := hp
      exact ((inv_run hr.cut).none_of_owner (k := k) (by simp [hl, hrole]) (by simp [hl])).1
    | _ => exact hp.elim
  · obtain ⟨hdone, hx⟩ : s.base.res.phase = .done ∧ s.exception = none := by
      simpa [hk] using h.sees k
    exact hx ▸ h.decided (.inl hdone)
  · obtain ⟨hdone, hx⟩ : s.base.res.phase = .done ∧ s.exception = some x := by
      simpa [hk] using h.sees k
    exact hx ▸ h.decided (.inl hdone)
  · refine ⟨(s.endRun .idle).put k .cancelled, ?_, rfl⟩
    simp only [step, hk]
  · refine ⟨(s.endRun .idle).put k .destroyed, ?_, rfl⟩
    simp only [step, hk]
  · by_contra hnot
    exact hne (h.queue hnot)
  · have hone := h.owner
    rw [hrun] at hone
    exact hone.exists_of_pos Nat.one_pos

/-- Caller `1` waits for `0`, which is destroyed inside its function. Caller `1` looks again and
runs; its function throws `7`, and so do both `1` and the late caller `2`. -/
def lostRunner : List (Event ℕ ℕ) :=
  [.await (.park (0, 0) none), .await (.resume (0, 0)), .next 0, .await (.park (1, 0) none),
    .destroy 0, .guard 0, .await (.wake (1, 0)), .await (.resume (1, 0)), .next 1,
    .await (.park (1, 1) none), .await (.resume (1, 1)), .next 1, .fnThrow 1 7, .leave 1, .finish 1,
    .await (.park (2, 0) none), .await (.resume (2, 0)), .next 2, .finish 2]

theorem once_safe_lostRunner : ∃ tr s, Run step ({} : State ℕ ℕ) tr s ∧ outcomes tr = [some 7] ∧
    s.pc 0 = .destroyed ∧ s.pc 1 = .rethrew 7 ∧ s.pc 2 = .rethrew 7 ∧ Promise tr s := by
  have hr := Run.of_exec (show exec step ({} : State ℕ ℕ) lostRunner = some _ from rfl)
  exact ⟨_, _, hr, rfl, rfl, rfl, rfl, once_safe hr⟩

end Runs

end Manwe.AsyncOnce
