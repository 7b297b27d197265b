import Mathlib
import Manwe.Yarn.CancelHook.Places

/-!
# After a disarm

The owner of a hook frees it once `disarmCancelHook` has returned, so from then on nobody may run
its callback. A disarm returns because it unlinked the hook itself, because no requester has it any
more, or because it is called from inside a callback on the very thread that took the hook; then the
mark in the hook's slot keeps the requester away. The last needs a slot to mark: every hook that a
requester has taken must have one before it calls the first of them.
-/

namespace Manwe.CancelHook

open Function List State RequestPc

variable {τ ι ρ θ : Type*}

/-! ### What the callers promise -/

/-- No arm is in progress, unless its inline callback runs on the thread itself. -/
def ArmPc.quiet (t : θ) : ArmPc τ θ → Prop
  | .idle | .returned => True
  | .inline u => u = t
  | .linking _ | .walking _ _ => False

def DisarmPc.busy : DisarmPc τ θ → Bool
  | .locking _ _ | .checking _ | .spinning _ => true
  | .idle | .returned _ => false

def DisarmPc.called : DisarmPc τ θ → Bool
  | .idle => false
  | _ => true

namespace RequestPc

/-- The thread of the call is in none of its own statements: there is no call, it has returned, or
it is inside a callback. -/
def outside : RequestPc τ ι θ → Bool
  | .idle | .firing _ _ [] [] _ | .firing _ _ _ _ true => true
  | _ => false

/-- The requester will run the callback of `h`, or is running it. -/
@[simp] def holds (h : ι) : RequestPc τ ι θ → Prop
  | .unpinning _ _ taken => h ∈ taken
  | .firing _ _ taken slots _ => h ∈ taken ∨ (h, false) ∈ slots
  | _ => False

variable {pc : RequestPc τ ι θ}

theorem holds.mem_entries {h : ι} (hh : pc.holds h) : h ∈ pc.entries := by
  cases pc with
  | unpinning => exact hh
  | firing =>
    rcases hh with hh | hh
    · exact mem_append_left _ hh
    · exact mem_append_right _ (mem_map_of_mem hh)
  | _ => exact hh.elim

variable [DecidableEq ι]

theorem holds.of_mark {h i : ι} (hh : (pc.mark h).holds i) : pc.holds i := by
  cases pc with
  | firing =>
    refine hh.imp_right fun hi => ?_
    obtain ⟨p, hp, hpi⟩ := mem_map.mp hi
    by_cases hph : p.1 = h
    · simp [hph] at hpi
    · simp only [hph, if_false] at hpi
      rwa [← hpi]
  | _ => exact hh

end RequestPc

/-- **What the callers promise.** A hook is armed before it is disarmed, and in a chain none of
whose tasks has ended; it is disarmed when the arm has returned, or from inside its callback; the
awaits of a task have disarmed their hooks when it ends; and a thread that disarms a hook does so
outside its own cancellation requests, or in a callback of one. -/
def Owned [DecidableEq τ] (F : Forest τ) (s : State τ ι ρ θ) : Event τ ι ρ θ → Prop
  | .arm h _ l => (s.hooks h).disarm.called = false ∧ ∀ y ∈ F.chain l, s.finishing y = false
  | .disarm h t => (s.hooks h).arm.quiet t
  | .check h =>
    match (s.hooks h).disarm with
    | .checking t => ∀ r, (s.requests r).thread = some t → (s.requests r).outside = true
    | _ => True
  | .finish x => ∀ h, (s.hooks h).under F x = true → (s.hooks h).disarm.called = true
  | _ => True

/-- There is memory for the slots of all taken hooks. -/
def Slotted (s : State τ ι ρ θ) : Event τ ι ρ θ → Prop
  | .aim r fails => fails = true → (s.requests r).entries.length ≤ inlineSlots
  | _ => True

instance [DecidableEq θ] (t : θ) (a : ArmPc τ θ) : Decidable (a.quiet t) := match a with
  | .idle | .returned => isTrue trivial
  | .inline u => inferInstanceAs (Decidable (u = t))
  | .linking _ | .walking _ _ => isFalse id

instance [DecidableEq τ] [DecidableEq θ] [Fintype ι] [Fintype ρ] (F : Forest τ)
    (s : State τ ι ρ θ) (e : Event τ ι ρ θ) : Decidable (Owned F s e) :=
  match e with
  | .arm _ _ _ => inferInstanceAs (Decidable (_ ∧ _))
  | .disarm h t => inferInstanceAs (Decidable ((s.hooks h).arm.quiet t))
  | .check h =>
    match hd : (s.hooks h).disarm with
    | .checking t =>
      decidable_of_iff (∀ r, (s.requests r).thread = some t → (s.requests r).outside = true)
        (by simp only [Owned, hd])
    | .idle | .locking _ _ | .spinning _ | .returned _ => isTrue (by simp only [Owned, hd])
  | .finish x => inferInstanceAs (Decidable (∀ h, (s.hooks h).under F x = true → _))
  | .link _ | .read _ _ | .armed _ | .unlink _ | .spin _ | .request _ _ _ | .pin _ | .load _
  | .take _ | .unpin _ | .aim _ _ | .fire _ | .fired _ | .pass _ => isTrue trivial

instance (s : State τ ι ρ θ) (e : Event τ ι ρ θ) : Decidable (Slotted s e) := match e with
  | .aim _ _ => inferInstanceAs (Decidable (_ → _))
  | .arm _ _ _ | .link _ | .read _ _ | .armed _ | .disarm _ _ | .unlink _ | .check _ | .spin _
  | .request _ _ _ | .pin _ | .load _ | .take _ | .unpin _ | .fire _ | .fired _ | .finish _
  | .pass _ => isTrue trivial

/-! ### Requesters and a hook that is not linked -/

/-- Requester `r` has no more to do with hook `h` than before. -/
def Lets (s t : State τ ι ρ θ) (r : ρ) (h : ι) : Prop := (h ∈ (t.requests r).entries →
    h ∈ (s.requests r).entries ∧ (t.requests r).thread = (s.requests r).thread) ∧
  ((t.requests r).holds h → (s.requests r).holds h)

namespace Lets

variable {s t : State τ ι ρ θ} {r : ρ} {h : ι}

theorem of_eq (hr : t.requests r = s.requests r) : Lets s t r h := by
  rw [Lets, hr]
  exact ⟨fun hh => ⟨hh, rfl⟩, id⟩

theorem of_nil (hr : (t.requests r).entries = []) : Lets s t r h := by
  have hno : h ∉ (t.requests r).entries := by simp [hr]
  exact ⟨fun hh => absurd hh hno, fun hh => absurd hh.mem_entries hno⟩

theorem of_mark [DecidableEq ι] {i : ι} (hr : t.requests r = (s.requests r).mark i) :
    Lets s t r h := by
  rw [Lets, hr, entries_mark, thread_mark]
  exact ⟨fun hh => ⟨hh, rfl⟩, .of_mark⟩

/-- A requester that is past a slot. -/
theorem of_cons {u : θ} {y : τ} {taken : List ι} {p : ι × Bool} {slots : List (ι × Bool)}
    {running running' : Bool} (hs : s.requests r = .firing u y taken (p :: slots) running)
    (ht : t.requests r = .firing u y taken slots running') : Lets s t r h := by
  rw [Lets, hs, ht]
  refine ⟨fun hh => ⟨?_, rfl⟩, fun hh => hh.imp_right (mem_cons_of_mem _)⟩
  exact ((sublist_cons_self _ _).append_left taken).subset hh

end Lets

/-- A hook that is not linked is not taken. -/
theorem lets_of_change [DecidableEq τ] [DecidableEq ι] [DecidableEq ρ] {F : Forest τ}
    {s t : State τ ι ρ θ} {e : Event τ ι ρ θ} (hp : Places F s) (hc : Change F s e t) (r : ρ)
    {h : ι} (hroot : (s.hooks h).root = none) : Lets s t r h := by
  have hput {r' : ρ} {p : RequestPc τ ι θ} (ht : t.requests = update s.requests r' p)
      (hl : t.requests r' = p → Lets s t r' h) : Lets s t r h := by
    obtain ⟨rfl, hr⟩ | ⟨-, hr⟩ := of_update (congrFun ht r).symm
    · exact hl hr.symm
    · exact .of_eq hr.symm
  cases hc with
  | request | pin | loadFinishing | load =>
    exact hput rfl fun ht => .of_nil (by rw [ht]; rfl)
  | take =>
    refine hput rfl fun ht => ?_
    have hno : ∀ y, h ∉ s.taken F y := fun y hh => (hp.mem_taken.mp hh).1 hroot
    rw [Lets, ht]
    exact ⟨fun hh => absurd hh (hno _), fun hh => absurd hh (hno _)⟩
  | unpin hr =>
    refine hput rfl fun ht => ?_
    rw [Lets, ht, hr]
    simp [entries, RequestPc.thread]
  | @aim _ _ _ taken _ n hr _ _ _ =>
    refine hput rfl fun ht => ?_
    have hmem {p : RequestPc τ ι θ} (hp : p.entries = taken.drop n ++ taken.take n)
        (hh : h ∈ p.entries) : h ∈ taken := by
      rw [hp] at hh
      exact (mem_append.mp hh).elim mem_of_mem_drop mem_of_mem_take
    rw [Lets, ht, hr]
    refine ⟨fun hh => ⟨?_, rfl⟩, fun hh => .inl (hmem (entries_aimed ..) hh.mem_entries)⟩
    exact mem_append_left _ (hmem (entries_aimed ..) hh)
  | skip _ hr | fired hr => exact hput rfl (.of_cons hr)
  | fire hr =>
    refine hput rfl fun ht => ?_
    rw [Lets, ht, hr]
    exact ⟨fun hh => ⟨hh, rfl⟩, id⟩
  | @checkMark i =>
    suffices hl : Lets s (s.markSlot i) r h from hl
    exact (s.requests_markSlot i r).elim .of_eq .of_mark
  | _ => exact .of_eq rfl

/-! ### The owner's calls -/

/-- Where a disarm stands, the arm is over as far as the disarming thread is concerned, and the hook
is linked only before the locked section. -/
def Hook.Calm (k : Hook τ ρ θ) : Prop := match k.disarm with
  | .idle => True
  | .locking t q => k.arm.quiet t ∧ (k.root = some q ∨ k.root = none)
  | .checking t | .spinning t | .returned t => k.arm.quiet t ∧ k.root = none

namespace Hook

variable {k : Hook τ ρ θ}

theorem Calm.of_idle (h : k.disarm.called = false) : k.Calm := by
  unfold Calm
  split
  · trivial
  all_goals simp_all [DisarmPc.called]

variable (h : k.Calm)

include h

/-- No disarm is called while an arm links the hook or reads the flags. -/
theorem Calm.idle (ha : ∀ t, ¬ k.arm.quiet t) : k.disarm.called = false := by
  unfold Calm at h
  split at h
  · simp_all [DisarmPc.called]
  all_goals exact absurd h.1 (ha _)

variable {t : θ}

theorem Calm.of_locking {q : τ} (hd : k.disarm = .locking t q) :
    k.arm.quiet t ∧ (k.root = some q ∨ k.root = none) := by
  rwa [Calm, hd] at h

theorem Calm.of_checking (hd : k.disarm = .checking t) : k.arm.quiet t ∧ k.root = none := by
  rwa [Calm, hd] at h

theorem Calm.of_spinning (hd : k.disarm = .spinning t) : k.arm.quiet t ∧ k.root = none := by
  rwa [Calm, hd] at h

/-- The arm ends, or the hook is taken. -/
theorem Calm.mono {k' : Hook τ ρ θ} (hd : k'.disarm = k.disarm)
    (ha : ∀ t, k.arm.quiet t → k'.arm.quiet t) (hr : k'.root = k.root ∨ k'.root = none) :
    k'.Calm := by
  unfold Calm at h ⊢
  rw [hd]
  rcases hr with hr | hr <;> rw [hr] <;> split at h
  all_goals first
    | trivial
    | exact ⟨ha _ h.1, h.2⟩
    | exact ⟨ha _ h.1, .inr rfl⟩
    | exact ⟨ha _ h.1, rfl⟩

end Hook

variable [DecidableEq τ] [DecidableEq ι] [DecidableEq ρ]

variable {F : Forest τ} {s t : State τ ι ρ θ} {e : Event τ ι ρ θ} {r : ρ} {pc : RequestPc τ ι θ}

theorem calm_step (h : ∀ i, (s.hooks i).Calm) (ho : Owned F s e) (hc : Change F s e t) (i : ι) :
    (t.hooks i).Calm := by
  have hput {j : ι} {k : Hook τ ρ θ} (hk : k.Calm) : (update s.hooks j k i).Calm :=
    update_rec (fun _ => hk) fun _ => h i
  cases hc with
  | arm => exact hput (.of_idle ho.1)
  | link ha _ | readEnd ha | readSet ha _ | read ha _ =>
    refine hput (.of_idle ((h _).idle ?_))
    rw [ha]
    exact fun _ => id
  | armed _ => exact hput ((h _).mono rfl (fun _ _ => trivial) (.inl rfl))
  | disarmLinked hr => exact hput ⟨ho, .inl hr⟩
  | disarm hr => exact hput ⟨ho, hr⟩
  | unlink hd _ => exact hput ⟨((h _).of_locking hd).1, rfl⟩
  | unlinkGone hd hr =>
    obtain ⟨hq, hroot⟩ := (h _).of_locking hd
    exact hput ⟨hq, hroot.resolve_left hr⟩
  | checkMark hd _ _ =>
    simp only [putHook, hooks_markSlot]
    exact hput ((h _).of_checking hd)
  | checkSpin hd _ | check hd _ => exact hput ((h _).of_checking hd)
  | spin hd _ => exact hput ((h _).of_spinning hd)
  | take _ =>
    simp only [takeChainHooks, putRequest]
    split
    · exact (h i).mono rfl (fun _ => id) (.inr rfl)
    · exact h i
  | aim _ _ _ _ _ =>
    simp only [aimHooks, putRequest]
    split
    · exact (h i).mono rfl (fun _ => id) (.inl rfl)
    · exact h i
  | fired _ => exact hput ((h _).mono rfl (fun _ => id) (.inl rfl))
  | request | pin | loadFinishing | load | unpin | skip | fire | finish | pass => exact h i

/-! ### Slots -/

/-- A requester that has slots has one for each hook it took, and the hooks know. -/
def RequestPc.Aimed (hooks : ι → Hook τ ρ θ) (r : ρ) : RequestPc τ ι θ → Prop
  | .firing _ _ taken slots running =>
    (slots ≠ [] ∨ running = true → taken = []) ∧ ∀ p ∈ slots, (hooks p.1).abandoned = some r
  | _ => True

variable {hooks : ι → Hook τ ρ θ}

omit [DecidableEq τ] [DecidableEq ι] [DecidableEq ρ] in
theorem RequestPc.Aimed.congr {hooks' : ι → Hook τ ρ θ} (h : pc.Aimed hooks r)
    (hk : ∀ i ∈ pc.entries, (hooks' i).abandoned = (hooks i).abandoned) : pc.Aimed hooks' r := by
  cases pc with
  | firing t y taken slots =>
    refine ⟨h.1, fun p hp => ?_⟩
    have hmem : p.1 ∈ slots.map Prod.fst := mem_map_of_mem hp
    rw [hk p.1 (mem_append_right _ hmem)]
    exact h.2 p hp
  | _ => trivial

omit [DecidableEq τ] [DecidableEq ρ] in
theorem RequestPc.Aimed.mark (h : pc.Aimed hooks r) (i : ι) : (pc.mark i).Aimed hooks r := by
  cases pc with
  | firing =>
    refine ⟨fun hne => h.1 (by simpa using hne), fun p hp => ?_⟩
    obtain ⟨p', hp', rfl⟩ := mem_map.mp hp
    by_cases hi : p'.1 = i
    · simpa [hi] using h.2 p' hp'
    · simpa [hi] using h.2 p' hp'
  | _ => trivial

theorem aimed_step (hp : Places F s) (h : ∀ r, (s.requests r).Aimed s.hooks r) (hs : Slotted s e)
    (hc : Change F s e t) (r : ρ) : (t.requests r).Aimed t.hooks r := by
  have hhook {r' : ρ} {p : RequestPc τ ι θ} {j : ι} {k : Hook τ ρ θ} (hp : p.Aimed s.hooks r')
      (hk : k.abandoned = (s.hooks j).abandoned) :
      p.Aimed (update s.hooks j k) r' := by
    exact hp.congr fun i _ => update_alike rfl hk i
  have hreq {r' : ρ} {p : RequestPc τ ι θ} {hooks : ι → Hook τ ρ θ}
      (hother : r ≠ r' → (s.requests r).Aimed hooks r) (hself : p.Aimed hooks r') :
      (update s.requests r' p r).Aimed hooks r :=
    update_rec (fun hr => hr ▸ hself) hother
  have htail {r' : ρ} {u : θ} {y : τ} {taken : List ι} {p : ι × Bool} {slots : List (ι × Bool)}
      {running : Bool} (hr : s.requests r' = .firing u y taken (p :: slots) running) :
      (RequestPc.firing u y taken slots false).Aimed s.hooks r' := by
    have hr' := h r'
    rw [hr] at hr'
    exact ⟨fun _ => hr'.1 (.inl (cons_ne_nil _ _)), fun q hq => hr'.2 q (mem_cons_of_mem _ hq)⟩
  cases hc with
  | arm _ | link _ _ | readEnd _ | readSet _ _ | read _ _ | armed _ | disarmLinked _ | disarm _
  | unlink | unlinkGone | checkSpin | check | spin => exact hhook (h r) rfl
  | @checkMark i =>
    have hmark : ((s.markSlot i).requests r).Aimed s.hooks r := by
      rcases s.requests_markSlot i r with hr | hr <;> rw [hr]
      · exact h r
      · exact (h r).mark i
    simp only [putHook, hooks_markSlot]
    exact hhook hmark rfl
  | request _ | pin _ | loadFinishing _ _ | load _ _ => exact hreq (fun _ => h r) trivial
  | take =>
    refine hreq (fun _ => (h r).congr fun i hi => ?_) trivial
    have hno : ∀ y, i ∉ s.taken F y := fun y hh => (hp.mem_taken.mp hh).1 (hp.entry r i hi)
    exact congrArg Hook.abandoned (if_neg (hno _))
  | unpin => exact hreq (fun _ => h r) ⟨fun hne => by simp at hne, nofun⟩
  | @aim r' u y taken fails n hr _ _ hn =>
    have hentries : (s.requests r').entries = taken := by simp [hr, entries]
    refine hreq (fun hrr => (h r).congr fun i hi => ?_) ⟨fun _ => ?_, fun p hp' => ?_⟩
    · have hno : i ∉ taken.take n := fun hh =>
        hrr (hp.one r r' i hi (hentries ▸ mem_of_mem_take hh))
      exact congrArg Hook.abandoned (if_neg hno)
    · refine drop_eq_nil_of_le (Nat.not_lt.mp fun hlt => ?_)
      obtain ⟨hlong, hfails⟩ := hn hlt
      have hshort := hs hfails
      rw [hentries] at hshort
      exact absurd hlong (Nat.not_lt.mpr hshort)
    · obtain ⟨i, hi, rfl⟩ := mem_map.mp hp'
      exact congrArg Hook.abandoned (if_pos hi)
  | skip _ hr => exact hreq (fun _ => h r) (htail hr)
  | @fire r' _ _ _ _ _ hr =>
    have hr' := h r'
    rw [hr] at hr'
    exact hreq (fun _ => h r) ⟨fun _ => hr'.1 (.inl (cons_ne_nil _ _)), hr'.2⟩
  | fired hr => exact hreq (fun _ => hhook (h r) rfl) (hhook (htail hr) rfl)
  | finish | pass => exact h r

/-! ### A hook that is disarmed -/

namespace RequestPc.Aimed

variable {hooks : ι → Hook τ ρ θ} {r : ρ}

omit [DecidableEq τ] [DecidableEq ι] [DecidableEq ρ] in
theorem taken_eq_nil {t : θ} {y : τ} {taken : List ι} {slots : List (ι × Bool)} {running : Bool}
    (h : (RequestPc.firing t y taken slots running).Aimed hooks r)
    (hout : (RequestPc.firing t y taken slots running).outside = true) : taken = [] := by
  cases running with
  | true => exact h.1 (.inr rfl)
  | false =>
    cases taken with
    | nil => rfl
    | cons => cases slots <;> cases hout

omit [DecidableEq τ] [DecidableEq ι] [DecidableEq ρ] in
theorem abandoned_eq {pc : RequestPc τ ι θ} (h : pc.Aimed hooks r) (hout : pc.outside = true)
    {i : ι} (hi : i ∈ pc.entries) : (hooks i).abandoned = some r := by
  cases pc with
  | firing =>
    simp only [entries, h.taken_eq_nil hout, nil_append] at hi
    obtain ⟨p, hp, rfl⟩ := mem_map.mp hi
    exact h.2 p hp
  | unpinning => cases hout
  | _ => cases hi

omit [DecidableEq τ] [DecidableEq ρ] in
/-- A mark keeps a requester away whose hooks all have slots. -/
theorem not_holds_mark {pc : RequestPc τ ι θ} (h : pc.Aimed hooks r) (hout : pc.outside = true)
    (i : ι) : ¬ (pc.mark i).holds i := by
  cases pc with
  | firing =>
    rintro (hi | hi)
    · simp [h.taken_eq_nil hout] at hi
    · obtain ⟨p, -, hp⟩ := mem_map.mp hi
      by_cases hpi : p.1 = i
      · simp [hpi] at hp
      · simp only [hpi, if_false] at hp
        exact hpi (congrArg Prod.fst hp)
  | unpinning => cases hout
  | _ => exact id

end RequestPc.Aimed

/-- **The owner may free the hook.** Nobody will run its callback, and where a requester still has a
slot for it, that is on the thread of the disarm. -/
structure Free (s : State τ ι ρ θ) (h : ι) (a : θ) : Prop where
  called : (s.hooks h).disarm.called = true
  quiet : (s.hooks h).arm.quiet a
  root : (s.hooks h).root = none
  thread : ∀ r, h ∈ (s.requests r).entries → (s.requests r).thread = some a
  skipped : ∀ r, ¬ (s.requests r).holds h

namespace Free

variable {F : Forest τ} {s t : State τ ι ρ θ} {e : Event τ ι ρ θ} {h : ι} {a : θ}

/-- A disarm returns. -/
theorem of_returned (hp : Places F s) (hcalm : (t.hooks h).Calm)
    (haim : ∀ r, (s.requests r).Aimed s.hooks r) (ho : Owned F s e) (hc : Change F s e t)
    (hbusy : (s.hooks h).disarm.busy = true) (hret : (t.hooks h).disarm = .returned a) :
    Free t h a := by
  obtain ⟨hq, hroot⟩ : (t.hooks h).arm.quiet a ∧ (t.hooks h).root = none := by
    rwa [Hook.Calm, hret] at hcalm
  suffices hreq : ∀ r, (h ∈ (t.requests r).entries → (t.requests r).thread = some a) ∧
      ¬ (t.requests r).holds h from
    ⟨by rw [hret]; rfl, hq, hroot, fun r => (hreq r).1, fun r => (hreq r).2⟩
  have hne : (s.hooks h).disarm ≠ .returned a := by
    intro hd
    rw [hd] at hbusy
    cases hbusy
  have hput {j : ι} {k : Hook τ ρ θ} (hd : (update s.hooks j k h).disarm = .returned a) :
      h = j ∧ k.disarm = .returned a := by
    rw [update_apply] at hd
    split at hd
    · exact ⟨‹_›, hd⟩
    · exact absurd hd hne
  -- nobody had the hook
  have hno (hr : t.requests = s.requests) (hn : ∀ r, h ∉ (s.requests r).entries) (r : ρ) :
      (h ∈ (t.requests r).entries → (t.requests r).thread = some a) ∧ ¬ (t.requests r).holds h := by
    rw [hr]
    exact ⟨fun hh => absurd hh (hn r), fun hh => hn r hh.mem_entries⟩
  cases hc with
  | unlink _ hr =>
    obtain ⟨rfl, -⟩ := hput hret
    refine hno rfl fun r hh => ?_
    rw [hp.entry r h hh] at hr
    cases hr
  | check _ hf | spin _ hf =>
    obtain ⟨rfl, -⟩ := hput hret
    refine hno rfl fun r hh => ?_
    rw [(hp.held r h hh).1] at hf
    cases hf
  | @checkMark i u hd hf hu =>
    simp only [putHook, hooks_markSlot] at hret hroot
    obtain ⟨rfl, hret'⟩ := hput hret
    cases hret'
    rw [update_self] at hroot
    intro r
    have hlets := lets_of_change hp (.checkMark hd hf hu) r hroot
    by_cases hmem : h ∈ (s.requests r).entries
    · have hthread := (hp.held r h hmem).2.trans hu
      have hout : (s.requests r).outside = true := by
        simp only [Owned, hd] at ho
        exact ho r hthread
      have hmark : (s.markSlot h).requests r = (s.requests r).mark h := by
        simp [markSlot, (haim r).abandoned_eq hout hmem]
      refine ⟨fun hh => (hlets.1 hh).2.trans hthread, ?_⟩
      simp only [putHook, hmark]
      exact (haim r).not_holds_mark hout h
    · exact ⟨fun hh => absurd (hlets.1 hh).1 hmem, fun hh => hmem (hlets.1 hh.mem_entries).1⟩
  | arm | link | readEnd | readSet | read | armed | fired =>
    obtain ⟨rfl, hd⟩ := hput hret
    exact absurd hd hne
  | disarmLinked | disarm | unlinkGone | checkSpin => cases (hput hret).2
  | take | aim =>
    simp only [takeChainHooks, aimHooks, putRequest] at hret
    split at hret <;> exact absurd hret hne
  | request | pin | loadFinishing | load | unpin | skip | fire | finish | pass =>
    exact absurd hret hne

/-- A hook that is free stays so. -/
theorem step (hf : Free s h a) (hp : Places F s) (ho : Owned F s e) (hc : Change F s e t) :
    Free t h a := by
  have hlets := fun r => lets_of_change hp hc r hf.root
  suffices hhook : (t.hooks h).disarm.called = true ∧ (t.hooks h).arm.quiet a ∧
      (t.hooks h).root = none from
    ⟨hhook.1, hhook.2.1, hhook.2.2, fun r hr => ((hlets r).1 hr).2.trans (hf.thread r
      ((hlets r).1 hr).1), fun r hr => hf.skipped r ((hlets r).2 hr)⟩
  have hput {j : ι} {k : Hook τ ρ θ} (hk : j = h → k.disarm.called = true ∧ k.arm.quiet a ∧
      k.root = none) : (update s.hooks j k h).disarm.called = true ∧
      (update s.hooks j k h).arm.quiet a ∧
      (update s.hooks j k h).root = none :=
    update_rec (p := fun k : Hook τ ρ θ => k.disarm.called = true ∧ k.arm.quiet a ∧ k.root = none)
      (fun hj => hk hj.symm) fun _ => ⟨hf.called, hf.quiet, hf.root⟩
  cases hc with
  | arm _ =>
    refine hput fun hj => ?_
    subst hj
    exact absurd hf.called (by simp [ho.1])
  | link ha _ | readEnd ha | readSet ha _ | read ha _ =>
    refine hput fun hj => ?_
    subst hj
    have hq := hf.quiet
    rw [ha] at hq
    exact hq.elim
  | armed => exact hput fun hj => ⟨hj ▸ hf.called, trivial, hj ▸ hf.root⟩
  | disarmLinked | disarm | unlinkGone | checkSpin | check | spin =>
    exact hput fun hj => ⟨rfl, hj ▸ hf.quiet, hj ▸ hf.root⟩
  | unlink => exact hput fun hj => ⟨rfl, hj ▸ hf.quiet, rfl⟩
  | checkMark =>
    simp only [putHook, hooks_markSlot]
    exact hput fun hj => ⟨rfl, hj ▸ hf.quiet, hj ▸ hf.root⟩
  | take =>
    simp only [takeChainHooks, putRequest]
    split
    · exact ⟨hf.called, hf.quiet, rfl⟩
    · exact ⟨hf.called, hf.quiet, hf.root⟩
  | aim =>
    simp only [aimHooks, putRequest]
    split <;> exact ⟨hf.called, hf.quiet, hf.root⟩
  | fired => exact hput fun hj => ⟨hj ▸ hf.called, hj ▸ hf.quiet, hj ▸ hf.root⟩
  | request | pin | loadFinishing | load | unpin | skip | fire | finish | pass =>
    exact ⟨hf.called, hf.quiet, hf.root⟩

end Free

end Manwe.CancelHook
