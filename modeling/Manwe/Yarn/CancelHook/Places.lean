import Mathlib
import Manwe.Yarn.CancelHook

/-!
# A hook is in one place

A hook is linked under the root of its chain, or one requester has it among those it has taken, or
it is nowhere; it is linked once. While a requester has it, the hook says `firing` and names the
requester's thread.
-/

namespace Manwe.CancelHook

open Function List RequestPc

variable {τ ι ρ θ : Type*}

/-- The hook is not linked yet. -/
def ArmPc.fresh : ArmPc τ θ → Bool
  | .idle | .linking _ => true
  | _ => false

namespace RequestPc

def thread : RequestPc τ ι θ → Option θ
  | .idle => none
  | .flagged t _ | .pinned t _ | .walking t _ | .unpinning t _ _ | .firing t _ _ _ _ => some t

/-- The hooks a requester has taken and not dealt with, marked or not. -/
def entries : RequestPc τ ι θ → List ι
  | .unpinning _ _ taken => taken
  | .firing _ _ taken slots _ => taken ++ slots.map Prod.fst
  | _ => []

theorem entries_aimed (u : θ) (y : τ) (taken : List ι) (n : ℕ) (running : Bool) :
    (firing u y (taken.drop n) ((taken.take n).map (·, false)) running).entries =
      taken.drop n ++ taken.take n := by
  simp [entries, comp_def]

variable [DecidableEq ι]

theorem thread_mark (h : ι) (pc : RequestPc τ ι θ) : (pc.mark h).thread = pc.thread := by
  cases pc <;> rfl

theorem entries_mark (h : ι) (pc : RequestPc τ ι θ) : (pc.mark h).entries = pc.entries := by
  cases pc with
  | firing =>
    simp only [mark, entries, map_map]
    congr 1
    refine map_congr_left fun p _ => ?_
    by_cases hp : p.1 = h <;> simp [hp]
  | _ => rfl

end RequestPc

theorem State.markSlot_eta [DecidableEq ι] [DecidableEq ρ] (s : State τ ι ρ θ) (h : ι) :
    s.markSlot h = { s with requests := (s.markSlot h).requests } := by
  unfold State.markSlot
  split <;> rfl

theorem State.hooks_markSlot [DecidableEq ι] [DecidableEq ρ] (s : State τ ι ρ θ) (h : ι) :
    (s.markSlot h).hooks = s.hooks := by
  rw [s.markSlot_eta h]

theorem State.requests_markSlot [DecidableEq ι] [DecidableEq ρ] (s : State τ ι ρ θ) (h : ι)
    (r : ρ) : (s.markSlot h).requests r = s.requests r ∨
      (s.markSlot h).requests r = (s.requests r).mark h := by
  unfold State.markSlot
  split
  · exact .inl rfl
  · rename_i r' _
    obtain rfl | hr := eq_or_ne r r'
    · exact .inr (update_self _ _ _)
    · exact .inl (update_of_ne hr _ _)

/-- **Where the hooks are.** -/
structure Places (F : Forest τ) (s : State τ ι ρ θ) : Prop where
  linked : ∀ q h, h ∈ s.registry q ↔ (s.hooks h).root = some q
  nodup : ∀ q, (s.registry q).Nodup
  root : ∀ h q, (s.hooks h).root = some q → ∃ l, (s.hooks h).leaf = some l ∧ q = F.root l
  fresh : ∀ h, (s.hooks h).arm.fresh = true →
    (s.hooks h).root = none ∧ ∀ r, h ∉ (s.requests r).entries
  entry : ∀ r h, h ∈ (s.requests r).entries → (s.hooks h).root = none
  distinct : ∀ r, (s.requests r).entries.Nodup
  one : ∀ r r' h, h ∈ (s.requests r).entries → h ∈ (s.requests r').entries → r = r'
  held : ∀ r h, h ∈ (s.requests r).entries →
    (s.hooks h).firing = true ∧ (s.requests r).thread = (s.hooks h).firer

namespace Places

variable {F : Forest τ} {s t : State τ ι ρ θ}

theorem init : Places F ({} : State τ ι ρ θ) where
  linked _ _ := by simp
  nodup _ := nodup_nil
  root _ _ := nofun
  fresh _ _ := ⟨rfl, fun _ => not_mem_nil⟩
  entry _ _ := nofun
  distinct _ := nodup_nil
  one _ _ _ := nofun
  held _ _ := nofun

/-- Steps after which every hook is where it was, or gone from a requester's list. -/
theorem frame (h : Places F s) (hreg : t.registry = s.registry)
    (hroot : ∀ i, (t.hooks i).root = (s.hooks i).root)
    (hleaf : ∀ i, (s.hooks i).root ≠ none → (t.hooks i).leaf = (s.hooks i).leaf)
    (hfresh : ∀ i, (t.hooks i).arm.fresh = true → (s.hooks i).arm.fresh = true)
    (hentries : ∀ r i, i ∈ (t.requests r).entries → i ∈ (s.requests r).entries)
    (hdistinct : ∀ r, (t.requests r).entries.Nodup)
    (hheld : ∀ r i, i ∈ (t.requests r).entries →
      (t.hooks i).firing = true ∧ (t.requests r).thread = (t.hooks i).firer) : Places F t where
  linked q i := by rw [hreg, hroot, h.linked]
  nodup q := by rw [hreg]; exact h.nodup q
  root i q hq := by
    rw [hroot] at hq
    rw [hleaf i (by simp [hq])]
    exact h.root i q hq
  fresh i hi := by
    obtain ⟨h1, h2⟩ := h.fresh i (hfresh i hi)
    exact ⟨(hroot i).trans h1, fun r hr => h2 r (hentries r i hr)⟩
  entry r i hi := (hroot i).trans (h.entry r i (hentries r i hi))
  distinct := hdistinct
  one r r' i hr hr' := h.one r r' i (hentries r i hr) (hentries r' i hr')
  held := hheld

theorem congr (h : Places F s) (hreg : t.registry = s.registry) (hhooks : t.hooks = s.hooks)
    (hreqs : t.requests = s.requests) : Places F t := by
  refine h.frame hreg ?_ ?_ ?_ ?_ ?_ ?_
  all_goals simp only [hhooks, hreqs]
  · exact fun _ => trivial
  · exact fun _ _ => trivial
  · exact fun _ => id
  · exact fun _ _ => id
  · exact h.distinct
  · exact h.held

variable {i : ι}

/-- The owner of a hook goes on. -/
theorem putHook [DecidableEq ι] (h : Places F s) {k : Hook τ ρ θ}
    (hroot : k.root = (s.hooks i).root)
    (hleaf : (s.hooks i).root ≠ none → k.leaf = (s.hooks i).leaf)
    (hheld : ∀ r, i ∈ (s.requests r).entries → k.firing = (s.hooks i).firing ∧
      k.firer = (s.hooks i).firer)
    (hfresh : k.arm.fresh = true → (s.hooks i).arm.fresh = true) : Places F (s.putHook i k) := by
  refine h.frame rfl ?_ ?_ ?_ (fun _ _ => id) h.distinct ?_
  · exact (forall_update_iff s.hooks fun j k => k.root = (s.hooks j).root).2 ⟨hroot, fun _ _ => rfl⟩
  · exact (forall_update_iff s.hooks fun j k => (s.hooks j).root ≠ none →
      k.leaf = (s.hooks j).leaf).2 ⟨hleaf, fun _ _ _ => rfl⟩
  · exact (forall_update_iff s.hooks fun j k => k.arm.fresh = true → (s.hooks j).arm.fresh = true).2
      ⟨hfresh, fun _ _ => id⟩
  · intro r
    refine (forall_update_iff s.hooks fun j k => j ∈ (s.requests r).entries →
      k.firing = true ∧ (s.requests r).thread = k.firer).2 ⟨fun hr => ?_, fun j _ => h.held r j⟩
    rw [(hheld r hr).1, (hheld r hr).2]
    exact h.held r i hr

variable {r : ρ} {p : RequestPc τ ι θ}

/-- A requester goes on. -/
theorem putRequest [DecidableEq ρ] (h : Places F s)
    (hentries : ∀ i, i ∈ p.entries → i ∈ (s.requests r).entries) (hdistinct : p.entries.Nodup)
    (hthread : p.entries ≠ [] → p.thread = (s.requests r).thread) :
    Places F (s.putRequest r p) := by
  refine h.frame rfl (fun _ => rfl) (fun _ _ => rfl) (fun _ => id) ?_ ?_ ?_
  · exact (forall_update_iff s.requests fun r p => ∀ i, i ∈ p.entries →
      i ∈ (s.requests r).entries).2 ⟨hentries, fun _ _ _ => id⟩
  · exact (forall_update_iff s.requests fun _ p => p.entries.Nodup).2
      ⟨hdistinct, fun r _ => h.distinct r⟩
  · refine (forall_update_iff s.requests fun _ p => ∀ i, i ∈ p.entries →
      (s.hooks i).firing = true ∧ p.thread = (s.hooks i).firer).2
      ⟨fun i hi => ?_, fun r _ => h.held r⟩
    rw [hthread (ne_nil_of_mem hi)]
    exact h.held r i (hentries i hi)

theorem putRequest_sublist [DecidableEq ρ] (h : Places F s)
    (hentries : p.entries.Sublist (s.requests r).entries)
    (hthread : p.thread = (s.requests r).thread) : Places F (s.putRequest r p) :=
  h.putRequest (fun _ hi => hentries.subset hi) ((h.distinct r).sublist hentries) fun _ => hthread

/-- A requester that has no hooks. -/
theorem putRequest_nil [DecidableEq ρ] (h : Places F s) (hp : p.entries = []) :
    Places F (s.putRequest r p) := by
  refine h.putRequest (fun i hi => ?_) (by simp [hp]) fun hne => absurd hp hne
  simp [hp] at hi

section Requests

variable [DecidableEq ι] [DecidableEq ρ]

variable {u : θ} {x : τ} {taken : List ι}

/-- Slots are aimed at: the hooks stay with their requester. -/
theorem aim (h : Places F s) {r : ρ} (n : ℕ) (hr : s.requests r = .firing u x taken [] false) :
    Places F ((s.aimHooks r (taken.take n)).putRequest r
      (.firing u x (taken.drop n) ((taken.take n).map (·, false)) false)) := by
  have hhook : ∀ j, ((s.aimHooks r (taken.take n)).hooks j).root = (s.hooks j).root ∧
      ((s.aimHooks r (taken.take n)).hooks j).leaf = (s.hooks j).leaf ∧
      ((s.aimHooks r (taken.take n)).hooks j).firing = (s.hooks j).firing ∧
      ((s.aimHooks r (taken.take n)).hooks j).firer = (s.hooks j).firer ∧
      ((s.aimHooks r (taken.take n)).hooks j).arm = (s.hooks j).arm := by
    intro j
    simp only [State.aimHooks]
    split <;> exact ⟨rfl, rfl, rfl, rfl, rfl⟩
  have haimed : Places F (s.aimHooks r (taken.take n)) := by
    refine h.frame rfl (fun j => (hhook j).1) (fun j _ => (hhook j).2.1) (fun j hj => ?_)
      (fun _ _ => id) h.distinct fun r' j hj => ?_
    · rwa [(hhook j).2.2.2.2] at hj
    · rw [(hhook j).2.2.1, (hhook j).2.2.2.1]
      exact h.held r' j hj
  have hentries : (s.requests r).entries = taken := by simp [hr, entries]
  refine haimed.putRequest (fun i hi => ?_) ?_ fun _ => ?_
  · rw [show (s.aimHooks r (taken.take n)).requests r = s.requests r from rfl, hentries]
    rw [entries_aimed] at hi
    exact (mem_append.mp hi).elim mem_of_mem_drop mem_of_mem_take
  · have hd := h.distinct r
    rw [hentries, ← take_append_drop n taken] at hd
    rw [entries_aimed]
    exact nodup_append_comm.mp hd
  · rw [show (s.aimHooks r (taken.take n)).requests r = s.requests r from rfl, hr]
    rfl

/-- A callback has ended: the hook is nobody's. -/
theorem fired (h : Places F s) {r : ρ} {i : ι} {slots : List (ι × Bool)}
    (hr : s.requests r = .firing u x taken ((i, false) :: slots) true) :
    Places F ((s.putHook i { s.hooks i with firing := false }).putRequest r
      (.firing u x taken slots false)) := by
  have hrest : Places F (s.putRequest r (.firing u x taken slots false)) := by
    refine h.putRequest_sublist ?_ ?_ <;> rw [hr]
    · exact (sublist_cons_self _ _).append_left _
    · rfl
  have hgone : ∀ r', i ∉ ((s.putRequest r (.firing u x taken slots false)).requests r').entries :=
    by
    have hmem : i ∈ (s.requests r).entries := by simp [hr, entries]
    intro r' hi
    by_cases hr' : r' = r
    · subst hr'
      have hd := h.distinct r'
      rw [hr] at hd
      have hd' : (i :: (taken ++ slots.map Prod.fst)).Nodup := perm_middle.nodup_iff.mp hd
      simp only [State.putRequest, update_self] at hi
      exact (nodup_cons.mp hd').1 hi
    · simp only [State.putRequest, update_of_ne hr'] at hi
      exact hr' (h.one r' r i hi hmem)
  exact hrest.putHook rfl (fun _ => rfl) (fun r' hi => absurd hi (hgone r')) id

/-- A slot is marked: its requester does not hold the hook any more. -/
theorem markSlot (h : Places F s) (i : ι) : Places F (s.markSlot i) := by
  unfold State.markSlot
  split
  · exact h
  · rename_i r _
    have hentries : ((s.requests r).mark i).entries = (s.requests r).entries := entries_mark i _
    exact h.putRequest_sublist (by rw [hentries]) (thread_mark i _)

end Requests

variable [DecidableEq τ]

variable (h : Places F s)

include h

theorem mem_taken {x : τ} :
    i ∈ s.taken F x ↔ (s.hooks i).root ≠ none ∧ (s.hooks i).under F x = true := by
  simp only [State.taken, mem_reverse, mem_filter, h.linked]
  constructor
  · rintro ⟨hr, hu⟩
    exact ⟨by simp [hr], hu⟩
  · rintro ⟨hr, hu⟩
    obtain ⟨q, hq⟩ := Option.ne_none_iff_exists'.mp hr
    obtain ⟨l, hl, rfl⟩ := h.root i q hq
    refine ⟨?_, hu⟩
    simp only [Hook.under, hl, decide_eq_true_eq] at hu
    rw [hq, F.root_eq_of_mem hu]

theorem nodup_taken (x : τ) : (s.taken F x).Nodup := nodup_reverse.mpr ((h.nodup _).filter _)

variable [DecidableEq ι] {u : θ}

/-- The locked section of `armCancelHook`. -/
theorem link {l : τ} (ha : (s.hooks i).arm = .linking u) (hl : (s.hooks i).leaf = some l) :
    Places F { s.putHook i { s.hooks i with
        root := some (F.root l), arm := .walking u (F.chain l) } with
      registry := update s.registry (F.root l) (i :: s.registry (F.root l)) } := by
  obtain ⟨hnone, hno⟩ := h.fresh i (by rw [ha]; rfl)
  have hnot : ∀ q, i ∉ s.registry q := by
    intro q hi
    simp [(h.linked q i).mp hi] at hnone
  refine ⟨fun q j => ?_, fun q => ?_, fun j q hq => ?_, fun j hj => ?_, fun r j hj => ?_,
    h.distinct, h.one, fun r j hj => ?_⟩
  · by_cases hq : q = F.root l <;> by_cases hj : j = i
    · subst hq hj
      simp
    · subst hq
      simp [hj, h.linked]
    · subst hj
      simp [hq, hnot, Ne.symm hq]
    · simp [hq, hj, h.linked]
  · obtain rfl | hq := eq_or_ne q (F.root l)
    · simpa [hnot] using h.nodup (F.root l)
    · simpa [hq] using h.nodup q
  · obtain rfl | hj := eq_or_ne j i
    · refine ⟨l, by simpa using hl, ?_⟩
      simpa [eq_comm] using hq
    · simp only [State.putHook, update_of_ne hj] at hq ⊢
      exact h.root j q hq
  · obtain rfl | hji := eq_or_ne j i
    · simp [ArmPc.fresh] at hj
    · simp only [State.putHook, update_of_ne hji] at hj ⊢
      exact h.fresh j hj
  · have hji : j ≠ i := by
      rintro rfl
      exact hno r hj
    simpa [hji] using h.entry r j hj
  · have hji : j ≠ i := by
      rintro rfl
      exact hno r hj
    simpa [hji] using h.held r j hj

/-- The locked section of `disarmCancelHook`. -/
theorem unlink {q : τ} (hr : (s.hooks i).root = some q) :
    Places F { s.putHook i { s.hooks i with root := none, disarm := .returned u } with
      registry := update s.registry q ((s.registry q).erase i) } := by
  refine ⟨fun p j => ?_, fun p => ?_, fun j p hp => ?_, fun j hj => ?_, fun r j hj => ?_,
    h.distinct, h.one, fun r j hj => ?_⟩
  · by_cases hp : p = q <;> by_cases hj : j = i
    · subst hp hj
      simp [(h.nodup p).mem_erase_iff]
    · subst hp
      simp [hj, (h.nodup p).mem_erase_iff, h.linked]
    · subst hj
      simp [hp, h.linked, hr, Ne.symm hp]
    · simp [hp, hj, h.linked]
  · obtain rfl | hp := eq_or_ne p q
    · simpa using (h.nodup p).erase i
    · simpa [hp] using h.nodup p
  · obtain rfl | hj := eq_or_ne j i
    · simp at hp
    · simp only [State.putHook, update_of_ne hj] at hp ⊢
      exact h.root j p hp
  · obtain rfl | hji := eq_or_ne j i
    · simp only [State.putHook, update_self] at hj ⊢
      exact ⟨trivial, (h.fresh j hj).2⟩
    · simp only [State.putHook, update_of_ne hji] at hj ⊢
      exact h.fresh j hj
  · by_cases hji : j = i
    · simp [hji]
    · simpa [hji] using h.entry r j hj
  · have hji : j ≠ i := by
      rintro rfl
      simp [h.entry r j hj] at hr
    simpa [hji] using h.held r j hj

variable [DecidableEq ρ]

/-- The locked section of `takeChainHooks`. -/
theorem take {x : τ} (hr : s.requests r = .walking u x) :
    Places F ((s.takeChainHooks F u x).putRequest r (.unpinning u x (s.taken F x))) := by
  set t := (s.takeChainHooks F u x).putRequest r (.unpinning u x (s.taken F x))
  have hin : ∀ {j}, j ∈ s.taken F x → t.hooks j = (s.hooks j).take u := fun hj => if_pos hj
  have hout : ∀ {j}, j ∉ s.taken F x → t.hooks j = s.hooks j := fun hj => if_neg hj
  have hno : ∀ {j}, (s.hooks j).root = none → j ∉ s.taken F x :=
    fun hj ht => (h.mem_taken.mp ht).1 hj
  have hreq : ∀ {r'}, r' ≠ r → t.requests r' = s.requests r' := fun hr' => update_of_ne hr' _ _
  have hself : t.requests r = .unpinning u x (s.taken F x) := update_self _ _ _
  refine ⟨fun q j => ?_, fun q => ?_, fun j q hq => ?_, fun j hj => ?_, fun r' j hj => ?_,
    fun r' => ?_, fun r₁ r₂ j h₁ h₂ => ?_, fun r' j hj => ?_⟩
  · have hreg : j ∈ update s.registry (F.root x)
        ((s.registry (F.root x)).filter fun h => !(s.hooks h).under F x) q ↔
        (s.hooks j).root = some q ∧ j ∉ s.taken F x := by
      obtain rfl | hq := eq_or_ne q (F.root x)
      · simp only [update_self, State.taken, mem_reverse, mem_filter, h.linked]
        cases (s.hooks j).under F x <;> simp
      · simp only [update_of_ne hq, h.linked, State.taken, mem_reverse, mem_filter, not_and]
        refine ⟨fun hr' => ⟨hr', fun hx => ?_⟩, fun hr' => hr'.1⟩
        exact absurd (Option.some.inj (hr'.symm.trans hx)) hq
    refine hreg.trans ?_
    by_cases hj : j ∈ s.taken F x
    · rw [hin hj]
      simp [hj, Hook.take]
    · rw [hout hj]
      simp [hj]
  · obtain rfl | hq := eq_or_ne q (F.root x)
    · simpa [t] using (h.nodup _).filter _
    · simpa [t, hq] using h.nodup q
  · by_cases hj : j ∈ s.taken F x
    · rw [hin hj] at hq
      cases hq
    · rw [hout hj] at hq ⊢
      exact h.root j q hq
  · have hroot : (s.hooks j).arm.fresh = true := by
      by_cases hj' : j ∈ s.taken F x
      · rwa [hin hj'] at hj
      · rwa [hout hj'] at hj
    obtain ⟨hnone, hent⟩ := h.fresh j hroot
    rw [hout (hno hnone)]
    refine ⟨hnone, fun r' => ?_⟩
    by_cases hr' : r' = r
    · subst hr'
      rw [hself]
      exact hno hnone
    · rw [hreq hr']
      exact hent r'
  · by_cases hr' : r' = r
    · subst hr'
      rw [hself] at hj
      rw [hin hj]
      rfl
    · rw [hreq hr'] at hj
      have hnone := h.entry r' j hj
      rw [hout (hno hnone)]
      exact hnone
  · by_cases hr' : r' = r
    · subst hr'
      rw [hself]
      exact h.nodup_taken x
    · rw [hreq hr']
      exact h.distinct r'
  · by_cases hr₁ : r₁ = r <;> by_cases hr₂ : r₂ = r
    · rw [hr₁, hr₂]
    · subst hr₁
      rw [hself] at h₁
      rw [hreq hr₂] at h₂
      exact absurd h₁ (hno (h.entry r₂ j h₂))
    · subst hr₂
      rw [hself] at h₂
      rw [hreq hr₁] at h₁
      exact absurd h₂ (hno (h.entry r₁ j h₁))
    · rw [hreq hr₁] at h₁
      rw [hreq hr₂] at h₂
      exact h.one r₁ r₂ j h₁ h₂
  · by_cases hr' : r' = r
    · subst hr'
      rw [hself] at hj ⊢
      rw [hin hj]
      exact ⟨rfl, rfl⟩
    · rw [hreq hr'] at hj ⊢
      rw [hout (hno (h.entry r' j hj))]
      exact h.held r' j hj

theorem step {e : Event τ ι ρ θ} (hc : Change F s e t) : Places F t := by
  cases hc with
  | arm ha =>
    have hfresh := h.fresh _ (by rw [ha]; rfl)
    exact h.putHook rfl (absurd hfresh.1) (fun r hr => absurd hr (hfresh.2 r))
      fun _ => by rw [ha]; rfl
  | link ha hl => exact h.link ha hl
  | readEnd _ | readSet _ _ | read _ _ | armed _ =>
    exact h.putHook rfl (fun _ => rfl) (fun _ _ => ⟨rfl, rfl⟩) nofun
  | disarmLinked _ | disarm _ | unlinkGone _ _ | checkSpin _ _ | check _ _ | spin _ _ =>
    exact h.putHook rfl (fun _ => rfl) (fun _ _ => ⟨rfl, rfl⟩) id
  | unlink _ hr => exact h.unlink hr
  | checkMark _ _ _ =>
    have hhooks := s.hooks_markSlot
    refine (h.markSlot _).putHook ?_ ?_ ?_ ?_ <;> simp only [hhooks]
    · exact fun _ => trivial
    · exact fun _ _ => ⟨trivial, trivial⟩
    · exact id
  | request | pin => exact (h.putRequest_nil rfl).congr rfl rfl rfl
  | loadFinishing | load => exact h.putRequest_nil rfl
  | take hr => exact h.take hr
  | unpin hr =>
    refine (h.putRequest_sublist ?_ ?_).congr rfl rfl rfl
    · simp [hr, entries]
    · rw [hr]
      rfl
  | aim n hr => exact h.aim n hr
  | skip _ hr =>
    refine h.putRequest_sublist ?_ ?_ <;> rw [hr]
    · exact (sublist_cons_self _ _).append_left _
    · rfl
  | fire hr =>
    refine h.putRequest_sublist ?_ ?_ <;> rw [hr]
    · exact .refl _
    · rfl
  | fired hr => exact h.fired hr
  | finish | pass => exact h.congr rfl rfl rfl

end Places

end Manwe.CancelHook
