import Manwe.Yarn.CancelHook.Disarm

/-!
# No hook is missed

A requester that has scanned the list leaves no linked hook behind that it should have taken, except
one whose armer has not come to the requested task yet on its way up the chain. That armer will find
the flag set. What holds of a hook that is linked no more: its owner has called disarm, its callback
was started, or a requester has it.
-/

namespace Manwe.CancelHook

open Function List State RequestPc

variable {τ ι ρ θ : Type*}

namespace RequestPc

/-- The task whose flag the requester has set. -/
def task : RequestPc τ ι θ → Option τ
  | .idle => none
  | .flagged _ x | .pinned _ x | .walking _ x | .unpinning _ x _ | .firing _ x _ _ _ => some x

/-- The task whose hooks the requester has taken, or did not have to. -/
def scanned : RequestPc τ ι θ → Option τ
  | .unpinning _ x _ | .firing _ x _ _ _ => some x
  | _ => none

variable {pc : RequestPc τ ι θ}

theorem task_of_scanned {x : τ} (h : pc.scanned = some x) : pc.task = some x := by
  cases pc with
  | unpinning | firing => exact h
  | _ => cases h

theorem task_mark [DecidableEq ι] (h : ι) (pc : RequestPc τ ι θ) : (pc.mark h).task = pc.task := by
  cases pc <;> rfl

theorem holds.mark [DecidableEq ι] {h i : ι} (hh : pc.holds h) (hi : h ≠ i) :
    (pc.mark i).holds h := by
  cases pc with
  | firing =>
    refine hh.imp_right fun hm => mem_map.mpr ⟨(h, false), hm, ?_⟩
    simp [hi]
  | _ => exact hh

theorem running_of_mark [DecidableEq ι] {i : ι} {u : θ} {y : τ} {taken : List ι} {p : ι × Bool}
    {slots : List (ι × Bool)} (h : pc.mark i = .firing u y taken (p :: slots) true) :
    ∃ p' slots', pc = .firing u y taken (p' :: slots') true ∧ p'.1 = p.1 := by
  cases pc with
  | firing v z taken' slots' =>
    cases slots' with
    | nil => cases h
    | cons q slots' =>
      simp only [mark, map_cons, firing.injEq, cons.injEq] at h
      obtain ⟨rfl, rfl, rfl, ⟨hp, -⟩, rfl⟩ := h
      refine ⟨q, slots', rfl, ?_⟩
      rw [← hp]
      split <;> simp_all
  | _ => cases h

theorem scanned_mark [DecidableEq ι] (h : ι) (pc : RequestPc τ ι θ) :
    (pc.mark h).scanned = pc.scanned := by
  cases pc <;> rfl

end RequestPc

/-- The step starts the callback of `h`, on this thread. -/
def runsAt [DecidableEq ι] (h : ι) (s : State τ ι ρ θ) : Event τ ι ρ θ → List θ
  | .read i stopped =>
    match (s.hooks i).arm with
    | .walking t (y :: _) => if i = h ∧ (s.cancelled y || stopped) = true then [t] else []
    | _ => []
  | .fire r =>
    match s.requests r with
    | .firing t _ _ ((i, false) :: _) false => if i = h then [t] else []
    | _ => []
  | _ => []

variable [DecidableEq τ] [DecidableEq ι] [DecidableEq ρ]

/-! ### What a step does to one hook -/

/-- The ways in which a step can change hook `h`, apart from the protocol of `firing`. -/
inductive Moves (F : Forest τ) (s : State τ ι ρ θ) (e : Event τ ι ρ θ) (h : ι) (k : Hook τ ρ θ) :
    Prop
  | keep (hr : k.root = (s.hooks h).root) (hl : k.leaf = (s.hooks h).leaf)
      (ha : k.arm = (s.hooks h).arm)
  | arm {u : θ} {l : τ} (he : e = .arm h u l) (ha : k.arm = .linking u) (hl : k.leaf = some l)
      (hr : k.root = (s.hooks h).root) (hs : (s.hooks h).arm = .idle)
  | link {u : θ} {l : τ} (hl : k.leaf = some l) (hs : (s.hooks h).leaf = some l)
      (hr : k.root = some (F.root l)) (ha : k.arm = .walking u (F.chain l))
      (hf : (s.hooks h).arm.fresh = true)
  | read {u : θ} {y : τ} {rest : List τ} (hs : (s.hooks h).arm = .walking u (y :: rest))
      (hc : s.cancelled y = false) (ha : k.arm = .walking u rest) (hl : k.leaf = (s.hooks h).leaf)
      (hr : k.root = (s.hooks h).root)
  | readEnd {u : θ} (hs : (s.hooks h).arm = .walking u []) (hl : k.leaf = (s.hooks h).leaf)
      (hr : k.root = (s.hooks h).root) (ha : k.arm = .returned)
  | run {u : θ} (hu : u ∈ runsAt h s e) (hl : k.leaf = (s.hooks h).leaf)
      (hr : k.root = (s.hooks h).root) (ha : k.arm = .inline u)
  | armed {u : θ} (hs : (s.hooks h).arm = .inline u) (hl : k.leaf = (s.hooks h).leaf)
      (hr : k.root = (s.hooks h).root) (ha : k.arm = .returned)
  | unlink (hd : k.disarm.called = true) (hl : k.leaf = (s.hooks h).leaf) (hr : k.root = none)
      (ha : k.arm = (s.hooks h).arm)
  | take {r : ρ} {u : θ} {x : τ} (he : e = .take r) (hq : s.requests r = .walking u x)
      (ht : h ∈ s.taken F x) (hr : k.root = none) (hl : k.leaf = (s.hooks h).leaf)
      (ha : k.arm = (s.hooks h).arm)

variable {h : ι}

variable {F : Forest τ} {s t : State τ ι ρ θ} {e : Event τ ι ρ θ} {r : ρ}

omit [DecidableEq ρ] in
theorem Moves.leaf_eq {k : Hook τ ρ θ} (hm : Moves F s e h k) :
    k.leaf = (s.hooks h).leaf ∨ ∃ u l, e = .arm h u l ∧ k.leaf = some l := by
  cases hm with
  | arm he _ hl _ _ => exact .inr ⟨_, _, he, hl⟩
  | link hl hs => exact .inl (hl.trans hs.symm)
  | keep _ hl | read _ _ _ hl | readEnd _ hl | run _ hl | armed _ hl | unlink _ hl
  | take _ _ _ _ hl => exact .inl hl

theorem moves_of_change (hc : Change F s e t) (h : ι) : Moves F s e h (t.hooks h) := by
  have hput {j : ι} {k : Hook τ ρ θ} (hk : j = h → Moves F s e h k) :
      Moves F s e h (update s.hooks j k h) :=
    update_rec (fun hj => hk hj.symm) fun _ => .keep rfl rfl rfl
  cases hc with
  | arm ha => exact hput fun hj => hj ▸ .arm rfl rfl rfl rfl ha
  | link ha hl => exact hput fun hj => hj ▸ .link hl hl rfl rfl (by rw [ha]; rfl)
  | readEnd ha => exact hput fun hj => hj ▸ .readEnd ha rfl rfl rfl
  | @readSet _ u _ _ _ ha hc =>
    refine hput fun hj => ?_
    subst hj
    exact .run (by simp [runsAt, ha, hc]) rfl rfl rfl
  | read ha hc => exact hput fun hj => hj ▸ .read ha hc rfl rfl rfl
  | armed ha => exact hput fun hj => hj ▸ .armed ha rfl rfl rfl
  | disarmLinked | disarm | unlinkGone | checkSpin | check | spin | fired =>
    exact hput fun hj => hj ▸ .keep rfl rfl rfl
  | unlink => exact hput fun hj => hj ▸ .unlink rfl rfl rfl rfl
  | checkMark =>
    simp only [putHook, hooks_markSlot]
    exact hput fun hj => hj ▸ .keep rfl rfl rfl
  | take hr =>
    simp only [takeChainHooks, putRequest]
    split
    · exact .take rfl hr ‹_› rfl rfl rfl
    · exact .keep rfl rfl rfl
  | aim =>
    simp only [aimHooks, putRequest]
    split <;> exact .keep rfl rfl rfl
  | request | pin | loadFinishing | load | unpin | skip | fire | finish | pass =>
    exact .keep rfl rfl rfl

theorem called_step (hc : Change F s e t) (hd : (s.hooks h).disarm.called = true) :
    (t.hooks h).disarm.called = true := by
  have hput {j : ι} {k : Hook τ ρ θ} (hk : j = h → k.disarm.called = true) :
      (update s.hooks j k h).disarm.called = true :=
    update_rec (p := fun k : Hook τ ρ θ => k.disarm.called = true) (fun hj => hk hj.symm)
      fun _ => hd
  cases hc with
  | arm | link | readEnd | readSet | read | armed | fired =>
    exact hput fun hj => hj ▸ hd
  | disarmLinked _ | disarm _ | unlinkGone _ _ | checkSpin _ _ | check _ _ | spin _ _
  | unlink _ _ => exact hput fun _ => rfl
  | checkMark _ _ _ =>
    simp only [putHook, hooks_markSlot]
    exact hput fun _ => rfl
  | take | aim =>
    simp only [takeChainHooks, aimHooks, putRequest]
    split <;> exact hd
  | request | pin | loadFinishing | load | unpin | skip | fire | finish | pass => exact hd

/-! ### What a step does to one requester -/

/-- How a requester comes to have scanned the list for `x`. -/
theorem scanned_of_change (hc : Change F s e t) {x : τ} (hr : (t.requests r).scanned = some x) :
    (s.requests r).scanned = some x ∨ (∃ u, e = .take r ∧ s.requests r = .walking u x) ∨
      e = .load r ∧ s.finishing x = true := by
  have hput {r' : ρ} {p q : RequestPc τ ι θ} (hq : s.requests r' = q)
      (ht : t.requests = update s.requests r' p) (hpq : p.scanned = q.scanned) :
      (s.requests r).scanned = some x := by
    rwa [ht, update_alike hq hpq] at hr
  cases hc with
  | request hq | pin hq | load hq | unpin hq | aim _ hq | skip _ hq | fire hq | fired hq =>
    exact .inl (hput hq rfl rfl)
  | @loadFinishing r' u y hq hf =>
    obtain rfl | hrr := eq_or_ne r r'
    · simp only [putRequest, update_self] at hr
      cases hr
      exact .inr (.inr ⟨rfl, hf⟩)
    · exact .inl (by simpa [hrr] using hr)
  | @take r' u y hq =>
    obtain rfl | hrr := eq_or_ne r r'
    · simp only [putRequest, update_self] at hr
      cases hr
      exact .inr (.inl ⟨u, rfl, hq⟩)
    · simp only [putRequest, takeChainHooks, update_of_ne hrr] at hr
      exact .inl hr
  | @checkMark i _ _ _ _ =>
    refine .inl ?_
    rcases s.requests_markSlot i r with hq | hq
    · rwa [← hq]
    · rwa [← scanned_mark i, ← hq]
  | _ => exact .inl hr

/-- A requester deals with the hooks it holds: it lets one go when its owner has called disarm, or
after its callback. -/
theorem holds_step (hc : Change F s e t) (hh : (s.requests r).holds h) :
    (t.requests r).holds h ∨ (t.hooks h).disarm.called = true ∨
      ∃ u y taken slots, s.requests r = .firing u y taken ((h, false) :: slots) true := by
  have hput {r' : ρ} {p : RequestPc τ ι θ} (ht : t.requests = update s.requests r' p)
      (hp : r = r' → p.holds h ∨ ∃ u y taken slots,
        s.requests r = .firing u y taken ((h, false) :: slots) true) :
      (t.requests r).holds h ∨ (t.hooks h).disarm.called = true ∨
        ∃ u y taken slots, s.requests r = .firing u y taken ((h, false) :: slots) true := by
    by_cases hrr : r = r'
    · rw [ht, hrr, update_self]
      exact (hp hrr).imp_right (hrr ▸ .inr)
    · rw [ht, update_of_ne hrr]
      exact .inl hh
  cases hc with
  | request hq | pin hq | load hq _ | loadFinishing hq _ | take hq =>
    refine hput rfl fun hrr => ?_
    rw [hrr, hq] at hh
    exact hh.elim
  | unpin hq =>
    refine hput rfl fun hrr => .inl (.inl ?_)
    rwa [hrr, hq] at hh
  | @aim _ _ _ taken _ n hq _ _ _ =>
    refine hput rfl fun hrr => .inl ?_
    rw [hrr, hq] at hh
    have hmem : h ∈ taken.take n ++ taken.drop n := by
      rw [take_append_drop]
      exact hh.resolve_right not_mem_nil
    exact (mem_append.mp hmem).symm.imp_right fun hm => mem_map_of_mem hm
  | skip _ hq =>
    refine hput rfl fun hrr => .inl ?_
    rw [hrr, hq] at hh
    exact hh.imp_right fun hm => (mem_cons.mp hm).resolve_left (by simp)
  | fire hq =>
    refine hput rfl fun hrr => .inl ?_
    rwa [hrr, hq] at hh
  | @fired r' u y taken i slots hq =>
    refine hput rfl fun hrr => ?_
    subst hrr
    rw [hq] at hh
    rcases hh with hh | hh
    · exact .inl (.inl hh)
    · rcases mem_cons.mp hh with hh | hh
      · cases hh
        exact .inr ⟨u, y, taken, slots, hq⟩
      · exact .inl (.inr hh)
  | @checkMark i u _ _ _ =>
    obtain rfl | hi := eq_or_ne h i
    · refine .inr (.inl ?_)
      simp [DisarmPc.called]
    · refine .inl ?_
      show ((s.markSlot i).requests r).holds h
      rcases s.requests_markSlot i r with hq | hq <;> rw [hq]
      · exact hh
      · exact hh.mark hi
  | _ => exact .inl hh

/-! ### The scan -/

/-- **No hook is missed.** `ran h` says that the callback of `h` was started. -/
structure Scan (F : Forest τ) (ran : ι → Prop) (s : State τ ι ρ θ) : Prop where
  flag : ∀ r x, (s.requests r).task = some x → s.cancelled x = true
  ended : ∀ x h, s.finishing x = true → (s.hooks h).under F x = true →
    (s.hooks h).disarm.called = true
  running : ∀ r u y taken p slots, s.requests r = .firing u y taken (p :: slots) true → ran p.1
  /-- the armer of a linked hook that a scan has missed has the task before it -/
  missed : ∀ r x h, (s.requests r).scanned = some x → (s.hooks h).under F x = true →
    (s.hooks h).root ≠ none → (s.hooks h).disarm.called = true ∨ ran h ∨
      ∃ u rest, (s.hooks h).arm = .walking u rest ∧ x ∈ rest
  gone : ∀ h, (s.hooks h).arm.fresh = false → (s.hooks h).root = none →
    (s.hooks h).disarm.called = true ∨ ran h ∨ ∃ r, (s.requests r).holds h

namespace Scan

variable {F : Forest τ} {ran ran' : ι → Prop} {s t : State τ ι ρ θ} {e : Event τ ι ρ θ}

omit [DecidableEq ι] [DecidableEq ρ] in
theorem init : Scan F ran ({} : State τ ι ρ θ) where
  flag _ _ := nofun
  ended _ _ := nofun
  running _ _ _ _ _ _ := nofun
  missed _ _ _ := nofun
  gone _ := nofun

variable {r : ρ} {x : τ}

theorem flag_step (h : Scan F ran s) (hc : Change F s e t) (hr : (t.requests r).task = some x) :
    t.cancelled x = true := by
  have hput {r' : ρ} {p q : RequestPc τ ι θ} (hq : s.requests r' = q)
      (ht : t.requests = update s.requests r' p) (hpq : p.task = q.task) :
      (s.requests r).task = some x := by
    rwa [ht, update_alike hq hpq] at hr
  cases hc with
  | @request r' u y =>
    obtain rfl | hx := eq_or_ne x y
    · exact update_self ..
    · have hrr : r ≠ r' := by
        rintro rfl
        simp only [putRequest, update_self] at hr
        cases hr
        exact hx rfl
      simp only [putRequest, update_of_ne hrr] at hr
      exact (update_of_ne hx _ _).trans (h.flag r x hr)
  | pin hq | load hq _ | loadFinishing hq _ | take hq | unpin hq | aim _ hq _ _ _ | skip _ hq
  | fire hq | fired hq => exact h.flag r x (hput hq rfl rfl)
  | @checkMark i _ _ _ _ =>
    rw [s.markSlot_eta i]
    refine h.flag r x ?_
    rcases s.requests_markSlot i r with hq | hq
    · rwa [← hq]
    · rwa [← task_mark i, ← hq]
  | _ => exact h.flag r x hr

omit [DecidableEq ι] [DecidableEq ρ] in
theorem under_congr {k k' : Hook τ ρ θ} (hl : k'.leaf = k.leaf) (hu : k'.under F x = true) :
    k.under F x = true := by
  rwa [Hook.under, hl] at hu

variable {i : ι}

theorem ended_step (h : Scan F ran s) (ho : Owned F s e) (hc : Change F s e t)
    (hf : t.finishing x = true) (hu : (t.hooks i).under F x = true) :
    (t.hooks i).disarm.called = true := by
  have hfin : s.finishing x = true ∨ e = .finish x := by
    cases hc with
    | @finish y =>
      by_cases hx : x = y
      · exact .inr (by rw [hx])
      · exact .inl ((update_of_ne hx _ _).symm.trans hf)
    | @checkMark j =>
      rw [s.markSlot_eta j] at hf
      exact .inl hf
    | _ => exact .inl hf
  refine called_step hc ?_
  rcases hfin with hfin | rfl
  · rcases (moves_of_change hc i).leaf_eq with hl | ⟨u, l, rfl, hl⟩
    · exact h.ended x i hfin (under_congr hl hu)
    · simp only [Hook.under, hl, decide_eq_true_eq] at hu
      rw [ho.2 x hu] at hfin
      cases hfin
  · cases hc with
    | finish => exact ho i hu
    | skip he => rcases he with he | he <;> cases he

theorem running_step (h : Scan F ran s) (hmono : ∀ i, ran i → ran' i)
    (hrun : ∀ i u, u ∈ runsAt i s e → ran' i) (hc : Change F s e t) {u : θ} {y : τ} {taken : List ι}
    {p : ι × Bool} {slots : List (ι × Bool)}
    (hr : t.requests r = .firing u y taken (p :: slots) true) : ran' p.1 := by
  have hold (hr : s.requests r = .firing u y taken (p :: slots) true) : ran' p.1 :=
    hmono _ (h.running r u y taken p slots hr)
  have hput {r' : ρ} {q : RequestPc τ ι θ} (ht : t.requests = update s.requests r' q)
      (hq : q = .firing u y taken (p :: slots) true → ran' p.1) : ran' p.1 := by
    rw [ht] at hr
    exact (of_update hr).elim (fun hr => hq hr.2) fun hr => hold hr.2
  cases hc with
  | request | pin | load | loadFinishing | take | unpin | aim | skip | fired =>
    exact hput rfl fun hq => by simp at hq
  | @fire r' _ _ _ i _ hq =>
    refine hput rfl fun hqq => ?_
    cases hqq
    exact hrun i u (by simp [runsAt, hq])
  | @checkMark i _ _ _ _ =>
    rcases s.requests_markSlot i r with hq | hq
    · exact hold (hq ▸ hr)
    · obtain ⟨p', slots', hs, hp⟩ := running_of_mark (hq ▸ hr)
      rw [← hp]
      exact hmono _ (h.running r u y taken p' slots' hs)
  | _ => exact hold hr

theorem missed_step (h : Scan F ran s) (hp : Places F s) (hmono : ∀ i, ran i → ran' i)
    (hrun : ∀ i u, u ∈ runsAt i s e → ran' i) (hc : Change F s e t)
    (hr : (t.requests r).scanned = some x) (hu : (t.hooks i).under F x = true)
    (hroot : (t.hooks i).root ≠ none) : (t.hooks i).disarm.called = true ∨ ran' i ∨
      ∃ u rest, (t.hooks i).arm = .walking u rest ∧ x ∈ rest := by
  rcases scanned_of_change hc hr with hr | ⟨u, rfl, hq⟩ | ⟨rfl, hf⟩
  · have hold (hl : (t.hooks i).leaf = (s.hooks i).leaf) (hrt : (t.hooks i).root = (s.hooks i).root)
        (ha : ∀ u rest, (s.hooks i).arm = .walking u rest → x ∈ rest →
          ∃ u rest, (t.hooks i).arm = .walking u rest ∧ x ∈ rest) :
        (t.hooks i).disarm.called = true ∨ ran' i ∨
          ∃ u rest, (t.hooks i).arm = .walking u rest ∧ x ∈ rest := by
      rw [hrt] at hroot
      rcases h.missed r x i hr (under_congr hl hu) hroot with hd | hran | ⟨u, rest, harm, hx⟩
      · exact .inl (called_step hc hd)
      · exact .inr (.inl (hmono i hran))
      · exact .inr (.inr (ha u rest harm hx))
    cases moves_of_change hc i with
    | keep hrt hl ha => exact hold hl hrt fun u rest harm hx => ⟨u, rest, ha.trans harm, hx⟩
    | arm _ _ _ hrt hs => exact absurd (hrt.trans (hp.fresh i (by rw [hs]; rfl)).1) hroot
    | link hl _ _ ha _ =>
      simp only [Hook.under, hl, decide_eq_true_eq] at hu
      exact .inr (.inr ⟨_, _, ha, hu⟩)
    | read hs hcan ha hl hrt =>
      refine hold hl hrt fun u rest harm hx => ?_
      cases hs.symm.trans harm
      rcases mem_cons.mp hx with rfl | hx
      · -- the armer would have found the flag set
        rw [h.flag r x (task_of_scanned hr)] at hcan
        cases hcan
      · exact ⟨_, _, ha, hx⟩
    | readEnd hs hl hrt _ =>
      refine hold hl hrt fun u rest harm hx => ?_
      cases hs.symm.trans harm
      cases hx
    | run hv _ _ _ => exact .inr (.inl (hrun i _ hv))
    | armed hs hl hrt _ =>
      refine hold hl hrt fun u rest harm _ => ?_
      cases hs.symm.trans harm
    | unlink hd => exact .inl hd
    | take _ _ _ hrt => exact absurd hrt hroot
  · cases hc with
    | take hq' =>
      cases hq.symm.trans hq'
      simp only [takeChainHooks, putRequest] at hu hroot
      split_ifs at hroot with hno
      · exact absurd rfl hroot
      · rw [if_neg hno] at hu
        exact absurd (hp.mem_taken.mpr ⟨hroot, hu⟩) hno
    | skip he => rcases he with he | he <;> cases he
  · cases hc with
    | loadFinishing | load => exact .inl (h.ended x i hf hu)
    | skip he => rcases he with he | he <;> cases he

theorem gone_step (h : Scan F ran s) (hmono : ∀ i, ran i → ran' i)
    (hrun : ∀ i u, u ∈ runsAt i s e → ran' i) (hc : Change F s e t)
    (hfresh : (t.hooks i).arm.fresh = false) (hroot : (t.hooks i).root = none) :
    (t.hooks i).disarm.called = true ∨ ran' i ∨ ∃ r, (t.requests r).holds i := by
  have hold (ha : (s.hooks i).arm.fresh = false) (hrt : (t.hooks i).root = (s.hooks i).root) :
      (t.hooks i).disarm.called = true ∨ ran' i ∨ ∃ r, (t.requests r).holds i := by
    rcases h.gone i ha (hrt ▸ hroot) with hd | hran | ⟨r, hr⟩
    · exact .inl (called_step hc hd)
    · exact .inr (.inl (hmono i hran))
    · rcases holds_step hc hr with hr | hd | ⟨u, y, taken, slots, hq⟩
      · exact .inr (.inr ⟨r, hr⟩)
      · exact .inl hd
      · exact .inr (.inl (hmono i (h.running r u y taken (i, false) slots hq)))
  cases moves_of_change hc i with
  | keep hrt _ ha => exact hold (ha ▸ hfresh) hrt
  | arm _ ha =>
    rw [ha] at hfresh
    cases hfresh
  | link _ _ hrt =>
    rw [hrt] at hroot
    cases hroot
  | read hs _ _ _ hrt | readEnd hs _ hrt | armed hs _ hrt => exact hold (by rw [hs]; rfl) hrt
  | run hv _ _ _ => exact .inr (.inl (hrun i _ hv))
  | unlink hd => exact .inl hd
  | @take r u x he hq hmem _ _ _ =>
    subst he
    refine .inr (.inr ⟨r, ?_⟩)
    cases hc with
    | take hq' =>
      cases hq.symm.trans hq'
      simpa using hmem
    | skip he => rcases he with he | he <;> cases he

theorem step (h : Scan F ran s) (hp : Places F s) (ho : Owned F s e) (hmono : ∀ i, ran i → ran' i)
    (hrun : ∀ i u, u ∈ runsAt i s e → ran' i) (hc : Change F s e t) : Scan F ran' t where
  flag _ _ := h.flag_step hc
  ended _ _ := h.ended_step ho hc
  running _ _ _ _ _ _ := h.running_step hmono hrun hc
  missed _ _ _ := h.missed_step hp hmono hrun hc
  gone _ := h.gone_step hmono hrun hc

end Scan

end Manwe.CancelHook
