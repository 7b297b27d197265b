import Mathlib
import Manwe.Transition.Run

/-!
# Histogram snapshots

An observation adds to every bucket whose bound it does not exceed, one atomic increment after the
other, and `snapshot` reads the buckets one by one meanwhile. What it reads of a bucket is **between
what the bucket held before and after**. The running maximum that repairs the order keeps both
bounds, since the bounds of the buckets ascend.
-/

namespace Manwe.Histogram

open List Prod

variable {δ : Type*} [LinearOrder δ]

structure State (δ : Type*) where
  /-- the calls of `observe`: the value, and how many buckets it has passed -/
  calls : List (δ × ℕ) := []
  bucketCounts : ℕ → ℕ := fun _ => 0
  /-- the counts that the snapshot has read so far -/
  out : List ℕ := []

inductive Event (δ : Type*)
  | observe (x : δ)
  /-- a call passes its next bucket -/
  | pass (c : δ × ℕ)
  /-- the snapshot reads its next bucket -/
  | load

/-- The bounds of the buckets, with that of the last one. -/
def uppers (bounds : List δ) : List (WithTop δ) := bounds.map (↑) ++ [⊤]

/-- One atomic step; `bounds` are those of a constructed histogram. -/
def step (bounds : List δ) (s : State δ) : Event δ → Option (State δ)
  | .observe x => some { s with calls := (x, 0) :: s.calls }
  | .pass c =>
    match (uppers bounds)[c.2]? with
    | some b =>
      if c ∈ s.calls then
        some { s with
          calls := (c.1, c.2 + 1) :: s.calls.erase c
          bucketCounts := if c.1 ≤ b then
              Function.update s.bucketCounts c.2 (s.bucketCounts c.2 + 1)
            else s.bucketCounts }
      else none
    | none => none
  | .load =>
    if s.out.length ≤ bounds.length then
      some { s with out := s.out ++ [s.bucketCounts s.out.length] }
    else none

/-- The loop at the end of `snapshot`: no count is below the one before it. -/
def raise (least : ℕ) : List ℕ → List ℕ
  | [] => []
  | n :: counts => max n least :: raise (max n least) counts

/-- What `snapshot` returns when it has read the counts `out`. -/
def snapshot (bounds : List δ) (out : List ℕ) : List (WithTop δ × ℕ) :=
  (uppers bounds).zip (raise 0 out)

/-- The `_count` series of `scrape`. -/
def scrapeCount (snap : List (WithTop δ × ℕ)) : ℕ := (snap.getLast?.map snd).getD 0

variable {bounds : List δ} {s t : State δ} {e : Event δ} {tr : List (State δ × Event δ)}

/-! ### The buckets -/

/-- **A bucket holds the calls that have passed it and are not above its bound.** -/
def Exact (bounds : List δ) (s : State δ) : Prop :=
  ∀ i (b : WithTop δ), (uppers bounds)[i]? = some b →
    s.bucketCounts i = s.calls.countP fun c => i < c.2 ∧ c.1 ≤ b

theorem exact_step (h : Exact bounds s) (hs : step bounds s e = some t) : Exact bounds t := by
  intro i b hi
  have ih := h i b hi
  cases e with simp only [step] at hs
  | observe =>
    cases hs
    simpa using ih
  | pass c =>
    split at hs
    · next b' hb =>
      obtain ⟨hc, rfl⟩ := of_guard hs
      rw [(perm_cons_erase hc).countP_eq, countP_cons] at ih
      rw [countP_cons]
      dsimp only
      -- only the bucket that is passed can tell the two positions of the call apart
      obtain rfl | hne := eq_or_ne i c.2
      · obtain rfl := Option.some.inj (hi.symm.trans hb)
        by_cases hle : c.1 ≤ b <;> simp [-not_le, hle, ih]
      · have hsame : (if c.1 ≤ b' then Function.update s.bucketCounts c.2 (s.bucketCounts c.2 + 1)
            else s.bucketCounts) i = s.bucketCounts i := by
          split <;> simp [hne]
        have hlt : i < c.2 + 1 ↔ i < c.2 := by omega
        simp only [hsame, ih, hlt]
    · cases hs
  | load =>
    obtain ⟨-, rfl⟩ := of_guard hs
    exact ih

/-- Buckets only grow, and only the snapshot's own steps add to what it has read. -/
theorem reads_step (hs : step bounds s e = some t) : (∀ i, s.bucketCounts i ≤ t.bucketCounts i) ∧
      (t.out = s.out ∨ t.out = s.out ++ [s.bucketCounts s.out.length]) := by
  cases e with simp only [step] at hs
  | observe =>
    cases hs
    exact ⟨fun _ => le_rfl, .inl rfl⟩
  | pass =>
    split at hs
    · obtain ⟨-, rfl⟩ := of_guard hs
      refine ⟨fun i => ?_, .inl rfl⟩
      split
      · exact update_rec (fun hi => hi ▸ Nat.le_succ _) fun _ => le_rfl
      · exact le_rfl
    · cases hs
  | load =>
    obtain ⟨-, rfl⟩ := of_guard hs
    exact ⟨fun _ => le_rfl, .inr rfl⟩

/-- **What is read of a bucket** is between what it held when the snapshot began and what it holds
now. -/
theorem out_between {s₁ : State δ} (h : Run (step bounds) s₁ tr s) (h₁ : s₁.out = []) :
    (∀ i, s₁.bucketCounts i ≤ s.bucketCounts i) ∧
      ∀ i n, s.out[i]? = some n → s₁.bucketCounts i ≤ n ∧ n ≤ s.bucketCounts i := by
  induction h with
  | start => exact ⟨fun i => le_rfl, by simp [h₁]⟩
  | @next tr s t e hr hs ih =>
    obtain ⟨hmono, hout⟩ := reads_step hs
    have hold {i n} (hn : s.out[i]? = some n) : s₁.bucketCounts i ≤ n ∧ n ≤ t.bucketCounts i :=
      ⟨(ih.2 i n hn).1, (ih.2 i n hn).2.trans (hmono i)⟩
    refine ⟨fun i => (ih.1 i).trans (hmono i), fun i n hn => ?_⟩
    obtain hout | hout := hout <;> rw [hout] at hn
    · exact hold hn
    · rw [getElem?_append] at hn
      split at hn
      · exact hold hn
      · obtain rfl := mem_singleton.1 (mem_of_getElem? hn)
        obtain ⟨hi, -⟩ := List.getElem?_eq_some_iff.1 hn
        rw [length_singleton] at hi
        obtain rfl : i = s.out.length := by omega
        exact ⟨ih.1 _, hmono _⟩

/-! ### The repair -/

theorem length_raise (l : List ℕ) (m : ℕ) : (raise m l).length = l.length := by
  induction l generalizing m with
  | nil => rfl
  | cons n l ih => exact congrArg (· + 1) (ih _)

theorem raise_pairwise (l : List ℕ) (m : ℕ) :
    (raise m l).Pairwise (· ≤ ·) ∧ ∀ n ∈ raise m l, m ≤ n := by
  induction l generalizing m with
  | nil => exact ⟨.nil, nofun⟩
  | cons n l ih =>
    obtain ⟨hp, hle⟩ := ih (max n m)
    refine ⟨pairwise_cons.2 ⟨hle, hp⟩, forall_mem_cons.2 ⟨le_max_right _ _, fun k hk => ?_⟩⟩
    exact (le_max_right _ _).trans (hle k hk)

/-- Bounds on the counts survive the repair if the upper one grows with the bucket's bound. -/
theorem raise_between {β : Type*} [Preorder β] {lo hi : β → ℕ} (hmono : Monotone hi) {bs : List β}
    (hbs : bs.Pairwise (· ≤ ·)) {out : List ℕ} {m : ℕ} (hm : ∀ b ∈ bs, m ≤ hi b)
    (h : ∀ b n, (b, n) ∈ bs.zip out → lo b ≤ n ∧ n ≤ hi b) :
    ∀ b n, (b, n) ∈ bs.zip (raise m out) → lo b ≤ n ∧ n ≤ hi b := by
  induction out generalizing bs m with
  | nil => simp [raise]
  | cons n out ih =>
    cases bs with
    | nil => simp
    | cons b =>
      have hn := h b n mem_cons_self
      rw [forall_mem_cons] at hm
      rw [pairwise_cons] at hbs
      intro b' n' hp
      obtain hp | hp := mem_cons.1 hp
      · cases hp
        exact ⟨hn.1.trans (le_max_left _ _), max_le hn.2 hm.1⟩
      · refine ih hbs.2 (fun b' hb' => ?_) (fun b n hp => h b n (mem_cons_of_mem _ hp)) b' n' hp
        exact max_le (hn.2.trans (hmono (hbs.1 b' hb'))) (hm.2 b' hb')

/-- **A snapshot is consistent**: the counts do not decrease with the bound, and each is between the
observations that had passed all buckets when it began and those that have begun by its end. -/
theorem snapshot_consistent (hb : bounds.Pairwise (· < ·)) {tr₁ tr₂ : List (State δ × Event δ)}
    {s₁ s₂ : State δ} (h₁ : Run (step bounds) {} tr₁ s₁) (h₂ : Run (step bounds) s₁ tr₂ s₂)
    (hstart : s₁.out = []) (hend : s₂.out.length = bounds.length + 1) :
    (snapshot bounds s₂.out).map fst = uppers bounds ∧
    ((snapshot bounds s₂.out).map snd).Pairwise (· ≤ ·) ∧
    (∀ b n, (b, n) ∈ snapshot bounds s₂.out →
      s₁.calls.countP (fun c => c.2 = bounds.length + 1 ∧ c.1 ≤ b) ≤ n ∧
      n ≤ s₂.calls.countP (fun c => c.1 ≤ b)) ∧
    (snapshot bounds s₂.out).getLast? = some (⊤, scrapeCount (snapshot bounds s₂.out)) := by
  have hlen : (raise 0 s₂.out).length = (uppers bounds).length := by
    simp [length_raise, hend, uppers]
  have hfst : (snapshot bounds s₂.out).map fst = uppers bounds := map_fst_zip hlen.ge
  refine ⟨hfst, ?_, ?_, ?_⟩
  · exact (map_snd_zip hlen.le).symm ▸ (raise_pairwise _ _).1
  · have hc₁ : Exact bounds s₁ := h₁.invariant (fun _ _ => True) (fun _ _ => trivial)
      (fun _ _ _ => rfl) fun ih _ => exact_step ih
    have hc₂ : Exact bounds s₂ := h₂.invariant (fun _ _ => True) (fun _ _ => trivial) hc₁
      fun ih _ => exact_step ih
    have hup : (uppers bounds).Pairwise (· ≤ ·) := pairwise_append.2
      ⟨pairwise_map.2 (hb.imp fun h => WithTop.coe_le_coe.2 h.le), pairwise_singleton _ _, by simp⟩
    refine raise_between (fun b b' hbb => ?_) hup (fun _ _ => Nat.zero_le _) fun b n hp => ?_
    · refine countP_mono_left fun c _ hc => ?_
      simp only [decide_eq_true_eq] at hc ⊢
      exact hc.trans hbb
    · obtain ⟨i, hi⟩ := mem_iff_getElem?.1 hp
      obtain ⟨hib, hin⟩ := getElem?_zip_eq_some.1 hi
      obtain ⟨hlo, hhi⟩ := (out_between h₂ hstart).2 i n hin
      rw [hc₁ i b hib] at hlo
      rw [hc₂ i b hib] at hhi
      have hlt : i < bounds.length + 1 := hend ▸ (List.getElem?_eq_some_iff.1 hin).1
      refine ⟨le_trans ?_ hlo, hhi.trans ?_⟩
      · refine countP_mono_left fun c _ hc => ?_
        simp only [decide_eq_true_eq] at hc ⊢
        exact ⟨hc.1 ▸ hlt, hc.2⟩
      · refine countP_mono_left fun c _ hc => ?_
        simp only [decide_eq_true_eq] at hc ⊢
        exact hc.2
  · obtain ⟨p, hp, hp₁⟩ : ∃ p, (snapshot bounds s₂.out).getLast? = some p ∧ p.1 = ⊤ := by
      rw [← Option.map_eq_some_iff, ← getLast?_map, hfst, uppers, getLast?_concat]
    rw [scrapeCount, hp, ← hp₁]
    rfl

/-- The snapshot reads between the two increments of one call. -/
theorem snapshot_consistent_between : ∃ tr s, Run (step [1]) ({} : State ℕ) tr s ∧
    s.out = [1, 0] ∧ ((snapshot [1] s.out).map snd).Pairwise (· ≤ ·) := by
  have h : Run (step [1]) ({} : State ℕ) _ _ :=
    .follow [.observe 1, .pass (1, 0), .load, .load] (by decide +kernel)
  exact ⟨_, _, h, by decide +kernel,
    (snapshot_consistent (by decide) .start h rfl (by decide +kernel)).2.1⟩

end Manwe.Histogram
