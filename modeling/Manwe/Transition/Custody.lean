import Mathlib

/-!
# Tokens and who carries them

To say that something handed out is neither lost nor doubled, each thing is given a number when
it is issued, and a ledger records at that place **who carries it**: `some i`, or `none` once it has
been dropped. A token is issued at the end of the ledger (`Custody.issue`) and passed on in place
(`Custody.pass`).

`Custody T g` ties a ledger to the set `g` of those who are meant to carry something: they carry
exactly one token each, and nobody else carries any.
-/

namespace Manwe

open List Option

variable {ι : Type*} {T : List (Option ι)} {g : Set ι}

/-- Exactly the members of `g` carry a token, one each. -/
structure Custody (T : List (Option ι)) (g : Set ι) : Prop where
  mem : ∀ {i}, (∃ n : ℕ, T[n]? = some (some i)) ↔ i ∈ g
  inj : ∀ {n m : ℕ} {i}, T[n]? = some (some i) → T[m]? = some (some i) → n = m

namespace Custody

theorem nil : Custody ([] : List (Option ι)) ∅ := ⟨by simp, by simp⟩

theorem congr {g' : Set ι} (h : Custody T g) (hg : ∀ i, i ∈ g' ↔ i ∈ g) : Custody T g' :=
  ⟨h.mem.trans (hg _).symm, h.inj⟩

/-- New tokens for a list of newcomers. -/
theorem issue (h : Custody T g) {l : List ι} (hl : l.Nodup) (hd : ∀ i ∈ l, i ∉ g) :
    Custody (T ++ l.map some) (g ∪ {j | j ∈ l}) := by
  have hget : ∀ {n : ℕ} {i}, (T ++ l.map some)[n]? = some (some i) ↔
      T[n]? = some (some i) ∨ (T.length ≤ n ∧ l[n - T.length]? = some i) := by
    intro n i
    rcases Nat.lt_or_ge n T.length with hn | hn
    · rw [getElem?_append_left hn]
      exact ⟨.inl, fun h => h.resolve_right fun h' => absurd h'.1 (Nat.not_le.mpr hn)⟩
    · rw [getElem?_append_right hn, getElem?_map, getElem?_eq_none hn]
      simp [hn]
  refine ⟨fun {i} => ?_, fun {n m i} hn hm => ?_⟩
  · simp only [hget, exists_or, h.mem, Set.mem_union, Set.mem_ofPred_eq]
    refine or_congr Iff.rfl ⟨fun ⟨n, _, hn⟩ => mem_of_getElem? hn, fun hi => ?_⟩
    obtain ⟨n, hn⟩ := mem_iff_getElem?.mp hi
    exact ⟨T.length + n, Nat.le_add_right _ _, by rwa [Nat.add_sub_cancel_left]⟩
  · rcases hget.mp hn with hn | ⟨hnle, hn⟩ <;> rcases hget.mp hm with hm | ⟨hmle, hm⟩
    · exact h.inj hn hm
    · exact absurd (h.mem.mp ⟨n, hn⟩) (hd i (mem_of_getElem? hm))
    · exact absurd (h.mem.mp ⟨m, hm⟩) (hd i (mem_of_getElem? hn))
    · have hlt : n - T.length < l.length := (List.getElem?_eq_some_iff.mp hn).1
      have := (getElem?_inj hlt hl).mp (hn.trans hm.symm)
      omega

end Custody

/-- Whatever `i` carries goes to `o`. -/
def passOn [DecidableEq ι] (i : ι) (o : Option ι) (T : List (Option ι)) : List (Option ι) :=
  T.map fun x => if x = some i then o else x

variable [DecidableEq ι] {i : ι} {o : Option ι}

theorem getElem?_passOn (n : ℕ) :
    (passOn i o T)[n]? = T[n]?.map fun x => if x = some i then o else x :=
  getElem?_map

/-- **A token is passed on** by somebody who carried one, to somebody who did not, or dropped. -/
theorem Custody.pass (h : Custody T g) (hi : i ∈ g) (ho : ∀ j, o = some j → j ∉ g) :
    Custody (passOn i o T) ((g \ {i}) ∪ {j | o = some j}) := by
  have hget : ∀ {n : ℕ} {j}, (passOn i o T)[n]? = some (some j) ↔
      (T[n]? = some (some j) ∧ j ≠ i) ∨ (T[n]? = some (some i) ∧ o = some j) := by
    intro n j
    rw [getElem?_passOn]
    cases hn : T[n]? with
    | none => simp
    | some x =>
      by_cases hx : x = some i
      · simp only [hx, map_some, if_true, some.injEq]
        exact ⟨fun hj => .inr ⟨trivial, hj⟩,
          fun hj => hj.elim (fun hj => absurd hj.1.symm hj.2) And.right⟩
      · simp only [map_some, hx, if_false, some.injEq, false_and, or_false]
        exact ⟨fun hj => ⟨hj, fun e => hx (e ▸ hj)⟩, And.left⟩
  refine ⟨fun {j} => ?_, fun {n m j} hn hm => ?_⟩
  · simp only [hget, exists_or, exists_and_right, h.mem, hi, true_and]
    rfl
  · rcases hget.mp hn with ⟨hn, hnj⟩ | ⟨hn, hoj⟩ <;> rcases hget.mp hm with ⟨hm, hmj⟩ | ⟨hm, hoj'⟩
    · exact h.inj hn hm
    · exact absurd (h.mem.mp ⟨n, hn⟩) (ho j hoj')
    · exact absurd (h.mem.mp ⟨m, hm⟩) (ho j hoj)
    · exact h.inj hn hm

end Manwe
