import Mathlib

/-!
# Tables

A `Table κ α` is a finite map in the way an unordered hash map is one: a list of entries **no two of
which share a key**, whose order nobody relies on. Entries come by `emplace`, which does nothing if
the key is taken, change in place by `map`, and go by `erase`.

What a proof needs of them is said through `find`. Beside it stand the two measures of a whole
table: `size`, and `total f`, the sum of `f` over the values.
-/

namespace Manwe

open List

/-- Entries with distinct keys. -/
structure Table (κ : Type*) (α : Type*) where
  entries : List (κ × α)
  nodup : (entries.map Prod.fst).Nodup

namespace Table

variable {κ α : Type*}

def empty : Table κ α := ⟨[], nodup_nil⟩

def size (T : Table κ α) : ℕ := T.entries.length

/-- The sum of `f` over the values. -/
def total (f : α → ℕ) (T : Table κ α) : ℕ := (T.entries.map fun p => f p.2).sum

/-- Every value is changed in place. -/
def map (f : κ → α → α) (T : Table κ α) : Table κ α where
  entries := T.entries.map fun p => (p.1, f p.1 p.2)
  nodup := by simpa only [map_map, Function.comp_def] using T.nodup

/-- The entries that satisfy `keep`. -/
def filter (keep : κ → α → Bool) (T : Table κ α) : Table κ α where
  entries := T.entries.filter fun p => keep p.1 p.2
  nodup := T.nodup.sublist (filter_sublist.map _)

variable [DecidableEq κ]

def find (T : Table κ α) (k : κ) : Option α := (T.entries.find? fun p => p.1 = k).map Prod.snd

/-- Nothing happens if the key is taken. -/
def emplace (T : Table κ α) (k : κ) (a : α) : Table κ α :=
  if h : k ∈ T.entries.map Prod.fst then T
  else ⟨(k, a) :: T.entries, nodup_cons.2 ⟨h, T.nodup⟩⟩

/-- One value is changed in place. -/
def adjust (T : Table κ α) (k : κ) (f : α → α) : Table κ α :=
  T.map fun k' a => if k' = k then f a else a

def erase (T : Table κ α) (k : κ) : Table κ α where
  entries := T.entries.filter fun p => p.1 ≠ k
  nodup := T.nodup.sublist (filter_sublist.map _)

/-! ### Looking up -/

variable {T : Table κ α} {k k' : κ} {a b : α}

theorem find_eq_some : T.find k = some a ↔ (k, a) ∈ T.entries := by
  rw [find, Option.map_eq_some_iff]
  refine ⟨?_, fun h => ?_⟩
  · rintro ⟨⟨k', b⟩, hp, rfl⟩
    obtain rfl : k' = k := by simpa using find?_some hp
    exact mem_of_find?_eq_some hp
  · cases hf : T.entries.find? fun p => p.1 = k with
    | none =>
      have := find?_eq_none.1 hf (k, a) h
      simp at this
    | some p =>
      have hk : p.1 = k := by simpa using find?_some hf
      have := inj_on_of_nodup_map T.nodup (mem_of_find?_eq_some hf) h hk
      exact ⟨p, rfl, by rw [this]⟩

theorem find_eq_none : T.find k = none ↔ k ∉ T.entries.map Prod.fst := by
  rw [Option.eq_none_iff_forall_not_mem]
  simp only [Option.mem_def, find_eq_some, mem_map, not_exists, Prod.exists]
  exact ⟨fun h k' a ⟨hm, hk⟩ => h a (hk ▸ hm), fun h a hm => h k a ⟨hm, rfl⟩⟩

@[simp] theorem find_empty : (empty : Table κ α).find k = none := rfl

@[simp] theorem find_map (f : κ → α → α) : (T.map f).find k = (T.find k).map (f k) := by
  ext a
  simp only [Option.map_eq_some_iff, find_eq_some, map, mem_map, Prod.exists, Prod.mk.injEq]
  exact ⟨fun ⟨k', b, hm, hk, ha⟩ => ⟨b, hk ▸ hm, hk ▸ ha⟩, fun ⟨b, hm, ha⟩ => ⟨k, b, hm, rfl, ha⟩⟩

theorem find_adjust (f : α → α) :
    (T.adjust k f).find k' = if k' = k then (T.find k').map f else T.find k' := by
  rw [adjust, find_map]
  split
  · rfl
  · exact congrFun Option.map_id _

theorem find_erase : (T.erase k).find k' = if k' = k then none else T.find k' := by
  split
  · next h =>
    rw [find_eq_none, h]
    simp [erase]
  · next h =>
    ext a
    simp only [find_eq_some, erase, mem_filter, ne_eq, decide_eq_true_eq, and_iff_left h]

variable {keep : κ → α → Bool}

theorem find_of_filter (h : (T.filter keep).find k = some a) : T.find k = some a :=
  find_eq_some.2 (mem_of_mem_filter (find_eq_some.1 h))

theorem find_filter_none (h : T.find k = none) : (T.filter keep).find k = none :=
  Option.eq_none_iff_forall_ne_some.2 fun _ hf => by
    rw [find_of_filter hf] at h
    cases h

theorem find_emplace (h : T.find k = none) :
    (T.emplace k a).find k' = if k' = k then some a else T.find k' := by
  rw [emplace, dif_neg (find_eq_none.1 h)]
  ext b
  rw [find_eq_some, mem_cons]
  split
  · next hk =>
    subst hk
    have : (k', b) ∉ T.entries := fun hm => by rw [find_eq_some.2 hm] at h; cases h
    simp [this, eq_comm]
  · next hk => simp [hk, find_eq_some]

/-! ### Measures -/

omit [DecidableEq κ] in
@[simp] theorem size_map (f : κ → α → α) : (T.map f).size = T.size := length_map _

@[simp] theorem size_adjust (f : α → α) : (T.adjust k f).size = T.size := size_map _

theorem size_emplace (h : T.find k = none) : (T.emplace k a).size = T.size + 1 := by
  rw [emplace, dif_neg (find_eq_none.1 h)]
  rfl

/-- The entry of a key, and the others. -/
theorem perm_erase (h : T.find k = some a) : T.entries.Perm ((k, a) :: (T.erase k).entries) := by
  have hn : T.entries.Nodup := T.nodup.of_map
  have hmem := find_eq_some.1 h
  refine (perm_ext_iff_of_nodup hn (nodup_cons.2 ⟨?_, ?_⟩)).2 fun p => ?_
  · simp [erase]
  · exact hn.sublist filter_sublist
  · simp only [erase, mem_cons, mem_filter, ne_eq, decide_eq_true_eq]
    refine ⟨fun hp => ?_, ?_⟩
    · by_cases hk : p.1 = k
      · exact .inl (inj_on_of_nodup_map T.nodup hp hmem hk)
      · exact .inr ⟨hp, hk⟩
    · rintro (rfl | ⟨hp, -⟩)
      · exact hmem
      · exact hp

theorem size_erase (h : T.find k = some a) : (T.erase k).size + 1 = T.size :=
  (perm_erase h).length_eq.symm

theorem total_erase (f : α → ℕ) (h : T.find k = some a) :
    f a + (T.erase k).total f = T.total f := by
  have := ((perm_erase h).map fun p => f p.2).sum_eq
  exact this.symm

theorem total_emplace (f : α → ℕ) (h : T.find k = none) :
    (T.emplace k a).total f = f a + T.total f := by
  rw [emplace, dif_neg (find_eq_none.1 h)]
  rfl

omit [DecidableEq κ] in
/-- What leaves `f` alone everywhere leaves the total alone. -/
theorem total_map (f : α → ℕ) (g : κ → α → α) (h : ∀ k a, f (g k a) = f a) :
    (T.map g).total f = T.total f := by
  simp only [total, map, map_map, Function.comp_def, h]

theorem erase_adjust (g : α → α) : ((T.adjust k g).erase k).entries = (T.erase k).entries := by
  simp only [erase, adjust, map, filter_map]
  refine (map_congr_left fun p hp => ?_).trans (map_id _)
  have hk : p.1 ≠ k := by simpa using (mem_filter.1 hp).2
  simp [hk]

theorem total_adjust (f : α → ℕ) (g : α → α) (h : T.find k = some a) :
    (T.adjust k g).total f + f a = T.total f + f (g a) := by
  have h' : (T.adjust k g).find k = some (g a) := by rw [find_adjust, if_pos rfl, h]; rfl
  have hsame : ((T.adjust k g).erase k).total f = (T.erase k).total f := by
    rw [total, erase_adjust]
    rfl
  have := total_erase f h
  have := total_erase f h'
  omega

/-- What leaves `f` of one value alone leaves the total alone. -/
theorem total_adjust_of_eq (f : α → ℕ) (g : α → α) (h : ∀ a, f (g a) = f a) :
    (T.adjust k g).total f = T.total f :=
  total_map f _ fun _ a => by split <;> simp only [h]

/-- The values under distinct keys are part of the total. -/
theorem sum_find_le_total (f : α → ℕ) {ks : List κ} (hks : ks.Nodup) :
    (ks.map fun k => (T.find k).elim 0 f).sum ≤ T.total f := by
  induction ks generalizing T with
  | nil => exact Nat.zero_le _
  | cons k ks ih =>
    obtain ⟨hk, hks⟩ := nodup_cons.1 hks
    rw [map_cons, sum_cons]
    cases hf : T.find k with
    | none => simpa using ih hks
    | some =>
      have hsame : (ks.map fun k' => (T.find k').elim 0 f) =
          ks.map fun k' => ((T.erase k).find k').elim 0 f := by
        refine map_congr_left fun k' hk' => ?_
        rw [find_erase, if_neg (by rintro rfl; exact hk hk')]
      rw [hsame, ← total_erase f hf]
      exact Nat.add_le_add_left (ih hks) _

end Table

end Manwe
