import Manwe.Soccer.Http.Lexical

/-!
# Header fields

What both sides may rely on: a valid field is one line without stray control characters, a field
has one name, and the lengths that `strictContentLength` accepts agree.
-/

namespace Manwe.Http

open List

variable {l : Bytes}

/-! ### Lines -/

theorem lf_not_mem (h : hasCtlLineBreak l = false) : 10 ∉ l ++ [13] := by
  simp only [mem_append, mem_singleton, not_or]
  exact ⟨fun hm => (hasCtlLineBreak_eq_false.1 h 10 hm).2.1 rfl, by decide⟩

theorem append_crlf : l ++ crlf = (l ++ [13]) ++ [10] := by simp [crlf]

/-- There are at least as many bytes as lines. -/
theorem length_le_flatMap {line : HttpHeader → Bytes} (h : ∀ f, line f ≠ [])
    (fields : List HttpHeader) : fields.length ≤ (fields.flatMap line).length := by
  induction fields with
  | nil => exact le_rfl
  | cons f =>
    have := length_pos_iff.2 (h f)
    rw [flatMap_cons, length_append, length_cons]
    omega

/-! ### Valid fields -/

/-- A field with its value trimmed. -/
def trimmed (f : HttpHeader) : HttpHeader := ⟨f.name, trimAscii f.value⟩

@[simp] theorem named_trimmed (f : HttpHeader) (name : String) :
    (trimmed f).named name = f.named name := rfl

theorem countP_trimmed (fields : List HttpHeader) (name : String) :
    (fields.map trimmed).countP (·.named name) = fields.countP (·.named name) := by
  rw [countP_map]
  rfl

/-- A field whose line may stand in a head. -/
def ValidField (f : HttpHeader) : Prop :=
  isHttpToken f.name = true ∧ hasFieldValueCtl f.value = false

variable {f : HttpHeader} {a b : String} {found res : Option ℕ} {headers : List HttpHeader}

theorem ctl_of_validField (h : ValidField f) :
    hasCtlLineBreak (f.name ++ 58 :: f.value) = false := by
  have hname := ctlLineBreak_of_value (value_of_target (target_of_token h.1))
  rw [← singleton_append, hasCtlLineBreak_append, hasCtlLineBreak_append, hname,
    ctlLineBreak_of_value h.2]
  rfl

/-! ### Names -/

/-- A field has one name. -/
theorem named_eq_false (h : f.named a = true)
    (hne : (bytes a).map tolower ≠ (bytes b).map tolower) :
    f.named b = false := by
  simp only [HttpHeader.named, iequalsAscii, beq_iff_eq, beq_eq_false_iff_ne] at h ⊢
  rw [h]
  exact hne

theorem named_of_name (h : f.name = bytes a) (hne : (bytes a).map tolower ≠ (bytes b).map tolower) :
    f.named b = false := by
  simp only [HttpHeader.named, iequalsAscii, beq_eq_false_iff_ne, h]
  exact hne

/-! ### Lengths -/

theorem contentLengths_ok (h : contentLengths found headers = .ok res) :
    (∀ f ∈ headers, f.named "Content-Length" = true →
      isLength f.value = true ∧ res = some (stoull f.value)) ∧
    ((∀ f ∈ headers, f.named "Content-Length" = false) → res = found) ∧
    (∀ n, found = some n → res = some n) := by
  induction headers generalizing found with
  | nil =>
    cases h
    exact ⟨fun _ hf => absurd hf not_mem_nil, fun _ => rfl, fun _ hn => hn⟩
  | cons f fs ih =>
    unfold contentLengths at h
    simp only [mem_cons, forall_eq_or_imp]
    split at h
    · next hnamed =>
      split at h
      · next hlen =>
        split at h
        · next n =>
          split at h
          · next heq =>
            obtain ⟨h₁, h₂, h₃⟩ := ih h
            refine ⟨⟨fun _ => ⟨hlen, heq ▸ h₃ n rfl⟩, h₁⟩, fun hnone => ?_, h₃⟩
            rw [hnone.1] at hnamed
            cases hnamed
          · cases h
        · obtain ⟨h₁, h₂, h₃⟩ := ih h
          refine ⟨⟨fun _ => ⟨hlen, h₃ _ rfl⟩, h₁⟩, fun hnone => ?_, fun _ hn => by cases hn⟩
          rw [hnone.1] at hnamed
          cases hnamed
      · cases h
    · next hnamed =>
      obtain ⟨h₁, h₂, h₃⟩ := ih h
      exact ⟨⟨fun hn => absurd hn hnamed, h₁⟩, fun hnone => h₂ hnone.2, h₃⟩

/-- Other fields do not matter. -/
theorem contentLengths_append {a b : List HttpHeader}
    (h : ∀ f ∈ a, f.named "Content-Length" = false) :
    contentLengths found (a ++ b) = contentLengths found b := by
  induction a with
  | nil => rfl
  | cons f fs ih =>
    obtain ⟨hf, hfs⟩ := forall_mem_cons.1 h
    rw [cons_append, contentLengths.eq_def]
    dsimp only
    rw [if_neg (by simp [hf]), ih hfs]

theorem strictContentLength_ok {limit : ℕ} (h : strictContentLength headers limit = .ok res) :
    contentLengths none headers = .ok res ∧ (limit ≠ 0 → res.getD 0 ≤ limit) := by
  unfold strictContentLength at h
  split at h
  · cases h
  · next hc =>
    cases h
    exact ⟨hc, fun _ => Nat.zero_le _⟩
  · next n hc =>
    split at h
    · cases h
    · next hlim =>
      cases h
      exact ⟨hc, fun hne => not_lt.1 fun hlt => hlim ⟨hne, hlt⟩⟩

end Manwe.Http
