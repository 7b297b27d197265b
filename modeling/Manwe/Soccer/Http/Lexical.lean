import Mathlib
import Manwe.Soccer.Http

/-!
# Lexical facts

Why the parts of a head can be put together and taken apart again: a token holds no separator, a
target no space, a checked value no line break, and a number is its own digits. Properties of single
characters are decided over all 256 of them.
-/

namespace Manwe.Http

open List Nat

variable {s t : Bytes} {c : UInt8}

/-- A property of all 256 bytes. -/
theorem forall_byte {p : UInt8 → Prop} (h : ∀ n : Fin 256, p (UInt8.ofFin n)) (c : UInt8) : p c :=
  h c.toFin

/-! ### Line breaks and control characters -/

theorem hasCtlLineBreak_append :
    hasCtlLineBreak (s ++ t) = (hasCtlLineBreak s || hasCtlLineBreak t) :=
  any_append

theorem hasCtlLineBreak_cons :
    hasCtlLineBreak (c :: s) = ((c == 13 || c == 10 || c == 0) || hasCtlLineBreak s) :=
  any_cons

theorem hasCtlLineBreak_eq_false :
    hasCtlLineBreak s = false ↔ ∀ c ∈ s, c ≠ 13 ∧ c ≠ 10 ∧ c ≠ 0 := by
  simp [hasCtlLineBreak, and_assoc]

theorem hasTargetCtl_append (s t : Bytes) :
    hasTargetCtl (s ++ t) = (hasTargetCtl s || hasTargetCtl t) :=
  any_append

theorem hasFieldValueCtl_eq_false :
    hasFieldValueCtl s = false ↔ ∀ c ∈ s, isFieldValueCtl c = false := by
  simp [hasFieldValueCtl]

theorem hasTargetCtl_eq_false : hasTargetCtl s = false ↔ ∀ c ∈ s, isTargetCtl c = false := by
  simp [hasTargetCtl]

/-- A line break is a control character. -/
theorem lineBreak_of_fieldValue : ∀ c, isFieldValueCtl c = false → c ≠ 13 ∧ c ≠ 10 ∧ c ≠ 0 :=
  forall_byte (by decide +kernel)

/-- A target's characters are neither control characters nor whitespace. -/
theorem of_targetCtl :
    ∀ c, isTargetCtl c = false → isFieldValueCtl c = false ∧ ows c = false ∧ c ≠ 32 :=
  forall_byte (by decide +kernel)

/-- A token's characters may stand in a target, and none is a colon. -/
theorem of_tokenChar : ∀ c, isTokenChar c = true → isTargetCtl c = false ∧ c ≠ 58 :=
  forall_byte (by decide +kernel)

/-- A digit is a token character. -/
theorem tokenChar_of_digit (h : isDigit c = true) : isTokenChar c = true := by
  simp [isTokenChar, h]

theorem ctlLineBreak_of_value (h : hasFieldValueCtl s = false) : hasCtlLineBreak s = false :=
  hasCtlLineBreak_eq_false.2 fun c hc =>
    lineBreak_of_fieldValue c (hasFieldValueCtl_eq_false.1 h c hc)

variable (h : hasTargetCtl s = false)

include h

theorem value_of_target : hasFieldValueCtl s = false :=
  hasFieldValueCtl_eq_false.2 fun c hc => (of_targetCtl c (hasTargetCtl_eq_false.1 h c hc)).1

theorem trimAscii_target : trimAscii s = s := trimBoth_eq_self fun c hc => by
    rw [(of_targetCtl c (hasTargetCtl_eq_false.1 h c hc)).2.1]
    exact Bool.false_ne_true

theorem space_not_mem_target : 32 ∉ s :=
  fun hc => (of_targetCtl 32 (hasTargetCtl_eq_false.1 h 32 hc)).2.2 rfl

omit h

theorem target_of_token (h : isHttpToken s = true) : hasTargetCtl s = false := by
  simp only [isHttpToken, Bool.and_eq_true, all_eq_true] at h
  exact hasTargetCtl_eq_false.2 fun c hc => (of_tokenChar c (h.2 c hc)).1

theorem colon_not_mem_token (h : isHttpToken s = true) : 58 ∉ s := by
  simp only [isHttpToken, Bool.and_eq_true, all_eq_true] at h
  exact fun hc => (of_tokenChar 58 (h.2 58 hc)).2 rfl

/-- What `trimAscii` drops is not a control character. -/
theorem hasFieldValueCtl_trimAscii : hasFieldValueCtl (trimAscii s) = hasFieldValueCtl s := by
  have hows : ∀ c, ows c = true → isFieldValueCtl c = false := forall_byte (by decide +kernel)
  rw [Bool.eq_iff_iff, ← not_iff_not]
  simp only [Bool.not_eq_true, hasFieldValueCtl_eq_false]
  refine ⟨fun h c hc => ?_, fun h c hc => h c (mem_of_mem_trimBoth hc)⟩
  cases ho : ows c with
  | true => exact hows c ho
  | false => exact h c (mem_trimBoth hc (by simp [ho]))

/-- The blank after a colon is trimmed away. -/
theorem trimAscii_blank : trimAscii (32 :: s) = trimAscii s := trimBoth_cons rfl

/-! ### Numbers -/

theorem isDigit_of_char {d : Char} (h : d.isDigit = true) :
    isDigit d.toNat.toUInt8 = true ∧ d.toNat.toUInt8.toNat = d.toNat := by
  simp only [Char.isDigit, Bool.and_eq_true, decide_eq_true_eq] at h
  have hle : 48 ≤ d.toNat ∧ d.toNat ≤ 57 := ⟨h.1, h.2⟩
  generalize d.toNat = n at hle
  obtain ⟨hlo, hhi⟩ := hle
  interval_cases n <;> decide

theorem isDigit_decimal {n : ℕ} (h : c ∈ decimal n) : isDigit c = true := by
  obtain ⟨d, hd, rfl⟩ := mem_map.1 h
  exact (isDigit_of_char <| isDigit_of_mem_toDigits (by decide) (by decide) hd).1

theorem decimal_ne_nil (n : ℕ) : decimal n ≠ [] := by
  simp [decimal, toDigits_ne_nil]

theorem target_decimal (n : ℕ) : hasTargetCtl (decimal n) = false :=
  hasTargetCtl_eq_false.2 fun _ hc => (of_tokenChar _ (tokenChar_of_digit (isDigit_decimal hc))).1

theorem stoull_decimal (n : ℕ) : stoull (decimal n) = n := by
  have hdigits : ∀ l : List Char, (∀ d ∈ l, d.isDigit = true) → ∀ k,
      (l.map fun d => d.toNat.toUInt8).foldl (fun n c => 10 * n + (c.toNat - 48)) k =
        ofDigitChars 10 l k := by
    intro l
    induction l with
    | nil => exact fun _ _ => rfl
    | cons d l ih =>
      intro hl k
      rw [map_cons, foldl_cons, ih fun d' hd' => hl d' (mem_cons_of_mem d hd'),
        (isDigit_of_char (hl d mem_cons_self)).2]
      rfl
  rw [stoull, decimal, hdigits _ fun d hd => isDigit_of_mem_toDigits (by decide) (by decide) hd]
  exact ofDigitChars_toDigits (by decide) (by decide)

/-- A size of up to 12 digits is a length. -/
theorem isLength_decimal {n : ℕ} (h : n < 10 ^ 12) : isLength (decimal n) = true := by
  have hlen : (decimal n).length ≤ 12 := by
    rw [decimal, length_map]
    exact (length_toDigits_le_iff (by decide) (by decide)).2 h
  simp only [isLength, Bool.and_eq_true, Bool.not_eq_true', isEmpty_eq_false_iff,
    decide_eq_true_eq, all_eq_true]
  exact ⟨⟨decimal_ne_nil n, hlen⟩, fun c hc => isDigit_decimal hc⟩

end Manwe.Http
