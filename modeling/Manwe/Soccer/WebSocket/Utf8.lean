import Manwe.Soccer.Http.Lexical

/-!
# Strict UTF-8

`validUtf8` (`WebSocket.cpp`) is the check on text messages and close reasons. It is shown to accept
exactly the byte strings that are the **encoding of a list of characters**, where a character is a
Unicode scalar value and its encoding is `String.utf8EncodeChar`: no overlong forms, no surrogates,
nothing above U+10FFFF and no truncated sequence.
-/

namespace Manwe.WebSocket

open Http List Bool UInt8

/-- The length of a sequence of more than one byte, and the bits its first byte contributes. -/
def leadByte (c : UInt8) : Option (ℕ × ℕ) :=
  if 0xC2 ≤ c ∧ c ≤ 0xDF then some (2, (c &&& 0x1F).toNat)
  else if 0xE0 ≤ c ∧ c ≤ 0xEF then some (3, (c &&& 0x0F).toNat)
  else if 0xF0 ≤ c ∧ c ≤ 0xF4 then some (4, (c &&& 0x07).toNat)
  else none

/-- The loop over the continuation bytes. -/
def codePoint (cp : ℕ) : Bytes → Option ℕ
  | [] => some cp
  | cc :: rest =>
    if cc &&& 0xC0 ≠ 0x80 then none else codePoint (cp * 64 + (cc &&& 0x3F).toNat) rest

/-- An overlong form, a surrogate, or beyond the last code point. -/
def badPoint (len cp : ℕ) : Bool :=
  (len == 3 && cp < 0x800) || (len == 4 && cp < 0x10000) || cp > 0x10FFFF ||
    (0xD800 ≤ cp && cp ≤ 0xDFFF)

/-- The loop of `validUtf8`; every round takes a byte, so the length is fuel enough. -/
def validUtf8Loop : ℕ → Bytes → Bool
  | _, [] => true
  | 0, _ :: _ => false
  | fuel + 1, c :: rest =>
    if c < 0x80 then validUtf8Loop fuel rest
    else match leadByte c with
      | none => false
      | some (len, cp) =>
        if rest.length < len - 1 then false
        else match codePoint cp (rest.take (len - 1)) with
          | none => false
          | some cp => !badPoint len cp && validUtf8Loop fuel (rest.drop (len - 1))

/-- `validUtf8`. -/
def validUtf8 (bs : Bytes) : Bool := validUtf8Loop bs.length bs

/-! ### Bytes as numbers -/

theorem leadByte_eq : ∀ c : UInt8, leadByte c =
    if 0xC2 ≤ c.toNat ∧ c.toNat ≤ 0xDF then some (2, c.toNat % 32)
    else if 0xE0 ≤ c.toNat ∧ c.toNat ≤ 0xEF then some (3, c.toNat % 16)
    else if 0xF0 ≤ c.toNat ∧ c.toNat ≤ 0xF4 then some (4, c.toNat % 8)
    else none :=
  forall_byte (by decide +kernel)

theorem continuation_iff : ∀ c : UInt8, c &&& 0xC0 = 0x80 ↔ 128 ≤ c.toNat ∧ c.toNat < 192 :=
  forall_byte (by decide +kernel)

theorem continuation_bits : ∀ c : UInt8, (c &&& 0x3F).toNat = c.toNat % 64 :=
  forall_byte (by decide +kernel)

theorem ascii_iff (c : UInt8) : c < 0x80 ↔ c.toNat < 128 := lt_iff_toNat_lt

variable {c : UInt8}

theorem codePoint_cons {cp : ℕ} {rest : Bytes} : codePoint cp (c :: rest) =
      if 128 ≤ c.toNat ∧ c.toNat < 192 then codePoint (cp * 64 + c.toNat % 64) rest else none := by
  rw [codePoint, continuation_bits]
  by_cases h : 128 ≤ c.toNat ∧ c.toNat < 192
  · rw [if_neg (not_not.2 ((continuation_iff c).2 h)), if_pos h]
  · rw [if_pos (mt (continuation_iff c).1 h), if_neg h]

variable {n : ℕ}

theorem codePoint_of_cons {cp : ℕ} {rest : Bytes} (h : codePoint cp (c :: rest) = some n) :
    (128 ≤ c.toNat ∧ c.toNat < 192) ∧ codePoint (cp * 64 + c.toNat % 64) rest = some n := by
  rwa [codePoint_cons, Option.ite_none_right_eq_some] at h

theorem toNat_ofNat_of_lt (h : n < 256) : (UInt8.ofNat n).toNat = n := Nat.mod_eq_of_lt h

theorem ofNat_eq_of_toNat (h : n = c.toNat) : UInt8.ofNat n = c := by
  rw [h, UInt8.ofNat_toNat]

/-- Six bits in a continuation byte. -/
theorem codePoint_digit (cp m : ℕ) (rest : Bytes) :
    codePoint cp (ofNat (m % 64 + 128) :: rest) = codePoint (cp * 64 + m % 64) rest := by
  rw [codePoint_cons, toNat_ofNat_of_lt (by omega), if_pos (by omega),
    show (m % 64 + 128) % 64 = m % 64 by omega]

/-! ### One round of the loop -/

variable {fuel len bits cp : ℕ} {c : UInt8} {tail rest bs : Bytes}

/-- A sequence of several bytes is taken as a whole. -/
theorem loop_sequence (hl : leadByte c = some (len, bits)) (ht : tail.length = len - 1)
    (hp : codePoint bits tail = some cp) (hbad : badPoint len cp = false) :
    validUtf8Loop (fuel + 1) (c :: tail ++ rest) = validUtf8Loop fuel rest := by
  have hc : 128 ≤ c.toNat := by
    rw [leadByte_eq] at hl
    split_ifs at hl <;> omega
  have hlen : ¬ (tail ++ rest).length < len - 1 := by
    rw [length_append]
    omega
  rw [cons_append, validUtf8Loop, if_neg (by rw [ascii_iff]; omega), hl]
  dsimp only
  rw [if_neg hlen, ← ht, take_left, drop_left, hp]
  dsimp only
  rw [hbad]
  rfl

/-- What a round that does not fail has taken. -/
theorem loop_cons (h : validUtf8Loop (fuel + 1) (c :: bs) = true) :
    (c.toNat < 128 ∧ validUtf8Loop fuel bs = true) ∨
    ∃ len bits cp tail rest, leadByte c = some (len, bits) ∧ bs = tail ++ rest ∧
      tail.length = len - 1 ∧ codePoint bits tail = some cp ∧ badPoint len cp = false ∧
      validUtf8Loop fuel rest = true := by
  rw [validUtf8Loop] at h
  split at h
  · next hc => exact .inl ⟨(ascii_iff c).1 hc, h⟩
  · split at h
    · cases h
    · next len bits hl =>
      split at h
      · cases h
      · next hlen =>
        split at h
        · cases h
        · next cp hp =>
          rw [and_eq_true, not_eq_true'] at h
          refine .inr ⟨len, bits, cp, _, _, hl, (take_append_drop (len - 1) bs).symm, ?_, hp,
            h.1, h.2⟩
          rw [length_take]
          omega

/-! ### Encodings are valid -/

theorem char_range (ch : Char) :
    ch.val.toNat < 0xD800 ∨ 0xDFFF < ch.val.toNat ∧ ch.val.toNat < 0x110000 := ch.valid

theorem loop_encodeChar (ch : Char) :
    validUtf8Loop (fuel + 1) (String.utf8EncodeChar ch ++ rest) = validUtf8Loop fuel rest := by
  have hr := char_range ch
  unfold String.utf8EncodeChar
  generalize ch.val.toNat = v at hr
  dsimp only
  split
  · -- one byte
    have hb : (UInt8.ofNat v).toNat = v := toNat_ofNat_of_lt (by omega)
    rw [cons_append, nil_append, validUtf8Loop, if_pos (by rw [ascii_iff]; omega)]
  · split
    · have hl : leadByte (ofNat (v / 64 % 32 + 192)) = some (2, v / 64 % 32) := by
        rw [leadByte_eq, toNat_ofNat_of_lt (by omega), if_pos (by omega)]
        congr 2
        omega
      have hp : codePoint (v / 64 % 32) [ofNat (v % 64 + 128)] = some v := by
        rw [codePoint_digit, codePoint]
        congr 1
        omega
      have hbad : badPoint 2 v = false := by simp [badPoint]; omega
      exact loop_sequence hl rfl hp hbad
    · split
      · have hl : leadByte (ofNat (v / 4096 % 16 + 224)) = some (3, v / 4096 % 16) := by
          rw [leadByte_eq, toNat_ofNat_of_lt (by omega), if_neg (by omega), if_pos (by omega)]
          congr 2
          omega
        have hp : codePoint (v / 4096 % 16)
            [ofNat (v / 64 % 64 + 128), ofNat (v % 64 + 128)] = some v := by
          rw [codePoint_digit, codePoint_digit, codePoint]
          congr 1
          omega
        have hbad : badPoint 3 v = false := by simp [badPoint]; omega
        exact loop_sequence hl rfl hp hbad
      · have hl : leadByte (ofNat (v / 262144 % 8 + 240)) = some (4, v / 262144 % 8) := by
          rw [leadByte_eq, toNat_ofNat_of_lt (by omega), if_neg (by omega), if_neg (by omega),
            if_pos (by omega)]
          congr 2
          omega
        have hp : codePoint (v / 262144 % 8)
            [ofNat (v / 4096 % 64 + 128), ofNat (v / 64 % 64 + 128),
              ofNat (v % 64 + 128)] = some v := by
          rw [codePoint_digit, codePoint_digit, codePoint_digit, codePoint]
          congr 1
          omega
        have hbad : badPoint 4 v = false := by simp [badPoint]; omega
        exact loop_sequence hl rfl hp hbad

/-! ### What is valid is an encoding -/

/-- The character with a given scalar value. -/
theorem exists_char (h : cp < 0xD800 ∨ 0xDFFF < cp ∧ cp < 0x110000) :
    ∃ ch : Char, ch.val.toNat = cp :=
  ⟨Char.ofNatAux cp h, rfl⟩

theorem exists_encodeChar (hl : leadByte c = some (len, bits)) (ht : tail.length = len - 1)
    (hp : codePoint bits tail = some cp) (hbad : badPoint len cp = false) :
    ∃ ch, String.utf8EncodeChar ch = c :: tail := by
  simp only [badPoint, or_eq_false_iff, and_eq_false_iff, decide_eq_false_iff_not,
    beq_eq_false_iff_ne] at hbad
  obtain ⟨ch, hch⟩ := exists_char (by omega : cp < 0xD800 ∨ 0xDFFF < cp ∧ cp < 0x110000)
  refine ⟨ch, ?_⟩
  unfold String.utf8EncodeChar
  rw [leadByte_eq] at hl
  split at hl
  · cases hl
    obtain ⟨x, rfl⟩ := length_eq_one_iff.1 ht
    obtain ⟨hx, hp⟩ := codePoint_of_cons hp
    cases hp
    rw [if_neg (by omega), if_pos (by omega)]
    exact congrArg₂ _ (ofNat_eq_of_toNat (by omega))
      (congrArg₂ _ (ofNat_eq_of_toNat (by omega)) rfl)
  split at hl
  · cases hl
    obtain ⟨x, y, rfl⟩ := length_eq_two.1 ht
    obtain ⟨hx, hp⟩ := codePoint_of_cons hp
    obtain ⟨hy, hp⟩ := codePoint_of_cons hp
    cases hp
    rw [if_neg (by omega), if_neg (by omega), if_pos (by omega)]
    exact congrArg₂ _ (ofNat_eq_of_toNat (by omega)) (congrArg₂ _ (ofNat_eq_of_toNat (by omega))
      (congrArg₂ _ (ofNat_eq_of_toNat (by omega)) rfl))
  split at hl <;> cases hl
  obtain ⟨x, y, z, rfl⟩ := length_eq_three.1 ht
  obtain ⟨hx, hp⟩ := codePoint_of_cons hp
  obtain ⟨hy, hp⟩ := codePoint_of_cons hp
  obtain ⟨hz, hp⟩ := codePoint_of_cons hp
  cases hp
  rw [if_neg (by omega), if_neg (by omega), if_neg (by omega)]
  exact congrArg₂ _ (ofNat_eq_of_toNat (by omega)) (congrArg₂ _ (ofNat_eq_of_toNat (by omega))
    (congrArg₂ _ (ofNat_eq_of_toNat (by omega)) (congrArg₂ _ (ofNat_eq_of_toNat (by omega)) rfl)))

theorem exists_ascii (h : c.toNat < 128) : ∃ ch, String.utf8EncodeChar ch = [c] := by
  obtain ⟨ch, hch⟩ := exists_char (.inl (by omega : c.toNat < 0xD800))
  refine ⟨ch, ?_⟩
  unfold String.utf8EncodeChar
  rw [hch, if_pos (by omega), UInt8.ofNat_toNat]

theorem validUtf8Loop_iff (hf : bs.length ≤ fuel) :
    validUtf8Loop fuel bs = true ↔ ∃ chars : List Char,
      bs = chars.flatMap String.utf8EncodeChar := by
  induction fuel generalizing bs with
  | zero =>
    obtain rfl := length_eq_zero_iff.1 (Nat.le_zero.1 hf)
    exact ⟨fun _ => ⟨[], rfl⟩, fun _ => rfl⟩
  | succ fuel ih =>
    refine ⟨fun h => ?_, ?_⟩
    · cases bs with
      | nil => exact ⟨[], rfl⟩
      | cons =>
        rw [length_cons] at hf
        rcases loop_cons h with ⟨hc, h⟩ | ⟨len, bits, cp, tail, rest, hl, rfl, ht, hp, hbad, h⟩
        · obtain ⟨chars, rfl⟩ := (ih (by omega)).1 h
          obtain ⟨ch, hch⟩ := exists_ascii hc
          exact ⟨ch :: chars, by rw [flatMap_cons, hch, singleton_append]⟩
        · rw [length_append] at hf
          obtain ⟨chars, rfl⟩ := (ih (by omega)).1 h
          obtain ⟨ch, hch⟩ := exists_encodeChar hl ht hp hbad
          exact ⟨ch :: chars, by rw [flatMap_cons, hch, cons_append]⟩
    · rintro ⟨chars, rfl⟩
      cases chars with
      | nil => rfl
      | cons ch chars =>
        have hpos := length_pos_of_ne_nil (String.utf8EncodeChar_ne_nil (c := ch))
        rw [flatMap_cons, length_append] at hf
        rw [flatMap_cons, loop_encodeChar]
        exact (ih (by omega)).2 ⟨chars, rfl⟩

/-- **`validUtf8` accepts exactly the encodings of lists of characters.** -/
theorem validUtf8_iff (bs : Bytes) :
    validUtf8 bs = true ↔ ∃ chars : List Char, bs = chars.flatMap String.utf8EncodeChar :=
  validUtf8Loop_iff le_rfl

end Manwe.WebSocket
