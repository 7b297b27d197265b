import Mathlib
import Manwe.Soccer.WebSocket.Reference

/-!
# The body of a Close frame

`closeBody` cuts a long reason before the last byte that is not a continuation. In UTF-8 a prefix is
valid **iff it ends where a character does**, so the cut is the longest valid prefix that fits, and
the peer's check accepts the body.
-/

namespace Manwe.WebSocket

open Http List Nat

variable {bs rest : Bytes} {k n : ℕ}

/-- A character is a first byte and continuation bytes. -/
theorem encodeChar_shape (ch : Char) : ∃ c tail, String.utf8EncodeChar ch = c :: tail ∧
    ¬ c &&& 0xC0 = 0x80 ∧ ∀ x ∈ tail, x &&& 0xC0 = 0x80 := by
  have hr := char_range ch
  have hbyte : ∀ {m : ℕ}, m < 256 → (UInt8.ofNat m &&& 0xC0 = 0x80 ↔ 128 ≤ m ∧ m < 192) := by
    intro m hm
    rw [continuation_iff, toNat_ofNat_of_lt hm]
  unfold String.utf8EncodeChar
  generalize ch.val.toNat = v at hr
  dsimp only
  split_ifs
  all_goals
    refine ⟨_, _, rfl, ?_, ?_⟩
    · rw [hbyte (by omega)]
      omega
    · simp only [forall_mem_cons, not_mem_nil, false_imp_iff, implies_true, and_true]
      repeat' apply And.intro
      all_goals
        rw [hbyte (by omega)]
        omega

/-- What follows characters in a valid string is valid. -/
theorem IsUtf8.of_append {chars : List Char}
    (h : IsUtf8 (chars.flatMap String.utf8EncodeChar ++ rest)) : IsUtf8 rest := by
  induction chars with
  | nil => exact h
  | cons ch chars ih =>
    rw [flatMap_cons, append_assoc] at h
    have hpos := length_pos_of_ne_nil (String.utf8EncodeChar_ne_nil (c := ch))
    have hloop := (validUtf8Loop_iff (le_succ _)).2 h
    rw [loop_encodeChar] at hloop
    exact ih ((validUtf8Loop_iff (by simp)).1 hloop)

/-- **A prefix is valid iff it ends where a character does.** -/
theorem isUtf8_take (h : IsUtf8 bs) (hk : k < bs.length) :
    IsUtf8 (bs.take k) ↔ ¬ bs.getD k 0 &&& 0xC0 = 0x80 := by
  refine ⟨?_, ?_⟩
  · rintro ⟨chars, hchars⟩
    rw [← take_append_drop k bs, hchars] at h
    obtain ⟨chars', hrest⟩ := h.of_append
    cases chars' with
    | nil => exact absurd (drop_eq_nil_iff.1 hrest) (by omega)
    | cons ch =>
      obtain ⟨c, tail, hc, hfirst, -⟩ := encodeChar_shape ch
      rw [flatMap_cons, hc, drop_eq_getElem_cons hk] at hrest
      rw [getD_eq_getElem _ _ hk, (cons.inj hrest).1]
      exact hfirst
  · obtain ⟨chars, rfl⟩ := h
    induction chars generalizing k with
    | nil => exact absurd hk (not_lt_zero k)
    | cons ch chars ih =>
      intro hend
      obtain ⟨c, tail, hc, -, htail⟩ := encodeChar_shape ch
      rw [flatMap_cons] at hk hend ⊢
      obtain hlt | hle := lt_or_ge k (String.utf8EncodeChar ch).length
      · cases k with
        | zero => exact ⟨[], rfl⟩
        | succ =>
          -- inside a character
          rw [getD_append _ _ _ _ hlt, hc] at hend
          rw [hc, length_cons] at hlt
          rw [getD_cons_succ, getD_eq_getElem _ _ (by omega)] at hend
          exact absurd (htail _ (getElem_mem _)) hend
      · rw [length_append] at hk
        rw [getD_append_right _ _ _ _ hle] at hend
        obtain ⟨chars', hrest⟩ := ih (by omega) hend
        refine ⟨ch :: chars', ?_⟩
        rw [take_append, take_of_length_le hle, hrest, flatMap_cons]

theorem reasonCut_spec (bs : Bytes) (n : ℕ) : reasonCut bs n ≤ n ∧
    (reasonCut bs n = 0 ∨ ¬ bs.getD (reasonCut bs n) 0 &&& 0xC0 = 0x80) ∧
    ∀ k ≤ n, reasonCut bs n < k → bs.getD k 0 &&& 0xC0 = 0x80 := by
  induction n with
  | zero => exact ⟨le_rfl, .inl rfl, fun k hk hlt => absurd hlt (by omega)⟩
  | succ n ih =>
    rw [reasonCut]
    split
    · next hc =>
      refine ⟨ih.1.trans (le_succ n), ih.2.1, fun k hk hlt => ?_⟩
      obtain rfl | hk := eq_or_lt_of_le hk
      · exact hc
      · exact ih.2.2 k (by omega) hlt
    · next hc => exact ⟨le_rfl, .inr hc, fun k hk hlt => absurd hlt (by omega)⟩

/-- The codes that may be sent. -/
def SendableCode (code : ℕ) : Prop :=
  1000 ≤ code ∧ code ≤ 1014 ∧ code ≠ 1004 ∧ code ≠ 1005 ∧ code ≠ 1006 ∨ 3000 ≤ code ∧ code ≤ 4999

theorem closePayloadOk_beBytes {code : ℕ} (hcode : SendableCode code) (hr : IsUtf8 bs) :
    closePayloadOk (beBytes 2 code ++ bs) = true := by
  have hlt : code < 65536 := by
    unfold SendableCode at hcode
    omega
  have hhi : (UInt8.ofNat (code / 256 % 256)).toNat = code / 256 := by
    rw [toNat_ofNat_of_lt (by omega)]
    omega
  have hlo : (UInt8.ofNat (code % 256)).toNat = code % 256 := toNat_ofNat_of_lt (by omega)
  have hvalid : validUtf8 bs = true := (validUtf8Loop_iff le_rfl).2 hr
  simp only [beBytes, pow_one, pow_zero, Nat.div_one, cons_append, nil_append, closePayloadOk, hhi,
    hlo, Nat.div_add_mod', hvalid, Bool.and_true]
  simpa [SendableCode, and_assoc] using hcode

/-- **A Close body is accepted**: it carries the code and the longest valid prefix of the reason
that fits. -/
theorem closeBody_accepted {code : ℕ} {reason : Bytes} (hcode : SendableCode code)
    (hr : IsUtf8 reason) :
    ∃ cut, closeBody code reason = beBytes 2 code ++ reason.take cut ∧
      (closeBody code reason).length ≤ 125 ∧ IsUtf8 (reason.take cut) ∧
      (∀ k ≤ 123, IsUtf8 (reason.take k) → (reason.take k).length ≤ cut) ∧
      onClose ⟨opClose, true, closeBody code reason⟩ = (do
        echoClose (closeBody code reason)
        throw (.ws "connection closed by peer")) := by
  have hspec : ∃ cut, closeBody code reason = beBytes 2 code ++ reason.take cut ∧ cut ≤ 123 ∧
      IsUtf8 (reason.take cut) ∧
      ∀ k ≤ 123, IsUtf8 (reason.take k) → (reason.take k).length ≤ cut := by
    unfold closeBody
    split
    · next hlong =>
      obtain ⟨hle, hend, hlast⟩ := reasonCut_spec reason 123
      refine ⟨_, rfl, hle, ?_, fun k hk hv => ?_⟩
      · obtain h0 | hend := hend
        · exact ⟨[], by simp [h0]⟩
        · exact (isUtf8_take hr (by omega)).2 hend
      · by_contra hlt
        rw [length_take] at hlt
        exact (isUtf8_take hr (by omega)).1 hv (hlast k hk (by omega))
    · next hshort =>
      refine ⟨reason.length, by rw [take_length], by omega, by rwa [take_length], fun k _ _ => ?_⟩
      exact length_take_le' ..
  obtain ⟨cut, hbody, hle, hv, hmax⟩ := hspec
  refine ⟨cut, hbody, ?_, hv, hmax, ?_⟩
  · rw [hbody, length_append, length_beBytes, length_take]
    omega
  · rw [onClose, hbody, closePayloadOk_beBytes hcode hv]
    rfl

theorem closeBody_accepted_longReason : SendableCode 1000 ∧ IsUtf8 (replicate 130 97) ∧
    ∃ cut, closeBody 1000 (replicate 130 97) = beBytes 2 1000 ++ (replicate 130 97).take cut := by
  have hr : IsUtf8 (replicate 130 97) := by decide +kernel
  have hcode : SendableCode 1000 := by simp [SendableCode]
  obtain ⟨cut, hbody, -⟩ := closeBody_accepted hcode hr
  exact ⟨hcode, hr, cut, hbody⟩

end Manwe.WebSocket
