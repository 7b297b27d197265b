import Mathlib

/-!
# Trace contexts

`Trace.cpp`: the `traceparent` header is `00-`, the trace id, the span id and the flags, in lower
case hexadecimal digits of fixed width. **Each context that may be propagated has one text**, and
the parser accepts nothing else.
-/

namespace Manwe.Trace

open List

/-- `std::array<std::uint8_t, n>`. -/
abbrev Octets (n : ℕ) := { bs : List UInt8 // bs.length = n }

structure Context where
  traceId : Octets 16 := ⟨replicate 16 0, rfl⟩
  spanId : Octets 8 := ⟨replicate 8 0, rfl⟩
  flags : UInt8 := 0
  deriving DecidableEq

/-- `kHex[n]`. -/
def hexDigit (n : UInt8) : UInt8 := if n < 10 then 48 + n else 87 + n

def hexEncode (bs : List UInt8) : List UInt8 :=
  bs.flatMap fun (b : UInt8) => [hexDigit (b >>> 4), hexDigit (b &&& 0x0F)]

def hexNibble (c : UInt8) : Option UInt8 := if 48 ≤ c ∧ c ≤ 57 then some (c - 48)
  else if 97 ≤ c ∧ c ≤ 102 then some (c - 97 + 10)
  else none

/-- `hexDecode` of `n` pairs of digits. -/
def hexDecode : (n : ℕ) → List UInt8 → Option (Octets n)
  | 0, _ => some ⟨[], rfl⟩
  | n + 1, a :: b :: rest =>
    match hexNibble a, hexNibble b with
    | some hi, some lo =>
      (hexDecode n rest).map fun bs => ⟨(hi <<< 4 ||| lo) :: bs.1, congrArg (· + 1) bs.2⟩
    | _, _ => none
  | _ + 1, _ => none

def allZero (bs : List UInt8) : Bool := bs.all (· == 0)

/-- `Context::empty`. -/
def Context.empty (c : Context) : Bool := allZero c.traceId.1 || allZero c.spanId.1

/-- `parseTraceparent`, with the empty context for a malformed header. -/
def parseTraceparent (h : List UInt8) : Context := if h.length ≠ 55 then {}
  else if h.take 3 ≠ [48, 48, 45] ∨ h.getD 35 0 ≠ 45 ∨ h.getD 52 0 ≠ 45 then {}
  else
    match hexDecode 16 (h.drop 3), hexDecode 8 (h.drop 36), hexDecode 1 (h.drop 53) with
    | some traceId, some spanId, some flags =>
      if allZero traceId.1 || allZero spanId.1 then {} else ⟨traceId, spanId, flags.1.headD 0⟩
    | _, _, _ => {}

def toTraceparent (c : Context) : List UInt8 := if c.empty then []
  else [48, 48, 45] ++ hexEncode c.traceId.1 ++ [45] ++ hexEncode c.spanId.1 ++ [45] ++
    hexEncode [c.flags]

/-! ### Digits -/

theorem hexNibble_hexDigit (b : UInt8) : hexNibble (hexDigit (b >>> 4)) = some (b >>> 4) ∧
    hexNibble (hexDigit (b &&& 0x0F)) = some (b &&& 0x0F) ∧
    (b >>> 4) <<< 4 ||| (b &&& 0x0F) = b := by
  obtain ⟨⟨n⟩⟩ := b
  revert n
  decide +kernel

theorem hexDigit_of_hexNibble {a hi : UInt8} (h : hexNibble a = some hi) :
    hexDigit hi = a ∧ ∃ n : Fin 16, .ofNat n = hi := by
  obtain ⟨⟨n⟩⟩ := a
  suffices h : ∀ n : Fin (2 ^ 8), ∀ hi ∈ hexNibble ⟨⟨n⟩⟩, hexDigit hi = ⟨⟨n⟩⟩ ∧
      ∃ n : Fin 16, .ofNat n = hi from h _ _ ‹_›
  decide +kernel

/-- The digits of the byte a pair of digits stands for are that pair. -/
theorem hexDigit_pair {a b hi lo : UInt8} (ha : hexNibble a = some hi)
    (hb : hexNibble b = some lo) :
    hexDigit ((hi <<< 4 ||| lo) >>> 4) = a ∧ hexDigit ((hi <<< 4 ||| lo) &&& 0x0F) = b := by
  obtain ⟨rfl, m, rfl⟩ := hexDigit_of_hexNibble ha
  obtain ⟨rfl, n, rfl⟩ := hexDigit_of_hexNibble hb
  revert m n
  decide +kernel

theorem hexEncode_cons (b : UInt8) (bs : List UInt8) :
    hexEncode (b :: bs) = hexDigit (b >>> 4) :: hexDigit (b &&& 0x0F) :: hexEncode bs := rfl

theorem length_hexEncode (bs : List UInt8) : (hexEncode bs).length = 2 * bs.length := by
  induction bs with
  | nil => rfl
  | cons b bs ih => simp only [hexEncode_cons, length_cons, ih]; omega

theorem hexDecode_hexEncode {n : ℕ} (bs : Octets n) (rest : List UInt8) :
    hexDecode n (hexEncode bs.1 ++ rest) = some bs := by
  obtain ⟨bs, rfl⟩ := bs
  induction bs with
  | nil => rfl
  | cons b bs ih =>
    obtain ⟨hhi, hlo, hb⟩ := hexNibble_hexDigit b
    simp [hexEncode_cons, hexDecode, hhi, hlo, hb, ih]

variable {text : List UInt8}

theorem hexEncode_of_hexDecode {n : ℕ} {bs : Octets n}
    (h : hexDecode n text = some bs) : text = hexEncode bs.1 ++ text.drop (2 * n) := by
  induction n generalizing text with
  | zero => 
    obtain rfl := Option.some.inj h
    rfl
  | succ n ih =>
    match text, h with
    | a :: b :: rest, h =>
      rw [hexDecode] at h
      split at h
      next hi lo ha hb =>
        obtain ⟨bs', hrest, rfl⟩ := Option.map_eq_some_iff.1 h
        obtain ⟨hda, hdb⟩ := hexDigit_pair ha hb
        have := ih hrest
        rw [hexEncode_cons, hda, hdb]
        simpa [Nat.mul_add] using this
      next => cases h

/-! ### The header -/

theorem getD_of_drop {rest : List UInt8} {c : UInt8} {i : ℕ} (h : text.drop i = c :: rest) :
    text.getD i 0 = c ∧ text.drop (i + 1) = rest := by
  refine ⟨?_, ?_⟩
  · rw [getD_eq_getElem?_getD, ← head?_drop, h]
    rfl
  · rw [← tail_drop, h]
    rfl

theorem drop_of_getD {c : UInt8} {i : ℕ} (hi : i < text.length)
    (h : text.getD i 0 = c) : text.drop i = c :: text.drop (i + 1) := by
  rw [drop_eq_getElem_cons hi, ← getD_eq_getElem text 0 hi, h]

theorem toTraceparent_of_not_empty {c : Context} (hc : ¬ c.empty) :
    toTraceparent c = [48, 48, 45] ++ (hexEncode c.traceId.1 ++
      45 :: (hexEncode c.spanId.1 ++ 45 :: hexEncode [c.flags])) := by
  rw [toTraceparent, if_neg hc]
  simp

theorem parseTraceparent_toTraceparent {c : Context} (hc : ¬ c.empty) :
    parseTraceparent (toTraceparent c) = c := by
  obtain ⟨traceId, spanId, flags⟩ := c
  have ht : (hexEncode traceId.1).length = 32 := by rw [length_hexEncode, traceId.2]
  have hs : (hexEncode spanId.1).length = 16 := by rw [length_hexEncode, spanId.2]
  have hh := toTraceparent_of_not_empty hc
  generalize toTraceparent ⟨traceId, spanId, flags⟩ = h at hh
  have h3 : h.drop 3 = hexEncode traceId.1 ++
      45 :: (hexEncode spanId.1 ++ 45 :: hexEncode [flags]) := by
    rw [hh]
    rfl
  have h35 : h.drop 35 = 45 :: (hexEncode spanId.1 ++ 45 :: hexEncode [flags]) := by
    rw [show 35 = 3 + 32 from rfl, ← drop_drop, h3, drop_left' ht]
  obtain ⟨hdash, h36⟩ := getD_of_drop h35
  have h52 : h.drop 52 = 45 :: (hexEncode [flags] ++ []) := by
    rw [show 52 = 36 + 16 from rfl, ← drop_drop, h36, drop_left' hs, append_nil]
  obtain ⟨hdash', h53⟩ := getD_of_drop h52
  have hflags : hexDecode 1 (hexEncode [flags] ++ []) = some ⟨[flags], rfl⟩ :=
    hexDecode_hexEncode ⟨[flags], rfl⟩ []
  have hlen : h.length = 55 := by
    rw [hh]
    simp [ht, hs, length_hexEncode]
  have htake : h.take 3 = [48, 48, 45] := by simp [hh]
  rw [parseTraceparent, if_neg (not_not.2 hlen), if_neg (by simp only [htake, hdash, hdash', ne_eq,
    not_true_eq_false, or_self, not_false_eq_true]), h3, h36, h53, hexDecode_hexEncode,
    hexDecode_hexEncode, hflags]
  exact if_neg hc

theorem toTraceparent_parseTraceparent (h : List UInt8) :
    parseTraceparent h = {} ∨ toTraceparent (parseTraceparent h) = h := by
  unfold parseTraceparent
  split_ifs with hlen hdash
  · exact .inl rfl
  · exact .inl rfl
  push Not at hlen hdash
  obtain ⟨h3, h35, h52⟩ := hdash
  split
  next traceId spanId flags ht hs hf =>
    split_ifs with hz
    · exact .inl rfl
    refine .inr ?_
    obtain ⟨f, hflags⟩ := length_eq_one_iff.1 flags.2
    rw [hflags]
    have ht' := hexEncode_of_hexDecode ht
    have hs' := hexEncode_of_hexDecode hs
    have hf' := hexEncode_of_hexDecode hf
    rw [drop_drop, drop_of_getD (by omega) h35] at ht'
    rw [drop_drop, drop_of_getD (by omega) h52] at hs'
    rw [drop_drop, drop_eq_nil_of_le (i := 53 + 2 * 1) (by omega), append_nil, hflags] at hf'
    calc toTraceparent ⟨traceId, spanId, f⟩
      _ = [48, 48, 45] ++ (hexEncode traceId.1 ++
            45 :: (hexEncode spanId.1 ++ 45 :: hexEncode [f])) := toTraceparent_of_not_empty hz
      _ = h.take 3 ++ h.drop 3 := by rw [h3, ht', hs', hf']
      _ = h := take_append_drop 3 h
  next => exact .inl rfl

theorem empty_iff (c : Context) :
    c.empty ↔ c.traceId.1 = replicate 16 0 ∨ c.spanId.1 = replicate 8 0 := by
  rw [eq_replicate_iff, eq_replicate_iff]
  simp [Context.empty, allZero, c.traceId.2, c.spanId.2]

/-- **Formatting and parsing are inverse**: every context but those with an all-zero id is read back
from its text, and a text that is read as another context than the empty one is its text. -/
theorem traceparent_inverse (c : Context) (h : List UInt8) :
    (toTraceparent c = [] ↔ c.traceId.1 = replicate 16 0 ∨ c.spanId.1 = replicate 8 0) ∧
    (toTraceparent c = [] ∨ parseTraceparent (toTraceparent c) = c) ∧
    (parseTraceparent h = {} ∨ toTraceparent (parseTraceparent h) = h) := by
  rw [← empty_iff]
  refine ⟨?_, ?_, toTraceparent_parseTraceparent h⟩ <;> by_cases hc : c.empty
  · exact iff_of_true (if_pos hc) hc
  · exact iff_of_false (by simp [toTraceparent_of_not_empty hc]) hc
  · exact .inl (if_pos hc)
  · exact .inr (parseTraceparent_toTraceparent hc)

end Manwe.Trace
