import Mathlib

/-!
# ICMP echo packets

`IcmpEcho.h`. The checksum of a packet is the complement of the sum of its 16-bit words with the
carries folded back in, so it tells the sum **modulo 65535**. Changing one byte moves the sum by
less than that, up or down, but it moves it: the checksum of the new sum is another one.
-/

namespace Manwe.IcmpEcho

open List

/-- Two bytes as a big-endian word. -/
def word (a b : UInt8) : ℕ := a.toNat * 256 + b.toNat

/-- `accumulate`; no packet overflows its 64 bits. -/
def accumulate : ℕ → List UInt8 → ℕ
  | sum, a :: b :: rest => accumulate (sum + word a b) rest
  | sum, [a] => sum + word a 0
  | sum, [] => sum

/-- The loop of `finish`. -/
def fold (sum : ℕ) : ℕ :=
  if h : sum / 65536 = 0 then sum else fold (sum % 65536 + sum / 65536)
termination_by sum
decreasing_by omega

def finish (sum : ℕ) : UInt16 := ~~~UInt16.ofNat (fold sum)

def checksum (data : List UInt8) : UInt16 := finish (accumulate 0 data)

/-- A header field in network byte order. -/
def htons (v : UInt16) : List UInt8 := [UInt8.ofNat (v.toNat / 256), UInt8.ofNat v.toNat]

def ntohs (a b : UInt8) : UInt16 := UInt16.ofNat (word a b)

inductive IcmpType
  | echoReply
  | echoRequest
  deriving DecidableEq

/-- The types that have the echo layout. -/
def IcmpType.ofByte? (type : UInt8) : Option IcmpType :=
  if type = 0 then some .echoReply else if type = 8 then some .echoRequest else none

def maxPayload : ℕ := 65507

/-- `buildRequest`, which throws for a payload that is too large. -/
def buildRequest (identifier sequence : UInt16) (payload : List UInt8) : Option (List UInt8) :=
  if payload.length > maxPayload then none
  else
    let packet (cs : UInt16) := [8, 0] ++ htons cs ++ htons identifier ++ htons sequence ++ payload
    some (packet (checksum (packet 0)))

structure ParsedReply where
  type : IcmpType
  code : UInt8
  identifier : UInt16
  sequence : UInt16
  payload : List UInt8
  checksumValid : Bool
  deriving DecidableEq

/-- `parse` after the IPv4 header. -/
def parseEcho : List UInt8 → Option ParsedReply
  | type :: code :: c₁ :: c₀ :: i₁ :: i₀ :: s₁ :: s₀ :: payload =>
    (IcmpType.ofByte? type).map fun type' =>
      let sum := accumulate (accumulate 0 [type, code]) (i₁ :: i₀ :: s₁ :: s₀ :: payload)
      ⟨type', code, ntohs i₁ i₀, ntohs s₁ s₀, payload, ntohs c₁ c₀ = finish sum⟩
  | _ => none

def parse (data : List UInt8) (skipIp : Bool) : Option ParsedReply :=
  if skipIp then
    match data with
    | [] => none
    | first :: _ =>
      let ihl := (first &&& 0x0F).toNat * 4
      if first >>> 4 ≠ 4 then none
      else if ihl < 20 ∨ data.length < ihl then none
      else if data.getD 9 0 ≠ 1 then none
      else parseEcho (data.drop ihl)
  else parseEcho data

/-! ### The sum -/

theorem fold_lt (sum : ℕ) : fold sum < 65536 := by fun_induction fold sum <;> omega

theorem fold_mod (sum : ℕ) : fold sum % 65535 = sum % 65535 := by
  fun_induction fold sum <;> omega

/-- What `finish` returns tells the sum modulo 65535. -/
theorem mod_eq_of_finish {m n : ℕ} (h : finish m = finish n) : m % 65535 = n % 65535 := by
  have hf := congrArg (fun v : UInt16 => (~~~v).toNat) h
  simp only [finish, UInt16.not_not, UInt16.toNat_ofNat', Nat.mod_eq_of_lt (fold_lt _)] at hf
  rw [← fold_mod m, hf, fold_mod]

theorem accumulate_add : ∀ (sum : ℕ) (l : List UInt8), accumulate sum l = sum + accumulate 0 l
  | _, [] => rfl
  | sum, [a] => by simp [accumulate]
  | sum, a :: b :: rest => by
    rw [accumulate, accumulate, accumulate_add _ rest, accumulate_add (0 + word a b) rest]
    omega

/-- **One byte counts**: by less than 65535, and not by nothing. -/
theorem accumulate_set {c : UInt8} : ∀ (sum i : ℕ) (l : List UInt8), i < l.length →
    l[i]? ≠ some c → accumulate sum (l.set i c) % 65535 ≠ accumulate sum l % 65535
  | sum, i + 2, a :: b :: rest, hi, hc =>
    accumulate_set (sum + word a b) i rest (by simpa using hi) (by simpa using hc)
  | sum, 0, [a], _, hc => by
    have ha : a.toNat ≠ c.toNat := fun h => hc (by simp [UInt8.toNat_inj.1 h])
    have := a.toNat_lt
    have := c.toNat_lt
    simp only [set_cons_zero, accumulate, word]
    omega
  | sum, 0, a :: b :: rest, _, hc | sum, 1, b :: a :: rest, _, hc => by
    have ha : a.toNat ≠ c.toNat := fun h => hc (by simp [UInt8.toNat_inj.1 h])
    have := a.toNat_lt
    have := c.toNat_lt
    simp only [set_cons_succ, set_cons_zero, accumulate, word]
    rw [accumulate_add, accumulate_add (sum + _)]
    omega

/-! ### Packets -/

theorem ntohs_htons (v : UInt16) :
    ntohs (UInt8.ofNat (v.toNat / 256)) (UInt8.ofNat v.toNat) = v := by
  have := v.toNat_lt
  apply UInt16.toNat_inj.1
  simp only [ntohs, word, UInt16.toNat_ofNat', UInt8.toNat_ofNat']
  omega

theorem ntohs_inj {a b a' b' : UInt8} (h : ntohs a b = ntohs a' b') : a = a' ∧ b = b' := by
  have hlt := fun c : UInt8 => c.toNat_lt
  have h' := congrArg UInt16.toNat h
  simp only [ntohs, word, UInt16.toNat_ofNat'] at h'
  have := hlt a
  have := hlt b
  have := hlt a'
  have := hlt b'
  exact ⟨UInt8.toNat_inj.1 (by omega), UInt8.toNat_inj.1 (by omega)⟩

variable {type code c₁ c₀ : UInt8} {rest : List UInt8} {r : ParsedReply}

theorem checksumValid_of_parse (h : parseEcho (type :: code :: c₁ :: c₀ :: rest) = some r) :
    r.checksumValid = decide (ntohs c₁ c₀ = finish (accumulate 0 (type :: code :: rest))) := by
  match rest, h with
  | i₁ :: i₀ :: s₁ :: s₀ :: payload, h =>
    obtain ⟨type', -, rfl⟩ := Option.map_eq_some_iff.1 h
    rfl

/-- One byte of a valid packet is changed. -/
theorem parseEcho_set {i : ℕ} {b : UInt8}
    (hv : ntohs c₁ c₀ = finish (accumulate 0 (type :: code :: rest)))
    (hi : i < (type :: code :: c₁ :: c₀ :: rest).length)
    (hb : (type :: code :: c₁ :: c₀ :: rest)[i]? ≠ some b)
    (hr : parseEcho ((type :: code :: c₁ :: c₀ :: rest).set i b) = some r) :
    r.checksumValid = false := by
  have hsum (j : ℕ) (hj : j < (type :: code :: rest).length)
      (hb : (type :: code :: rest)[j]? ≠ some b) :
      ntohs c₁ c₀ ≠ finish (accumulate 0 ((type :: code :: rest).set j b)) :=
    fun h => accumulate_set 0 j _ hj hb (mod_eq_of_finish (h.symm.trans hv))
  match i with
  | 0 => exact checksumValid_of_parse hr ▸ decide_eq_false (hsum 0 (by simp) hb)
  | 1 => exact checksumValid_of_parse hr ▸ decide_eq_false (hsum 1 (by simp) hb)
  | 2 | 3 =>
    rw [checksumValid_of_parse hr, ← hv]
    exact decide_eq_false fun h => hb (by simp [ntohs_inj h])
  | i + 4 => exact checksumValid_of_parse hr ▸ decide_eq_false (hsum (i + 2) (by simpa using hi) hb)

/-- An IPv4 header of `n` words that announces ICMP. -/
structure IpHeader (n : ℕ) (ip : List UInt8) : Prop where
  words : 5 ≤ n ∧ n ≤ 15
  length : ip.length = n * 4
  first : ip[0]? = some (0x40 + UInt8.ofNat n)
  protocol : ip[9]? = some 1

theorem parse_skipIp {n : ℕ} {ip : List UInt8} (h : IpHeader n ip) (data : List UInt8) :
    parse (ip ++ data) true = parseEcho data := by
  have hbits : ∀ n : Fin 16, (0x40 + UInt8.ofNat n) >>> 4 = 4 ∧
      ((0x40 + UInt8.ofNat n) &&& 0x0F).toNat = n := by decide
  obtain ⟨hn, hn'⟩ := h.words
  obtain ⟨hversion, hihl⟩ := hbits ⟨n, by omega⟩
  obtain ⟨h9, -⟩ := List.getElem?_eq_some_iff.1 h.protocol
  obtain ⟨first, tail, rfl⟩ := exists_cons_of_length_pos (Nat.zero_lt_of_lt h9)
  obtain rfl : first = _ := by simpa using h.first
  have hlen := h.length
  simp only [parse, cons_append, ↓reduceIte, hversion, hihl]
  rw [if_neg (by simp), if_neg, if_neg, ← cons_append, ← hlen, drop_left]
  · rw [← cons_append, getD_eq_getElem?_getD, getElem?_append_left h9, h.protocol]
    simp
  · simp only [← cons_append, length_append, hlen]
    omega

/-- **Echo requests round-trip, and a damaged byte is detected**, with or without an IPv4 header
before the packet. -/
theorem icmpEcho_roundTrip (identifier sequence : UInt16) (payload : List UInt8)
    (hlen : payload.length ≤ maxPayload) :
    ∃ packet, buildRequest identifier sequence payload = some packet ∧
      ∀ ip skipIp, (skipIp = false ∧ ip = [] ∨ skipIp = true ∧ ∃ n, IpHeader n ip) →
        parse (ip ++ packet) skipIp = some ⟨.echoRequest, 0, identifier, sequence, payload, true⟩ ∧
        ∀ i b r, i < packet.length → packet[i]? ≠ some b →
          parse (ip ++ packet.set i b) skipIp = some r → r.checksumValid = false := by
  refine ⟨_, if_neg (Nat.not_lt.2 hlen), fun ip skipIp hip => ?_⟩
  have hparse (data) : parse (ip ++ data) skipIp = parseEcho data := by
    rcases hip with ⟨rfl, rfl⟩ | ⟨rfl, n, hip⟩
    · rfl
    · exact parse_skipIp hip data
  have hcs : checksum ([8, 0] ++ htons 0 ++ htons identifier ++ htons sequence ++ payload) =
      finish (accumulate 0 (8 :: 0 :: (htons identifier ++ htons sequence ++ payload))) := by
    simp [checksum, accumulate, htons, word]
  simp only [hparse]
  refine ⟨?_, fun i b r hi hb hr => parseEcho_set ((ntohs_htons _).trans hcs) hi hb hr⟩
  generalize checksum _ = cs at hcs
  simp only [htons, cons_append, nil_append, parseEcho, ntohs_htons] at hcs ⊢
  exact congrArg (fun b => some (ParsedReply.mk _ _ _ _ _ b)) (decide_eq_true hcs)

/-- A payload of odd length, after a header without options. -/
theorem icmpEcho_roundTrip_odd : ∃ packet, buildRequest 1 2 [7] = some packet ∧
    parse ([0x45, 0, 0, 29, 0, 0, 0, 0, 64, 1, 0, 0, 10, 0, 0, 1, 10, 0, 0, 2] ++ packet) true =
      some ⟨.echoRequest, 0, 1, 2, [7], true⟩ := by
  obtain ⟨packet, hbuild, hparse⟩ := icmpEcho_roundTrip 1 2 [7] (by decide)
  refine ⟨packet, hbuild, (hparse _ true (.inr ⟨rfl, 5, ?_⟩)).1⟩
  constructor <;> decide

end Manwe.IcmpEcho
