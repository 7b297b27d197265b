import Manwe.Soccer.Http

/-!
# Reading a body of known length

`readBody` takes exactly the announced number of bytes in pieces, or fails with the fault it was
given.
-/

namespace Manwe.Http

open BufferedReader List

variable {truncated : Fault} {fuel left : ℕ} {body : Bytes}

theorem bodyChunk_le : bodyChunk ≤ maxExact := by decide

/-- All of the body is read, or the stream has ended in it. -/
theorem readBody_outcome (truncated : Fault) (body : Bytes) (hf : left ≤ fuel)
    (r : BufferedReader) :
    (∃ bs r', (readBody truncated fuel left body).run r = .ok (body ++ bs) r' ∧ Moves r bs r' ∧
      bs.length = left) ∨
    (∃ e r' c, (readBody truncated fuel left body).run r = .error e r' ∧ Moves r c r' ∧
      (e = truncated ∨ Dry r e) ∧ r.pending.length < left) := by
  induction fuel generalizing left body r with
  | zero =>
    obtain rfl := Nat.le_zero.1 hf
    exact .inl ⟨[], r, by rw [append_nil]; rfl, .refl r, rfl⟩
  | succ fuel ih =>
    rw [readBody]
    split
    · next h0 =>
      subst h0
      exact .inl ⟨[], r, by simp [append_nil], .refl r, rfl⟩
    · next h0 =>
      have hwant : min bodyChunk left ≤ maxExact := (Nat.min_le_left _ _).trans bodyChunk_le
      have hpos : 0 < min bodyChunk left := Nat.lt_min.2 ⟨by decide, Nat.pos_of_ne_zero h0⟩
      have hle : min bodyChunk left ≤ left := Nat.min_le_right _ _
      generalize min bodyChunk left = want at hwant hpos hle ⊢
      have hout := readExact_outcome hwant r
      rw [EStateM.run_bind]
      generalize (readExact want).run r = res at hout ⊢
      cases hout with
      | @full bs r₁ hm hn =>
        have hn : bs.length = want := by simpa using hn
        dsimp only
        rw [nil_append, if_neg (not_not.2 hn)]
        obtain ⟨bs', r', hr, hm', hlen⟩ | ⟨e, r', c, hr, hm', he, hlt⟩ :=
          ih (body ++ bs) (by omega : left - want ≤ fuel) r₁
        · refine .inl ⟨bs ++ bs', r', by rw [hr, append_assoc], hm.trans hm', ?_⟩
          rw [length_append]
          omega
        · refine .inr ⟨e, r', bs ++ c, hr, hm.trans hm', he.imp_right (·.of_moves hm), ?_⟩
          rw [hm.pending, length_append]
          omega
      | @short r₁ hm hn =>
        rw [length_nil, Nat.zero_add] at hn
        dsimp only
        rw [nil_append, if_pos (Nat.ne_of_lt hn)]
        exact .inr ⟨truncated, r₁, _, rfl, hm, .inl rfl, by omega⟩
      | @dry e r₁ hm hn he => exact .inr ⟨e, r₁, _, rfl, hm, .inr he, by omega⟩

variable {P : BufferedReader → Prop}

/-- **A body that is on the tape is read.** -/
theorem reads_readBody (truncated : Fault) (body : Bytes) {bs : Bytes} (hf : bs.length ≤ fuel) :
    tape.Reads P (readBody truncated fuel bs.length body) bs (body ++ bs) := by
  intro r t _ hp
  have hp : r.pending = bs ++ t := hp
  obtain ⟨bs', r', hr, hm, hlen⟩ | ⟨e, r', c, -, -, -, hlt⟩ := readBody_outcome truncated body hf r
  · obtain ⟨rfl, -⟩ := append_inj (hp.symm.trans hm.pending) hlen.symm
    exact ⟨r', hr, hm⟩
  · rw [hp, length_append] at hlt
    omega

/-- A body is read off its own bytes. -/
theorem local_readBody (hf : left ≤ fuel) :
    tape.Local P (fun _ => True) (fun l b => b = body ++ l ∧ l.length = left)
      (readBody truncated fuel left body) := by
  intro r b r' _ hr _
  obtain ⟨bs, r₁, hr₁, hm, hlen⟩ | ⟨e, r₁, c, hr₁, -⟩ := readBody_outcome truncated body hf r
  · rw [hr] at hr₁
    cases hr₁
    subst hlen
    exact ⟨bs, hm, reads_readBody truncated body hf, rfl, rfl⟩
  · rw [hr] at hr₁
    cases hr₁

end Manwe.Http
