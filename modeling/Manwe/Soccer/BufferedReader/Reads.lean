import Manwe.Soccer.BufferedReader

/-!
# What buffered reads return

`Ready`, `Line` and `Exact` say all that the three loops of the reader can do, for every stream and
every segmentation, and that their fuel suffices. From them come the facts the parsers rest on: a
line or a number of bytes that is on the tape is read as it is (`reads_readLine`,
`reads_readExact`), and a complete line or count was read off nothing else (`local_readLine`,
`local_readExact`).
-/

namespace Manwe.BufferedReader

open List EStateM

/-! ### What the reads can do -/

/-- What a read meets when nothing is left to give out. -/
inductive Dry (r : BufferedReader) : Fault → Prop
  | reset (h : r.stream.ending = .reset) : Dry r (.socket "recv")
  | silent (h : r.stream.ending = .silent) : Dry r .waits

/-- The outcomes of `ready`. -/
inductive Ready (r : BufferedReader) : Result Fault BufferedReader Bool → Prop
  | bytes {r'} (hm : Moves r [] r') (hu : r'.unread ≠ []) : Ready r (.ok true r')
  | ended {r'} (hm : Moves r [] r') (hp : r.pending = []) (he : r.stream.ending = .closed)
      (heof : r'.eof = true) : Ready r (.ok false r')
  | dry {e} (hp : r.pending = []) (he : Dry r e) : Ready r (.error e r)

theorem run_ready (r : BufferedReader) : ready.run r =
    if r.unread ≠ [] then .ok true r else if r.eofObserved then .ok false r
    else match refill.run r with
      | .ok _ r' => .ok (!r'.unread.isEmpty) r'
      | .error e r' => .error e r' := by
  simp only [ready, run_bind, run_get]
  split_ifs <;> simp only [run_pure, run_bind, run_get]
  cases refill.run r <;> rfl

variable {r : BufferedReader}

/-- A refill of an empty buffer brings bytes, or there are none to come. -/
theorem refill_outcome (hu : r.unread = []) :
    (∃ r', refill.run r = .ok () r' ∧ Moves r [] r' ∧ r'.unread ≠ []) ∨
    (∃ r', refill.run r = .ok () r' ∧ Moves r [] r' ∧ r'.unread = [] ∧ r.pending = [] ∧
      r.stream.ending = .closed ∧ r'.eofObserved = true) ∨
    (∃ e, refill.run r = .error e r ∧ r.pending = [] ∧ Dry r e) := by
  have hh : 0 < r.capacity - r.unread.length := by
    rw [hu]
    exact r.capacity_pos
  unfold refill run
  simp only [dif_pos hh]
  split
  · next e s h =>
    refine .inr (.inr ⟨e, rfl, ?_⟩)
    unfold TcpStream.read at h
    split at h
    · next hr =>
      have hp : r.pending = [] := by simp [pending, hu, hr]
      split at h <;> cases h
      · exact ⟨hp, .reset ‹_›⟩
      · exact ⟨hp, .silent ‹_›⟩
    · cases h
  · next bs s h =>
    split
    · next hb =>
      subst hb
      obtain ⟨rfl, hr, he⟩ := TcpStream.read_nil hh h
      have hp : r.pending = [] := by rw [pending, hu, hr, nil_append]
      exact .inr (.inl ⟨_, rfl, ⟨rfl, by simp, rfl, rfl, rfl, rfl⟩, hu, hp, he, rfl⟩)
    · next hb =>
      obtain ⟨hrest, htotal, hend, hacc, hsent⟩ := TcpStream.read_ok h
      refine .inl ⟨_, rfl, ⟨?_, ?_, rfl, hend, hacc, hsent⟩, by simpa using fun _ => hb⟩
      · simp only [pending, nil_append, append_assoc, hrest]
      · simp only [length_nil, length_append, htotal]
        omega

theorem ready_outcome (r : BufferedReader) : Ready r (ready.run r) := by
  rw [run_ready]
  split
  · next hu => exact .bytes (.refl r) hu
  · next hu =>
    have hu : r.unread = [] := not_not.1 hu
    split
    · next he =>
      obtain ⟨hr, hend⟩ := r.eof_rest he
      exact .ended (.refl r) (by simp [pending, hu, hr]) hend (by simp [eof, he, hu])
    · obtain ⟨r', hrun, hm, hne⟩ | ⟨r', hrun, hm, hnil, hp, hend, heof⟩ | ⟨e, hrun, hp, hd⟩ :=
        refill_outcome hu
      · rw [hrun]
        simp only [isEmpty_eq_false_iff.2 hne, Bool.not_false]
        exact .bytes hm hne
      · rw [hrun]
        simp only [hnil, isEmpty_nil, Bool.not_true]
        exact .ended hm hp hend (by simp [eof, heof, hnil])
      · rw [hrun]
        exact .dry hp hd

/-- The outcomes of a search for `delim` that has collected `out` so far. -/
inductive Line (delim : UInt8) (out : Bytes) (r : BufferedReader) :
    Result Fault BufferedReader Bytes → Prop
  | found {a r'} (hm : Moves r (a ++ [delim]) r') (ha : delim ∉ a)
      (hl : out.length + a.length + 1 ≤ r.maxLineBytes) :
      Line delim out r (.ok (out ++ (a ++ [delim])) r')
  | ended {r'} (hm : Moves r r.pending r') (ha : delim ∉ r.pending)
      (he : r.stream.ending = .closed) : Line delim out r (.ok (out ++ r.pending) r')
  | long {c r'} (hm : Moves r c r') (hc : delim ∉ c)
      (hl : ∀ a b, r.pending = a ++ delim :: b → delim ∉ a →
        r.maxLineBytes < out.length + a.length + 1)
      (hp : delim ∉ r.pending → r.maxLineBytes < out.length + r.pending.length) :
      Line delim out r (.error .lineTooLong r')
  | dry {e r'} (hm : Moves r r.pending r') (ha : delim ∉ r.pending) (he : Dry r e) :
      Line delim out r (.error e r')

variable {c out : Bytes}

theorem Dry.of_moves {r' : BufferedReader} {e : Fault} (hm : Moves r c r') (h : Dry r' e) :
    Dry r e := by
  cases h with
  | reset h => exact .reset (hm.ending ▸ h)
  | silent h => exact .silent (hm.ending ▸ h)

variable {r₁ : BufferedReader} {res : Result Fault BufferedReader Bytes}

/-- Bytes without `delim` may be collected first. -/
theorem Line.shift {delim : UInt8} (hm : Moves r c r₁) (hc : delim ∉ c)
    (h : Line delim (out ++ c) r₁ res) : Line delim out r res := by
  have hp := hm.pending
  cases h with
  | found hm' ha hl =>
    rw [length_append, hm.maxLineBytes] at hl
    rw [append_assoc, ← append_assoc c]
    refine .found (by rw [append_assoc]; exact hm.trans hm') (by simp [hc, ha]) ?_
    rw [length_append]
    omega
  | ended hm' ha he =>
    rw [append_assoc, ← hp]
    refine .ended (by rw [hp]; exact hm.trans hm') (by simp [hp, hc, ha]) (hm.ending ▸ he)
  | long hm' hc' hl hl' =>
    rw [hm.maxLineBytes, length_append] at hl'
    simp only [hm.maxLineBytes, length_append] at hl
    refine .long (hm.trans hm') (by simp [hc, hc']) (fun a b hab ha => ?_) fun hnot => ?_
    · have hle : c.length ≤ a.length := length_le_of_append_eq (hp ▸ hab) hc
      obtain ⟨d, rfl⟩ : ∃ d, a = c ++ d :=
        prefix_of_prefix_length_le ⟨_, hp.symm⟩ ⟨_, hab.symm⟩ hle |>.imp fun _ h => h.symm
      rw [hp, append_assoc] at hab
      have := hl d b (append_cancel_left hab) fun h => ha (mem_append_right c h)
      rw [length_append]
      omega
    · have := hl' fun h => hnot (hp ▸ mem_append_right c h)
      rw [hp, length_append]
      omega
  | dry hm' ha he =>
    exact .dry (by rw [hp]; exact hm.trans hm') (by simp [hp, hc, ha]) (he.of_moves hm)

theorem readUntilDelimLoop_outcome (delim : UInt8) {fuel : ℕ} (hf : r.pending.length < fuel) :
    Line delim out r ((readUntilDelimLoop delim fuel out).run r) := by
  -- induction on the fuel: an iteration that goes on has taken the whole buffer
  induction fuel generalizing out r with
  | zero => omega
  | succ fuel ih =>
    rw [readUntilDelimLoop, run_bind]
    have hready := ready_outcome r
    generalize ready.run r = res at hready ⊢
    cases hready with
    | ended hm hp he =>
      have hend : Line delim out r (.ok (out ++ r.pending) _) :=
        .ended (by rw [hp]; exact hm) (by simp [hp]) he
      rwa [hp, append_nil] at hend
    | dry hp he => exact .dry (hp ▸ .refl r) (by simp [hp]) he
    | @bytes r₁ hm hu =>
      refine .shift hm not_mem_nil ?_
      rw [append_nil]
      simp only [if_true, run_bind, run_get]
      cases hcut : cutAt delim r₁.unread with
      | some p =>
        obtain ⟨a, b⟩ := p
        obtain ⟨hab, ha⟩ := cutAt_eq_some.1 hcut
        have hpend : r₁.pending = a ++ delim :: (b ++ r₁.stream.rest) := by simp [pending, hab]
        dsimp only
        split
        · next hlong =>
          refine .long (.refl r₁) not_mem_nil (fun a' b' h ha' => ?_) fun h => ?_
          · obtain ⟨rfl, -⟩ := cut_unique (hpend.symm.trans h) ha ha'
            omega
          · exact absurd (by simp [hpend]) h
        · next hlong =>
          have hmv : Moves r₁ (a ++ [delim]) (r₁.take (a.length + 1)) := by
            have := Moves.take r₁ (a := a ++ [delim]) (b := b) (by simp [hab])
            rwa [length_append, length_singleton] at this
          exact .found hmv ha (by omega)
      | none =>
        have hnot := cutAt_eq_none.1 hcut
        have hpos := length_pos_iff.2 hu
        have hpend : r₁.pending.length = r₁.unread.length + r₁.stream.rest.length := length_append
        dsimp only
        split
        · next hlong =>
          refine .long (.refl r₁) not_mem_nil (fun a' b' h _ => ?_) fun _ => by omega
          have hle : r₁.unread.length ≤ a'.length := length_le_of_append_eq h hnot
          omega
        · next hlong =>
          have hmv : Moves r₁ r₁.unread (r₁.take r₁.unread.length) :=
            Moves.take r₁ (b := []) (by simp)
          refine .shift hmv hnot (ih ?_)
          have h₁ := congrArg length hm.pending
          have h₂ := congrArg length hmv.pending
          simp only [length_append, length_nil] at h₁ h₂
          omega

theorem readLine_outcome (r : BufferedReader) : Line 10 [] r (readLine.run r) :=
  readUntilDelimLoop_outcome 10 (Nat.lt_succ_self _)

/-- The outcomes of an exact read of `n` bytes that has collected `out` so far. -/
inductive Exact (n : ℕ) (out : Bytes) (r : BufferedReader) :
    Result Fault BufferedReader Bytes → Prop
  | full {bs r'} (hm : Moves r bs r') (hn : out.length + bs.length = n) :
      Exact n out r (.ok (out ++ bs) r')
  | short {r'} (hm : Moves r r.pending r') (hn : out.length + r.pending.length < n)
      (he : r.stream.ending = .closed) (heof : r'.eof = true) :
      Exact n out r (.ok (out ++ r.pending) r')
  | dry {e r'} (hm : Moves r r.pending r') (hn : out.length + r.pending.length < n)
      (he : Dry r e) : Exact n out r (.error e r')

variable {n : ℕ}

theorem Exact.shift (hm : Moves r c r₁) (h : Exact n (out ++ c) r₁ res) : Exact n out r res := by
  have hp := hm.pending
  cases h with
  | full hm' hn =>
    rw [append_assoc]
    exact .full (hm.trans hm') (by simp only [length_append] at hn ⊢; omega)
  | short hm' hn he heof =>
    rw [append_assoc, ← hp]
    refine .short (by rw [hp]; exact hm.trans hm') ?_ (hm.ending ▸ he) heof
    rw [hp]
    simp only [length_append] at hn ⊢
    omega
  | dry hm' hn he =>
    refine .dry (by rw [hp]; exact hm.trans hm') ?_ (he.of_moves hm)
    rw [hp]
    simp only [length_append] at hn ⊢
    omega

theorem readExactLoop_outcome {fuel : ℕ} (hf : r.pending.length < fuel) (hout : out.length ≤ n) :
    Exact n out r ((readExactLoop n fuel out).run r) := by
  induction fuel generalizing out r with
  | zero => omega
  | succ fuel ih =>
    rw [readExactLoop]
    by_cases hlt : out.length < n
    · rw [if_pos hlt, run_bind]
      have hready := ready_outcome r
      generalize ready.run r = res at hready ⊢
      cases hready with
      | ended hm hp he heof =>
        have hend : Exact n out r (.ok (out ++ r.pending) _) :=
          .short (by rw [hp]; exact hm) (by rw [hp]; exact hlt) he heof
        rwa [hp, append_nil] at hend
      | dry hp he => exact .dry (hp ▸ .refl r) (by rw [hp]; exact hlt) he
      | @bytes r₁ hm hu =>
        refine .shift hm ?_
        rw [append_nil]
        simp only [if_true, run_bind, run_get]
        have hsplit := take_append_drop (n - out.length) r₁.unread
        generalize hgot : r₁.unread.take (n - out.length) = got at hsplit ⊢
        have hlen : got.length = min (n - out.length) r₁.unread.length := by
          rw [← hgot, length_take]
        have hpos := length_pos_iff.2 hu
        have hmv : Moves r₁ got (r₁.take got.length) := Moves.take r₁ hsplit.symm
        have h₁ := congrArg length hm.pending
        have h₂ := congrArg length hmv.pending
        simp only [length_append, length_nil] at h₁ h₂
        exact .shift hmv (ih (by omega) (by rw [length_append]; omega))
    · rw [if_neg hlt]
      have hfull : Exact n out r (.ok (out ++ []) r) := .full (.refl r) (by rw [length_nil]; omega)
      rwa [append_nil] at hfull

theorem readExact_outcome (hn : n ≤ maxExact) (r : BufferedReader) :
    Exact n [] r ((readExact n).run r) := by
  rw [readExact, if_neg (by omega), run_bind]
  exact readExactLoop_outcome (Nat.lt_succ_self _) (Nat.zero_le n)

/-! ### Reads off the tape -/

/-- The reader gives out lines of up to `bound` bytes. -/
def Admits (bound : ℕ) (r : BufferedReader) : Prop := r.maxLineBytes = bound

theorem admits_stable (bound : ℕ) : tape.Stable (Admits bound) :=
  fun hm h => hm.maxLineBytes.trans h

/-- **A line that is on the tape is read**, however it arrives. -/
theorem reads_readLine {bound : ℕ} {a : Bytes} (ha : 10 ∉ a) (hl : a.length + 1 ≤ bound) :
    tape.Reads (Admits bound) readLine (a ++ [10]) (a ++ [10]) := by
  intro r t hb hp
  have hp : r.pending = a ++ 10 :: t := hp.trans (by simp)
  have hout := readLine_outcome r
  generalize readLine.run r = res at hout ⊢
  cases hout with
  | @found a' r' hm ha' =>
    have heq := hm.pending
    rw [append_assoc, singleton_append] at heq
    obtain ⟨rfl, -⟩ := cut_unique (hp.symm.trans heq) ha ha'
    exact ⟨r', rfl, hm⟩
  | ended hm ha' | dry hm ha' => exact absurd (by simp [hp]) ha'
  | long hm hc hl' =>
    have hlong := hl' a t hp ha
    rw [show r.maxLineBytes = bound from hb, length_nil] at hlong
    omega

variable {P : BufferedReader → Prop}

/-- **Bytes that are on the tape are read**, however they arrive. -/
theorem reads_readExact {bs : Bytes} (hn : bs.length ≤ maxExact) :
    tape.Reads P (readExact bs.length) bs bs := by
  intro r t _ hp
  have hp : r.pending = bs ++ t := hp
  have hout := readExact_outcome hn r
  generalize (readExact bs.length).run r = res at hout ⊢
  have hlen := congrArg length hp
  rw [length_append] at hlen
  cases hout with
  | @full bs' r' hm hn' =>
    have hcut := hm.pending
    rw [length_nil, Nat.zero_add] at hn'
    obtain ⟨rfl, -⟩ := append_inj (hp.symm.trans hcut) hn'.symm
    exact ⟨r', rfl, hm⟩
  | short | dry => omega

/-- A line that ends in its delimiter is all that was read for it. -/
theorem local_readLine (bound : ℕ) : tape.Local (Admits bound) (fun l => l.getLast? = some 10)
    (fun l a => l = a ∧ ∃ b, a = b ++ [10] ∧ 10 ∉ b) readLine := by
  intro r a r' hb hr hg
  have hout := readLine_outcome r
  rw [hr] at hout
  cases hout with
  | @found b _ hm hnot hl =>
    rw [show r.maxLineBytes = bound from hb, length_nil] at hl
    exact ⟨b ++ [10], hm, reads_readLine hnot (by omega), rfl, b, rfl, hnot⟩
  | ended hm ha => exact absurd (mem_of_getLast? hg) ha

/-- Bytes that are all there are all that was read for them. -/
theorem local_readExact (hn : n ≤ maxExact) :
    tape.Local P (fun l => l.length = n) (fun l a => l = a) (readExact n) := by
  intro r a r' _ hr hg
  have hout := readExact_outcome hn r
  rw [hr] at hout
  cases hout with
  | @full bs _ hm =>
    have hlen : bs.length = n := hg
    subst hlen
    exact ⟨bs, hm, reads_readExact hn, rfl⟩
  | short hm hlt =>
    simp only [nil_append, length_nil, Nat.zero_add] at hg hlt
    omega

end Manwe.BufferedReader
