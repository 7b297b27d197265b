import Manwe.Soccer.Http2.ConnectionPool

/-!
# Who shares an HTTP/2 connection

What a caller gets from the pool was connected **under the key it asks for** (`Filed`), so two
callers with the same connection asked for the same configuration, as far as the key tells
configurations apart. With a bar inside an option two configurations can have one key, and the
second caller is handed a connection that was made under the first one's trust and identity.
-/

namespace Manwe.Http2.ConnectionPool

open Function Table

variable {ι : Type} [DecidableEq ι]

/-! ### Steps -/

/-- Nothing is filed in `T` but what is filed in `T'`. -/
def Within (T T' : Table Bytes ℕ) : Prop := ∀ k c, T.find k = some c → T'.find k = some c

theorem within_erase (T : Table Bytes ℕ) (k : Bytes) : Within (T.erase k) T := by
  intro k' c h
  rw [find_erase] at h
  split at h
  · cases h
  · exact h

theorem within_filter (T : Table Bytes ℕ) (keep : Bytes → ℕ → Bool) : Within (T.filter keep) T :=
  fun _ _ => find_of_filter

theorem find_emplace_cases {T : Table Bytes ℕ} {k k' : Bytes} {c d : ℕ} (hk : T.find k = none)
    (h : (T.emplace k c).find k' = some d) : T.find k' = some d ∨ k' = k ∧ d = c := by
  rw [find_emplace hk] at h
  split at h
  · next he => exact .inr ⟨he, (Option.some.inj h).symm⟩
  · exact .inl h

omit [DecidableEq ι] in
/-- `insertLocked` answers with its connection or the one under the key, and files nothing but its
connection there. -/
theorem insertLocked_spec (s : State ι) (k : Bytes) (conn : ℕ) :
    ((insertLocked s k conn).1 = conn ∨ s.entries.find k = some (insertLocked s k conn).1) ∧
      ∀ k' d, (insertLocked s k conn).2.find k' = some d →
        s.entries.find k' = some d ∨ k' = k ∧ d = conn := by
  unfold insertLocked
  cases hk : s.entries.find k with
  | some =>
    dsimp only
    split
    · refine ⟨.inl rfl, fun k' d h => ?_⟩
      rw [find_adjust] at h
      split at h
      · next he =>
        rw [he, hk] at h
        exact .inr ⟨he, (Option.some.inj h).symm⟩
      · exact .inl h
    · exact ⟨.inr rfl, fun _ _ h => .inl h⟩
  | none =>
    dsimp only
    split
    · have hlive := within_filter s.entries fun _ c => !s.closed c
      split
      · exact ⟨.inl rfl, fun k' d h => .inl (hlive k' d h)⟩
      · exact ⟨.inl rfl, fun k' d h =>
          (find_emplace_cases (find_filter_none hk) h).imp_left (hlive k' d)⟩
    · exact ⟨.inl rfl, fun _ _ h => find_emplace_cases hk h⟩

/-- What a step does to the table and the callers. -/
inductive Change (s : State ι) : Event ι → State ι → Prop
  | found {i t c} : s.entries.find t.key = some c →
      Change s (.acquire i t) (s.put i (.returned t c))
  | missed {i t T} : Within T s.entries →
      Change s (.acquire i t) ({ s with entries := T }.put i (.connecting t))
  | connected {i t} : s.calls i = .connecting t →
      Change s (.connect i) ({ s with made := s.made + 1 }.put i (.connected t s.made))
  | failed {i} : Change s (.connectFails i) (s.put i .failed)
  | inserted {i t c used T} : s.calls i = .connected t c →
      (used = c ∨ s.entries.find t.key = some used) →
      (∀ k d, T.find k = some d → s.entries.find k = some d ∨ k = t.key ∧ d = c) →
      Change s (.insert i) ({ s with entries := T }.put i (.returned t used))
  | evicted {host port T} : Within T s.entries → Change s (.evict host port) { s with entries := T }
  | closed {c} : Change s (.close c) { s with closed := update s.closed c true }

theorem change_of_step {s s' : State ι} {e : Event ι} (h : step s e = some s') : Change s e s' := by
  cases e with (simp only [step] at h; repeat' first | cases h | split at h)
  | acquire =>
    first
    | exact .found ‹_›
    | exact .missed (within_erase _ _)
    | exact .missed fun _ _ h => h
  | insert => exact .inserted ‹_› (insertLocked_spec ..).1 (insertLocked_spec ..).2
  | evict => exact .evicted (within_filter _ _)
  | _ => constructor <;> assumption

/-! ### Runs -/

/-- What a call asked for. -/
def Call.target : Call → Option Target
  | .connecting t | .connected t _ | .returned t _ => some t
  | _ => none

/-- The connection a call has in its hands, with what it asked for. -/
def Call.held : Call → Option (Target × ℕ)
  | .connected t c | .returned t c => some (t, c)
  | _ => none

/-- Every connection was made **under one key**, `owner`: it is filed under no other, and no caller
with another key has it. -/
structure Filed (owner : ℕ → Bytes) (s : State ι) : Prop where
  entries : ∀ k c, s.entries.find k = some c → c < s.made ∧ owner c = k
  calls : ∀ i t c, (s.calls i).held = some (t, c) → c < s.made ∧ owner c = t.key

namespace Filed

variable {owner : ℕ → Bytes} {s : State ι}

variable (h : Filed owner s)

include h

/-- A caller moves on, with nothing or with a connection made under its key. -/
theorem put {i : ι} {call : Call}
    (hcall : ∀ t c, call.held = some (t, c) → c < s.made ∧ owner c = t.key) :
    Filed owner (s.put i call) := by
  refine ⟨h.entries, fun j t c hj => ?_⟩
  obtain rfl | hji := eq_or_ne j i
  · exact hcall t c (by simpa [State.put] using hj)
  · exact h.calls j t c (by simpa [State.put, hji] using hj)

omit [DecidableEq ι] in
theorem table {T : Table Bytes ℕ} (hT : ∀ k c, T.find k = some c → c < s.made ∧ owner c = k) :
    Filed owner { s with entries := T } :=
  ⟨hT, h.calls⟩

omit [DecidableEq ι] in
/-- A new connection belongs to the key it is made for. -/
theorem make (k : Bytes) : Filed (update owner s.made k) { s with made := s.made + 1 } := by
  have hold : ∀ c, c < s.made → update owner s.made k c = owner c := fun c hc =>
    update_of_ne (Nat.ne_of_lt hc) _ _
  refine ⟨fun k' c hc => ?_, fun i t c hc => ?_⟩
  · obtain ⟨hlt, ho⟩ := h.entries k' c hc
    exact ⟨Nat.lt_succ_of_lt hlt, (hold c hlt).trans ho⟩
  · obtain ⟨hlt, ho⟩ := h.calls i t c hc
    exact ⟨Nat.lt_succ_of_lt hlt, (hold c hlt).trans ho⟩

theorem step {s' : State ι} {e : Event ι} (hs : Change s e s') : ∃ owner', Filed owner' s' := by
  cases hs with
  | found hf =>
    refine ⟨owner, h.put ?_⟩
    rintro t c ⟨⟩
    exact h.entries _ _ hf
  | missed hT => exact ⟨owner, (h.table fun k c hc => h.entries k c (hT k c hc)).put nofun⟩
  | @connected i t =>
    refine ⟨_, (h.make t.key).put ?_⟩
    rintro t' c ⟨⟩
    exact ⟨Nat.lt_succ_self _, update_self _ _ _⟩
  | failed => exact ⟨owner, h.put nofun⟩
  | @inserted i t c used T hi hused hT =>
    have hmine := h.calls i t c (by rw [hi]; rfl)
    have htable : Filed owner { s with entries := T } := h.table fun k d hd => by
      obtain hold | ⟨rfl, rfl⟩ := hT k d hd
      · exact h.entries k d hold
      · exact hmine
    refine ⟨owner, htable.put ?_⟩
    rintro t' c' ⟨⟩
    obtain rfl | hf := hused
    · exact hmine
    · exact h.entries _ _ hf
  | evicted hT => exact ⟨owner, h.table fun k c hc => h.entries k c (hT k c hc)⟩
  | closed => exact ⟨owner, h.entries, h.calls⟩

end Filed

variable {s : State ι} {limit : ℕ} {tr : List (State ι × Event ι)} {i : ι} {t : Target}

theorem filed_run (h : Run step { limit } tr s) : ∃ owner, Filed owner s := by
  induction h with
  | start => exact ⟨fun _ => [], nofun, nofun⟩
  | next _ hs ih =>
    obtain ⟨owner, ho⟩ := ih
    exact ho.step (change_of_step hs)

/-- The options a call comes with have no bar in them. -/
def Event.Unbarred : Event ι → Prop
  | .acquire _ t => t.Unbarred
  | _ => True

instance (e : Event ι) : Decidable e.Unbarred := match e with
  | .acquire _ t => inferInstanceAs (Decidable t.Unbarred)
  | .connect _ | .connectFails _ | .insert _ | .evict _ _ | .close _ => isTrue trivial

/-- What a call has asked for after a step it has asked for before, or asks for in this step. -/
theorem Change.target {s s' : State ι} {e : Event ι} (h : Change s e s')
    (hi : (s'.calls i).target = some t) : (s.calls i).target = some t ∨ e = .acquire i t := by
  have hput : ∀ {j : ι} {call : Call}, (update s.calls j call i).target = some t →
      (s.calls i).target = some t ∨ i = j ∧ call.target = some t := by
    intro j call hj
    obtain rfl | hij := eq_or_ne i j
    · exact .inr ⟨rfl, by simpa using hj⟩
    · exact .inl (by simpa [hij] using hj)
  cases h with
  | found | missed | connected hj | inserted hj | failed =>
    obtain hold | ⟨rfl, hnew⟩ := hput hi
    · exact .inl hold
    · cases hnew <;> first | exact .inr rfl | exact .inl (by rw [hj]; rfl)
  | evicted | closed => exact .inl hi

theorem unbarred_run (h : Run step { limit } tr s) (hok : ∀ p ∈ tr, p.2.Unbarred)
    (hi : (s.calls i).target = some t) : t.Unbarred := by
  induction h with
  | start => cases hi
  | next _ hs ih =>
    obtain hold | rfl := (change_of_step hs).target hi
    · exact ih (fun p hp => hok p (List.mem_append_left _ hp)) hold
    · exact hok _ (List.mem_append_right _ List.mem_cons_self)

/-- **No connection is shared across targets.** If no option of any call has a bar in it, the key
tells targets apart, and any two calls that return the same connection asked for the same host, the
same port and the same options. -/
theorem connections_unshared :
    (∀ t t' : Target, t.Unbarred → t'.Unbarred → t.key = t'.key → t = t') ∧
      ∀ {limit : ℕ} {s : State ι} {tr : List (State ι × Event ι)},
        Run step { limit } tr s → (∀ p ∈ tr, p.2.Unbarred) →
          ∀ {i j : ι} {t t' : Target} {c : ℕ}, s.calls i = .returned t c →
            s.calls j = .returned t' c → t = t' := by
  refine ⟨fun t t' => Target.key_inj, fun h hok i j t t' c hi hj => ?_⟩
  obtain ⟨owner, ho⟩ := filed_run h
  have hki := (ho.calls i t c (by rw [hi]; rfl)).2
  have hkj := (ho.calls j t' c (by rw [hj]; rfl)).2
  exact Target.key_inj (unbarred_run h hok (by rw [hi]; rfl)) (unbarred_run h hok (by rw [hj]; rfl))
    (hki.symm.trans hkj)

/-- One host with and without a client certificate, and a third call that comes again for the
first. -/
def certified : Target := ⟨[97], 443, some { clientCertFile := [99], clientKeyFile := [107] }⟩

def anonymous : Target := ⟨[97], 443, some {}⟩

def threeCalls : List (Event (Fin 3)) :=
  [.acquire 0 certified, .acquire 1 anonymous, .connect 1, .connect 0, .insert 0, .insert 1,
    .acquire 2 certified]

theorem connections_unshared_threeCalls : ∃ tr s, Run step ({ limit := 2 } : State (Fin 3)) tr s ∧
      s.calls 0 = .returned certified 1 ∧ s.calls 1 = .returned anonymous 0 ∧
      (∃ t, s.calls 2 = .returned t 1) ∧ ∀ t, s.calls 2 = .returned t 1 → t = certified := by
  obtain ⟨tr, s, h, hok, h0, h1, h2⟩ : ∃ tr s, Run step ({ limit := 2 } : State (Fin 3)) tr s ∧
      (∀ p ∈ tr, p.2.Unbarred) ∧ s.calls 0 = .returned certified 1 ∧
      s.calls 1 = .returned anonymous 0 ∧ s.calls 2 = .returned certified 1 :=
    Run.exists_of_exec threeCalls (by decide +kernel)
  exact ⟨tr, s, h, h0, h1, ⟨_, h2⟩, fun t ht => connections_unshared.2 h hok ht h0⟩

/-- **A bar inside an option.** The second caller names another CA bundle and a client certificate,
and gets the connection that was made without one. -/
def barred : Target := ⟨[97], 443, some { caBundleFile := [98, 124, 99] }⟩

def barred' : Target := ⟨[97], 443, some { caBundleFile := [98], clientCertFile := [99, 124] }⟩

theorem connections_shared : barred ≠ barred' ∧ barred.key = barred'.key ∧
      ∃ tr s, Run step ({} : State (Fin 2)) tr s ∧ s.calls 0 = .returned barred 0 ∧
        s.calls 1 = .returned barred' 0 := by
  exact ⟨by decide, by decide, Run.exists_of_exec
    [.acquire 0 barred, .connect 0, .insert 0, .acquire 1 barred'] (by decide +kernel)⟩

end Manwe.Http2.ConnectionPool
