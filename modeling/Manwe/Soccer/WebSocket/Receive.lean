import Manwe.Soccer.WebSocket.Reference

/-!
# Receiving is decoding

One round of `receiveImpl` against one step of the reference decoder: where the encoding of a frame
is next on the wire, the round completes the message, goes on, or ends the connection just as the
decoder says, **unless a read is cancelled or the Pong cannot be written**. From there the receive
call, and a series of them, follow by induction over the frames.
-/

namespace Manwe.WebSocket

open Http List EStateM Nat RawFrame Tape

/-! ### What the parts of a round can do -/

/-- The connection is open and its output is whole. -/
structure Intact (im : Impl) : Prop where
  isOpen : im.isOpen = true
  writeBroken : im.writeBroken = false

/-- Nothing of what decides the coming rounds has changed. -/
structure Same (im im' : Impl) : Prop where
  serverSide : im'.serverSide = im.serverSide
  opts : im'.opts = im.opts
  ending : im'.stream.ending = im.stream.ending
  accepts : im'.stream.accepts = im.stream.accepts
  cancels : im'.cancels <:+ im.cancels

theorem Same.refl (im : Impl) : Same im im := ⟨rfl, rfl, rfl, rfl, suffix_refl _⟩

variable {im' : Impl} {im : Impl}

theorem Same.trans {im'' : Impl} (h : Same im im') (h' : Same im' im'') : Same im im'' where
  serverSide := h'.serverSide.trans h.serverSide
  opts := h'.opts.trans h.opts
  ending := h'.ending.trans h.ending
  accepts := h'.accepts.trans h.accepts
  cancels := h'.cancels.trans h.cancels

variable {l t : Bytes}

theorem Moves.same (h : Moves im l im') : Same im im' where
  serverSide := by rw [h.frame]
  opts := by rw [h.frame]
  ending := h.ending
  accepts := h.accepts
  cancels := h.cancels

theorem Moves.intact (h : Moves im l im') (hi : Intact im) : Intact im' where
  isOpen := by rw [h.frame]; exact hi.isOpen
  writeBroken := by rw [h.frame]; exact hi.writeBroken

/-- A read of the socket by `failConnection`: it leaves the connection closed, and throws only the
socket's faults or a cancellation. -/
theorem read_closed {n : ℕ} (h : im.isOpen = false) :
    (∃ bs im', (read n).run im = .ok bs im' ∧ im'.isOpen = false ∧ im'.cancels <:+ im.cancels) ∨
    (∃ e im', (read n).run im = .error e im' ∧ im'.isOpen = false ∧
      ((∃ fault, e = .io fault) ∨ Cancels im e)) := by
  unfold read run
  dsimp only
  split
  · next hc =>
    refine .inr ⟨_, _, rfl, h, .inr ⟨rfl, ?_⟩⟩
    cases hcs : im.cancels with
    | nil => simp [hcs] at hc
    | cons =>
      rw [hcs, headD_cons] at hc
      exact hc ▸ mem_cons_self
  · cases im.stream.read n with
    | ok bs => exact .inl ⟨bs, _, rfl, h, tail_suffix _⟩
    | error e => exact .inr ⟨_, _, rfl, h, .inl ⟨e, rfl⟩⟩

/-- The drain ends quietly, or is cancelled. -/
theorem drain_closed (rounds : ℕ) (h : im.isOpen = false) :
    ∃ im', im'.isOpen = false ∧ ((drain rounds).run im = .ok () im' ∨
      (drain rounds).run im = .error .cancelled im' ∧ true ∈ im.cancels) := by
  induction rounds generalizing im with
  | zero => exact ⟨im, h, .inl rfl⟩
  | succ rounds ih =>
    rw [drain, run_catch, run_bind]
    rcases read_closed h with ⟨bs, im₁, hr, ho, hc⟩ | ⟨e, im₁, hr, ho, he⟩
    · rw [hr]
      dsimp only
      split_ifs with hb
      · exact ⟨im₁, ho, .inl rfl⟩
      · obtain ⟨im', ho', hd | ⟨hd, hx⟩⟩ := ih ho
        · rw [hd]
          exact ⟨im', ho', .inl rfl⟩
        · rw [hd]
          exact ⟨im', ho', .inr ⟨rfl, hc.subset hx⟩⟩
    · rw [hr]
      rcases he with ⟨fault, rfl⟩ | ⟨rfl, hx⟩
      · exact ⟨im₁, ho, .inl rfl⟩
      · exact ⟨im₁, ho, .inr ⟨rfl, hx⟩⟩

/-- `sendLocked` on a connection whose output is whole. -/
theorem sendLocked_outcome (opcode : UInt8) (payload : Bytes) (isFinal : Bool)
    (h : im.writeBroken = false) :
    (im.stream.accepts = true ∧ ∃ im', (sendLocked opcode payload isFinal).run im = .ok () im' ∧
      im'.pending = im.pending ∧ im'.isOpen = im.isOpen ∧ im'.writeBroken = false ∧ Same im im') ∨
    (im.stream.accepts = false ∧ ∃ im', (sendLocked opcode payload isFinal).run im =
      .error (.io (.socket "send")) im' ∧ im'.isOpen = false ∧ im'.cancels = im.cancels) := by
  rw [sendLocked, run_bind, run_get]
  dsimp only
  rw [if_neg (by simp [h]), run_catch]
  unfold writeFrame TcpStream.write run
  dsimp only
  cases hacc : im.stream.accepts with
  | true => exact .inl ⟨rfl, _, rfl, rfl, rfl, h, rfl, rfl, rfl, rfl, suffix_refl _⟩
  | false => exact .inr ⟨rfl, _, rfl, rfl, rfl⟩

/-- The call ends with the connection closed: in an exception, or cancelled while it was failing
the connection. -/
def EndsClosed {α : Type} (im : Impl) (r : Result WsFault Impl α) : Prop :=
  ∃ e im', r = .error e im' ∧ im'.isOpen = false ∧ ((∃ what, e = .ws what) ∨ Cancels im e)

theorem EndsClosed.of_same {α : Type} {r : Result WsFault Impl α}
    (h : EndsClosed im' r) (hs : Same im im') : EndsClosed im r := by
  obtain ⟨e, im'', hr, ho, he⟩ := h
  exact ⟨e, im'', hr, ho, he.imp_right fun hx => ⟨hx.1, hs.cancels.subset hx.2⟩⟩

theorem EndsClosed.bind {α β : Type} {m : Prog α} {k : α → Prog β} (h : EndsClosed im (m.run im)) :
    EndsClosed im ((m >>= k).run im) := by
  obtain ⟨e, im', hr, h⟩ := h
  exact ⟨e, im', run_bind_error.2 (.inl hr), h⟩

/-- Failing the connection closes it, and throws what it was told to. -/
theorem failConnection_ends {α : Type} (code : ℕ) (what : String) (h : Intact im) :
    EndsClosed im ((failConnection code what : Prog α).run im) := by
  have hannounce : ∃ im', im'.isOpen = false ∧ ((announceFailure code).run im = .ok () im' ∨
      (announceFailure code).run im = .error .cancelled im' ∧ true ∈ im.cancels) := by
    rw [announceFailure, run_bind, run_get]
    dsimp only
    rw [if_pos h.isOpen, run_bind, run_set]
    dsimp only
    rw [run_bind, attempt, run_catch, run_bind]
    have hbroken : { im with isOpen := false }.writeBroken = false := h.writeBroken
    rcases sendLocked_outcome opClose (closeBody code []) true hbroken with
      ⟨-, im₁, hs, -, ho, -, hsame⟩ | ⟨-, im₁, hs, ho, -⟩
    · rw [hs]
      obtain ⟨im', ho', hd | ⟨hd, hx⟩⟩ := drain_closed im.patience ho
      · exact ⟨im', ho', .inl hd⟩
      · exact ⟨im', ho', .inr ⟨hd, hsame.cancels.subset hx⟩⟩
    · rw [hs]
      exact ⟨im₁, ho, .inl rfl⟩
  obtain ⟨im', ho, hr | ⟨hr, hx⟩⟩ := hannounce
  · refine ⟨.ws what, im', ?_, ho, .inl ⟨what, rfl⟩⟩
    rw [failConnection, run_bind_of_ok hr]
    rfl
  · refine ⟨.cancelled, im', ?_, ho, .inr ⟨rfl, hx⟩⟩
    exact run_bind_error.2 (.inl hr)

/-! ### The header of a frame -/

/-- What `readFrame` checks, where `assembled` bytes of a message have arrived. -/
structure Framed (isServer : Bool) (maxMessage assembled : ℕ) (f : RawFrame) : Prop where
  rsv : f.rsv = 0
  mask : f.mask.isSome = isServer
  control : f.Control → f.payload.length ≤ 125 ∧ f.fin = true
  size : ¬ f.Control → maxMessage ≠ 0 → assembled + f.payload.length ≤ maxMessage

theorem control_iff : ∀ o : Fin 16, opcodeByte o &&& 0x08 ≠ 0 ↔ 8 ≤ o := by decide

variable {maxMessage : ℕ} {f : RawFrame}

theorem checkLength_ok {assembled : ℕ} :
    checkLength maxMessage assembled (opcodeByte f.opcode) f.fin f.payload.length = .ok ()
      ↔ (f.Control → f.payload.length ≤ 125 ∧ f.fin = true) ∧
      (¬ f.Control → maxMessage ≠ 0 → assembled + f.payload.length ≤ maxMessage) := by
  rw [checkLength]
  by_cases hc : f.Control
  · rw [if_pos ((control_iff _).2 hc), maxControlPayload]
    split_ifs with hlen hfin
    · simp only [false_iff, not_and]
      intro h
      omega
    · simp only [false_iff, not_and]
      intro h
      simp [(h hc).2] at hfin
    · simp only [true_iff]
      exact ⟨fun _ => ⟨by omega, by simpa using hfin⟩, fun h => absurd hc h⟩
  · rw [if_neg (mt (control_iff _).1 hc)]
    split_ifs with hmax
    · simp only [false_iff, not_and]
      intro _ h
      omega
    · simp only [true_iff]
      refine ⟨fun h => absurd h hc, fun _ h0 => ?_⟩
      rw [not_and] at hmax
      omega

theorem checkLength_error {assembled plen : ℕ} {opcode : UInt8} {fin : Bool} {e : WsFault}
    (h : checkLength maxMessage assembled opcode fin plen = .error e) :
    ∃ code what, e = .frame code what := by
  unfold checkLength at h
  split_ifs at h <;> cases h <;> exact ⟨_, _, rfl⟩

variable {isServer : Bool}

theorem verdict_of_framed {assembled : ℕ} (h : Framed isServer maxMessage assembled f) :
    f.verdict isServer maxMessage assembled = .ok ⟨opcodeByte f.opcode, f.fin, f.payload⟩ := by
  rw [verdict, if_neg (by simp [h.rsv]), if_neg (by simp [h.mask]),
    checkLength_ok.2 ⟨h.control, h.size⟩]
  rfl

theorem verdict_of_not_framed {assembled : ℕ} (h : ¬ Framed isServer maxMessage assembled f) :
    ∃ code what, f.verdict isServer maxMessage assembled = .error (.frame code what) := by
  rw [verdict]
  split_ifs with hrsv hmask
  · exact ⟨_, _, rfl⟩
  · exact ⟨_, _, rfl⟩
  · exact ⟨_, _, rfl⟩
  · cases hcheck : checkLength maxMessage assembled (opcodeByte f.opcode) f.fin
      f.payload.length with
    | error =>
      obtain ⟨code, what, rfl⟩ := checkLength_error hcheck
      exact ⟨code, what, rfl⟩
    | ok =>
      obtain ⟨hc, hs⟩ := checkLength_ok.1 hcheck
      exact absurd ⟨by simpa using hrsv, by simpa using hmask, hc, hs⟩ h

/-! ### One round -/

/-- How the code holds a message in progress. -/
def Rep (a : Assembly) : Option Fragments → Prop
  | none => a.assembling = false ∧ a.emptyFragments = 0
  | some p => a.assembling = true ∧ a.assemblyType = p.type ∧ a.assemblyBuf = p.payload ∧
      a.emptyFragments = p.empties

/-- The bytes of a message in progress. -/
def assembled : Option Fragments → ℕ
  | none => 0
  | some p => p.payload.length

variable {st : Option Fragments} {a : Assembly}

theorem assembled_of_rep (h : Rep a st) :
    (if a.assembling then a.assemblyBuf.length else 0) = assembled st := by
  cases st with
  | none => rw [if_neg (by simp [h.1]), assembled]
  | some => rw [if_pos h.1, h.2.2.1, assembled]

theorem length_gathered (st : Option Fragments) (f : RawFrame) :
    (gathered st f).length = assembled st + f.payload.length := by
  cases st with
  | none => exact (zero_add _).symm
  | some => exact length_append

theorem Fine.framed (h : Fine isServer maxMessage st f) :
    Framed isServer maxMessage (assembled st) f :=
  ⟨h.rsv, h.mask, h.control, fun hc h0 => length_gathered st f ▸ h.size hc h0⟩

/-- A receive is cancelled in a read. -/
def Abandoned {α : Type} (im : Impl) (r : Result WsFault Impl α) : Prop :=
  tape.Interrupted Cancels im r

/-- Reading the next frame: its content, the end of the connection, or a cancellation. -/
theorem nextFrame_outcome (hi : Intact im) (ha : Rep a st) (hp : im.pending = f.encode ++ t) :
    (Framed im.serverSide im.opts.maxMessageBytes (assembled st) f ∧ ∃ im',
      (nextFrame a).run im = .ok ⟨opcodeByte f.opcode, f.fin, f.payload⟩ im' ∧
      Moves im f.encode im') ∨
    (¬ Framed im.serverSide im.opts.maxMessageBytes (assembled st) f ∧
      EndsClosed im ((nextFrame a).run im)) ∨
    Abandoned im ((nextFrame a).run im) := by
  rw [nextFrame, run_bind, run_get]
  dsimp only
  rw [assembled_of_rep ha, run_catch]
  by_cases hfr : Framed im.serverSide im.opts.maxMessageBytes (assembled st) f
  · rcases takes_readFrame (verdict_of_framed hfr) im t hp with
      ⟨im', hr, hm⟩ | ⟨e, im', l, ⟨rfl, hx⟩, hr, hm⟩
    · rw [hr]
      exact .inl ⟨hfr, im', rfl, hm⟩
    · rw [hr]
      exact .inr (.inr ⟨.cancelled, im', l, ⟨rfl, hx⟩, rfl, hm⟩)
  · obtain ⟨code, what, hv⟩ := verdict_of_not_framed hfr
    rcases refuses_readFrame hv im t hp with ⟨im', l, hr, hm⟩ | ⟨e, im', l, ⟨rfl, hx⟩, hr, hm⟩
    · rw [hr]
      exact .inr (.inl ⟨hfr, (failConnection_ends code what (hm.intact hi)).of_same hm.same⟩)
    · rw [hr]
      exact .inr (.inr ⟨.cancelled, im', l, ⟨rfl, hx⟩, rfl, hm⟩)

/-- The outcomes of a round on the frame `f`, with `st` of a message before it and `t` after. -/
inductive Round (im : Impl) (st : Option Fragments) (f : RawFrame) (t : Bytes) :
    Result WsFault Impl (WsMessage ⊕ Assembly) → Prop
  | message {m : WsMessage} {im' : Impl}
      (hf : Fine im.serverSide im.opts.maxMessageBytes st f) (ha : advance st f = (none, some m))
      (hp : im'.pending = t) (hi : Intact im') (hs : Same im im') : Round im st f t (.ok (.inl m)
        im')
  | goesOn {a : Assembly} {st' : Option Fragments} {im' : Impl}
      (hf : Fine im.serverSide im.opts.maxMessageBytes st f) (ha : advance st f = (st', none))
      (hr : Rep a st') (hp : im'.pending = t) (hi : Intact im') (hs : Same im im') :
      Round im st f t (.ok (.inr a) im')
  | closed {r : Result WsFault Impl (WsMessage ⊕ Assembly)}
      (hf : ¬ Fine im.serverSide im.opts.maxMessageBytes st f) (h : EndsClosed im r) :
      Round im st f t r
  /-- the Pong could not be written -/
  | broken {im' : Impl} (hacc : im.stream.accepts = false) (ho : im'.isOpen = false) :
      Round im st f t (.error (.io (.socket "send")) im')
  | cancelled {r : Result WsFault Impl (WsMessage ⊕ Assembly)} (h : Abandoned im r) :
      Round im st f t r

/-- A complete message is returned, unless it is text and not UTF-8. -/
theorem deliver_outcome (type : WsMessageType) (payload : Bytes) (hi : Intact im) :
    ((type = .text → IsUtf8 payload) ∧ (deliver type payload).run im = .ok ⟨type, payload⟩ im) ∨
    (¬ (type = .text → IsUtf8 payload) ∧ EndsClosed im ((deliver type payload).run im)) := by
  have hvalid : validUtf8 payload = true ↔ IsUtf8 payload := validUtf8Loop_iff le_rfl
  rw [deliver]
  split_ifs with h
  · refine .inr ⟨fun hu => ?_, failConnection_ends _ _ hi⟩
    simp [hvalid.2 (hu h.1)] at h
  · refine .inl ⟨fun ht => hvalid.1 ?_, rfl⟩
    simpa [ht] using h

theorem opcodeByte_inj : ∀ o p : Fin 16, opcodeByte o = opcodeByte p → o = p := by decide

/-- The frame as `readFrame` returns it. -/
def RawFrame.content (f : RawFrame) : WsFrame := ⟨opcodeByte f.opcode, f.fin, f.payload⟩

section OnFrame

variable {im : Impl} {a : Assembly} {st : Option Fragments} {f : RawFrame}

variable (hi : Intact im) (ha : Rep a st)
  (hfr : Framed im.serverSide im.opts.maxMessageBytes (assembled st) f)

include hi ha hfr

/-- A Text or Binary frame. -/
theorem onData_round (ho : f.Begins) : Round im st f im.pending ((onData a f.content).run im) := by
  have hnc : ¬ f.Control := by rcases ho with ho | ho <;> rw [Control, ho] <;> decide
  have hncont : ¬ f.Continuation := by rcases ho with ho | ho <;> rw [Continuation, ho] <;> decide
  cases st with
  | some =>
    rw [onData, if_pos ha.1]
    exact .closed (fun hf => nomatch hf.nested ho) (failConnection_ends _ _ hi)
  | none =>
    have htype : dataType f.content.opcode = messageType none f := by
      rcases ho with ho | ho <;> simp only [dataType, content, messageType, ho] <;> decide
    have hfine : (f.fin = true → messageType none f = .text → IsUtf8 f.payload) →
        Fine im.serverSide im.opts.maxMessageBytes none f := fun hu =>
      ⟨hfr.rsv, hfr.mask, by rcases ho with ho | ho <;> simp [Known, ho],
        by rcases ho with ho | ho <;> rw [ho] <;> decide, hfr.control, fun h => absurd h hncont,
        fun _ => rfl, fun _ h0 => by simpa [gathered, assembled] using hfr.size hnc h0,
        fun _ => hu, fun h => absurd h hncont⟩
    rw [onData, if_neg (by simp [ha.1])]
    split_ifs with hfin
    · rw [htype]
      rcases deliver_outcome (messageType none f) f.content.payload hi with ⟨hu, hr⟩ | ⟨hu, hr⟩
      · rw [run_bind_of_ok hr]
        exact .message (hfine fun _ => hu) (advance_fin hnc hfin) rfl hi (.refl im)
      · exact .closed (fun hf => hu (hf.utf8 hnc hfin)) hr.bind
    · have hadv := advance_more none hnc hfin
      rw [if_neg fun h => hncont h.1] at hadv
      exact .goesOn (hfine fun h => absurd h hfin) hadv ⟨rfl, htype, rfl, ha.2⟩ rfl hi (.refl im)

/-- A Continuation frame. -/
theorem onContinuation_round (ho : f.Continuation) :
    Round im st f im.pending ((onContinuation im.opts.maxMessageBytes a f.content).run im) := by
  have hnc : ¬ f.Control := by
    rw [Control, ho]
    decide
  rw [onContinuation]
  cases st with
  | none =>
    rw [if_pos (by simp [ha.1])]
    exact .closed (fun hf => hf.orphan ho rfl) (failConnection_ends _ _ hi)
  | some p =>
    obtain ⟨ha₁, ha₂, ha₃, ha₄⟩ := ha
    rw [if_neg (by simp [ha₁])]
    have hsize : ¬ (im.opts.maxMessageBytes ≠ 0 ∧
        a.assemblyBuf.length + f.content.payload.length > im.opts.maxMessageBytes) := by
      rintro ⟨h0, hgt⟩
      have := hfr.size hnc h0
      rw [ha₃] at hgt
      exact absurd this (not_le.2 hgt)
    have hfine : (f.fin = true → p.type = .text → IsUtf8 (p.payload ++ f.payload)) →
        (f.payload = [] → f.fin = false → p.empties < 32) →
        Fine im.serverSide im.opts.maxMessageBytes (some p) f := fun hu he =>
      { rsv := hfr.rsv
        mask := hfr.mask
        known := by simp [Known, ho]
        notClose := by simp [ho]
        control := hfr.control
        orphan := fun _ => nofun
        nested := fun h => by rcases h with h | h <;> exact absurd (ho.symm.trans h) (by decide)
        size := fun _ h0 => by simpa [gathered, assembled] using hfr.size hnc h0
        utf8 := fun _ => hu
        empty := fun _ => he }
    have hcount : (if f.content.payload = [] ∧ (!f.content.fin) = true then a.emptyFragments + 1
        else 0) = if f.payload = [] ∧ f.fin = false then p.empties + 1 else 0 := by
      rw [ha₄]
      simp [content]
    rw [hcount]
    generalize hE : (if f.payload = [] ∧ f.fin = false then p.empties + 1 else 0) = E
    by_cases hmany : E > maxEmptyFragments
    · -- the 33rd empty fragment in a row
      rw [if_pos hmany]
      refine .closed (fun hf => ?_) (failConnection_ends _ _ hi)
      rw [maxEmptyFragments] at hmany
      split_ifs at hE with he
      · have : p.empties < 32 := hf.empty ho he.1 he.2
        omega
      · omega
    rw [if_neg hmany, if_neg hsize]
    by_cases hfin : f.fin = true
    · -- the last fragment
      rw [if_pos (show f.content.fin = true from hfin), ha₂, ha₃]
      rcases deliver_outcome p.type (p.payload ++ f.content.payload) hi with ⟨hu, hr⟩ | ⟨hu, hr⟩
      · rw [run_bind_of_ok hr]
        refine .message (hfine (fun _ => hu) fun _ h => ?_) (advance_fin hnc hfin) rfl hi (.refl im)
        exact absurd (hfin.symm.trans h) Bool.true_eq_false.mp
      · exact .closed (fun hf => hu (hf.utf8 hnc hfin)) hr.bind
    · have hfin' : f.fin = false := Bool.eq_false_of_not_eq_true hfin
      rw [if_neg (show ¬ f.content.fin = true from hfin)]
      have hadv := advance_more (some p) hnc hfin
      have hsame : (if f.Continuation ∧ f.payload = [] then empties (some p) + 1 else 0) = E := by
        rw [← hE]
        exact if_congr ⟨fun h => ⟨h.2, hfin'⟩, fun h => ⟨ho, h.1⟩⟩ rfl rfl
      rw [hsame] at hadv
      refine .goesOn (hfine (fun h => absurd h hfin) fun h _ => ?_) hadv ⟨ha₁, ha₂, ?_, rfl⟩ rfl hi
        (.refl im)
      · rw [if_pos ⟨h, hfin'⟩] at hE
        rw [maxEmptyFragments] at hmany
        omega
      · rw [ha₃]
        rfl

omit hi ha hfr

/-- A control frame that is fine leaves the message in progress alone. -/
theorem fine_control {isServer : Bool} {maxMessage : ℕ}
    (hfr : Framed isServer maxMessage (assembled st) f) (ho : f.opcode = 9 ∨ f.opcode = 10) :
    f.Control ∧ Fine isServer maxMessage st f := by
  have hc : f.Control := by rcases ho with ho | ho <;> rw [Control, ho] <;> decide
  refine ⟨hc, hfr.rsv, hfr.mask, ?_, ?_, hfr.control, fun h => ?_, fun h => ?_,
    fun h => absurd hc h, fun h => absurd hc h, fun h => ?_⟩
  · rcases ho with ho | ho <;> simp [Known, ho]
  · rcases ho with ho | ho <;> rw [ho] <;> decide
  · rcases ho with ho | ho <;> exact absurd (ho.symm.trans h) (by decide)
  · rcases ho with ho | ho <;> rcases h with h | h <;> exact absurd (ho.symm.trans h) (by decide)
  · rcases ho with ho | ho <;> exact absurd (ho.symm.trans h) (by decide)

/-- The Pong budget is the connection's own affair. -/
theorem pingAnswered_ok (im : Impl) : ∃ b im', pingAnswered.run im = .ok b im' ∧
    im'.pending = im.pending ∧ im'.isOpen = im.isOpen ∧ im'.writeBroken = im.writeBroken ∧
    Same im im' := by
  rw [pingAnswered, run_bind, run_get]
  dsimp only
  by_cases h : im.opts.maxPingsPerSecond = 0
  · rw [if_pos h]
    exact ⟨_, im, rfl, rfl, rfl, rfl, .refl im⟩
  · rw [if_neg h]
    exact ⟨_, _, rfl, rfl, rfl, rfl, rfl, rfl, rfl, rfl, suffix_refl _⟩

theorem onPing_outcome (hi : Intact im) :
    (∃ im', (onPing f.content).run im = .ok () im' ∧ im'.pending = im.pending ∧ Intact im' ∧
      Same im im') ∨
    (im.stream.accepts = false ∧ ∃ im', (onPing f.content).run im =
      .error (.io (.socket "send")) im' ∧ im'.isOpen = false) := by
  obtain ⟨b, im₁, hr, hp, ho, hw, hs⟩ := pingAnswered_ok im
  rw [onPing, run_bind_of_ok hr]
  cases b with
  | false => exact .inl ⟨im₁, rfl, hp, ⟨ho.trans hi.isOpen, hw.trans hi.writeBroken⟩, hs⟩
  | true =>
    rcases sendLocked_outcome opPong f.content.payload true (hw.trans hi.writeBroken) with
      ⟨-, im', hr', hp', ho', hw', hs'⟩ | ⟨hacc, im', hr', ho', -⟩
    · exact .inl ⟨im', hr', hp'.trans hp, ⟨ho'.trans (ho.trans hi.isOpen), hw'⟩, hs.trans hs'⟩
    · exact .inr ⟨hs.accepts.symm.trans hacc, im', hr', ho'⟩

theorem onClose_ends (hi : Intact im) : EndsClosed im ((onClose f.content).run im) := by
  rw [onClose]
  split_ifs with h
  · exact failConnection_ends _ _ hi
  · have hecho : ∃ im', (echoClose f.content.payload).run im = .ok () im' ∧ im'.isOpen = false := by
      rw [echoClose, run_bind, run_get]
      dsimp only
      rw [if_pos hi.isOpen, run_bind, run_set]
      dsimp only
      rw [run_catch]
      have hbroken : { im with isOpen := false }.writeBroken = false := hi.writeBroken
      rcases sendLocked_outcome opClose f.content.payload true hbroken with
        ⟨-, im', hr, -, ho, -⟩ | ⟨-, im', hr, ho, -⟩
      · rw [hr]
        exact ⟨im', rfl, ho⟩
      · rw [hr]
        exact ⟨im', rfl, ho⟩
    obtain ⟨im', hr, ho⟩ := hecho
    rw [run_bind_of_ok hr]
    exact ⟨_, im', rfl, ho, .inl ⟨_, rfl⟩⟩

/-- **What `receiveImpl` does with a frame is what the decoder does.** -/
theorem onFrame_round (hi : Intact im) (ha : Rep a st)
    (hfr : Framed im.serverSide im.opts.maxMessageBytes (assembled st) f) :
    Round im st f im.pending ((onFrame a f.content).run im) := by
  rw [onFrame]
  have hop : f.content.opcode = opcodeByte f.opcode := rfl
  rw [hop]
  split_ifs with hdata hcont hping hpong hclose
  · exact onData_round hi ha hfr (hdata.imp (opcodeByte_inj _ 1) (opcodeByte_inj _ 2))
  · exact onContinuation_round hi ha hfr (opcodeByte_inj _ 0 hcont)
  · have ho := opcodeByte_inj _ 9 hping
    obtain ⟨hc, hf⟩ := fine_control hfr (.inl ho)
    rcases onPing_outcome hi with ⟨im', hr, hp, hi', hs⟩ | ⟨hacc, im', hr, ho'⟩
    · rw [run_bind_of_ok hr]
      exact .goesOn hf (advance_control hc) ha hp hi' hs
    · rw [run_bind_error.2 (.inl hr)]
      exact .broken hacc ho'
  · have ho := opcodeByte_inj _ 10 hpong
    obtain ⟨hc, hf⟩ := fine_control hfr (.inr ho)
    exact .goesOn hf (advance_control hc) ha rfl hi (.refl im)
  · have ho := opcodeByte_inj _ 8 hclose
    exact .closed (fun hf => hf.notClose ho) (onClose_ends hi)
  · refine .closed (fun hf => ?_) (failConnection_ends _ _ hi)
    have hk := hf.known
    simp only [Known, mem_cons, not_mem_nil, or_false] at hk
    rcases hk with hk | hk | hk | hk | hk | hk <;> rw [hk] at hdata hcont hping hpong hclose
    · exact hcont rfl
    · exact hdata (.inl rfl)
    · exact hdata (.inr rfl)
    · exact hclose rfl
    · exact hping rfl
    · exact hpong rfl

end OnFrame

/-- The outcome of a round from the moment its frame was read. -/
theorem Round.of_moves {r : Result WsFault Impl (WsMessage ⊕ Assembly)}
    (h : Round im' st f t r)
    (hm : Moves im l im') : Round im st f t r := by
  have hs := hm.same
  cases h with
  | message hf ha hp hi hs' =>
    rw [hs.serverSide, hs.opts] at hf
    exact .message hf ha hp hi (hs.trans hs')
  | goesOn hf ha hr hp hi hs' =>
    rw [hs.serverSide, hs.opts] at hf
    exact .goesOn hf ha hr hp hi (hs.trans hs')
  | closed hf h =>
    rw [hs.serverSide, hs.opts] at hf
    exact .closed hf (h.of_same hs)
  | broken hacc ho => exact .broken (hs.accepts.symm.trans hacc) ho
  | cancelled h =>
    obtain ⟨e, im'', l', hx, hr, hm'⟩ := h
    exact .cancelled ⟨e, im'', l ++ l', cancels_recede _ _ _ _ hm hx, hr, hm.trans hm'⟩

/-- **A round**: the next frame is read and dealt with as the decoder says. -/
theorem round_outcome (hi : Intact im) (ha : Rep a st) (hp : im.pending = f.encode ++ t) :
    Round im st f t ((nextFrame a >>= onFrame a).run im) := by
  rcases nextFrame_outcome hi ha hp with ⟨hfr, im', hr, hm⟩ | ⟨hfr, hr⟩ | hr
  · have hpend : im'.pending = t := pending_of_moves (T := tape) hp hm
    rw [run_bind_of_ok hr]
    have hs := hm.same
    rw [← hs.serverSide, ← hs.opts] at hfr
    have hround := onFrame_round (hm.intact hi) ha hfr
    rw [hpend] at hround
    exact hround.of_moves hm
  · exact .closed (fun hf => hfr hf.framed) hr.bind
  · exact .cancelled hr.bind

/-! ### A receive call -/

/-- Where the peer has nothing more to give, the next frame is not read. -/
theorem nextFrame_dry (hp : im.pending = []) : ∃ e im', (nextFrame a).run im = .error e im' ∧
      ((e = .io .waits ∧ im.stream.ending = .silent ∧ Moves im [] im') ∨
        (im.stream.ending ≠ .silent ∧ im'.isOpen = false) ∨ (Cancels im e ∧ Moves im [] im')) := by
  obtain ⟨e, im', hr, hm, he⟩ := exactRead_dry one_pos hp
  rw [nextFrame, run_bind, run_get]
  dsimp only
  rw [run_catch, readFrame, run_bind_error.2 (.inl hr)]
  rcases he with he | ⟨rfl, hx⟩
  · cases he with
    | closed h | reset h => exact ⟨_, _, rfl, .inr (.inl ⟨by simp [h], rfl⟩)⟩
    | silent h => exact ⟨_, _, rfl, .inl ⟨rfl, h, hm⟩⟩
  · exact ⟨_, _, rfl, .inr (.inr ⟨⟨rfl, hx⟩, hm⟩)⟩

/-- The bytes of a sequence of frames. -/
def wire (fs : List RawFrame) : Bytes := fs.flatMap encode

/-- The outcomes of a receive call that has `st` of a message, where the frames `fs` are next on
the wire and nothing follows them. -/
inductive Received (im : Impl) (st : Option Fragments) (fs : List RawFrame) :
    Result WsFault Impl WsMessage → Prop
  /-- a message, completed by the last frame of `fs₁` -/
  | message {m : WsMessage} {im' : Impl} {fs₂ : List RawFrame}
      (hd : decode im.serverSide im.opts.maxMessageBytes st fs =
        ⟨m :: (decode im.serverSide im.opts.maxMessageBytes none fs₂).messages,
          (decode im.serverSide im.opts.maxMessageBytes none fs₂).failed⟩)
      (hlen : fs₂.length < fs.length) (hp : im'.pending = wire fs₂) (hi : Intact im')
      (hs : Same im im') : Received im st fs (.ok m im')
  /-- the decoder has failed too -/
  | closed {r : Result WsFault Impl WsMessage}
      (hd : decode im.serverSide im.opts.maxMessageBytes st fs = ⟨[], true⟩) (h : EndsClosed im r) :
      Received im st fs r
  /-- all frames were taken, and the peer has nothing more to give -/
  | dry {e : WsFault} {im' : Impl}
      (hd : decode im.serverSide im.opts.maxMessageBytes st fs = ⟨[], false⟩)
      (h : (e = .io .waits ∧ im.stream.ending = .silent ∧ Intact im') ∨
        (im.stream.ending ≠ .silent ∧ im'.isOpen = false)) : Received im st fs (.error e im')
  | broken {e : WsFault} {im' : Impl} (hacc : im.stream.accepts = false) (ho : im'.isOpen = false) :
      Received im st fs (.error e im')
  | cancelled {im' : Impl} (hx : true ∈ im.cancels) (hs : Same im im') (hi : Intact im') :
      Received im st fs (.error .cancelled im')

variable {fs : List RawFrame}

/-- The call goes on after a frame that completes nothing. -/
theorem Received.of_round {st' : Option Fragments} {r : Result WsFault Impl WsMessage}
    (h : Received im' st' fs r) (hs : Same im im')
    (hf : Fine im.serverSide im.opts.maxMessageBytes st f) (ha : advance st f = (st', none)) :
    Received im st (f :: fs) r := by
  have hd : decode im.serverSide im.opts.maxMessageBytes st (f :: fs) =
      decode im'.serverSide im'.opts.maxMessageBytes st' fs := by
    rw [decode, if_pos hf, ha, hs.serverSide, hs.opts]
    rfl
  cases h with
  | message hd' hlen hp hi hs' =>
    rw [← hd, hs.serverSide, hs.opts] at hd'
    exact .message hd' (lt_succ_of_lt hlen) hp hi (hs.trans hs')
  | closed hd' h => exact .closed (hd.trans hd') (h.of_same hs)
  | dry hd' h =>
    rw [hs.ending] at h
    exact .dry (hd.trans hd') h
  | broken hacc ho => exact .broken (hs.accepts.symm.trans hacc) ho
  | cancelled hx hs' hi => exact .cancelled (hs.cancels.subset hx) (hs.trans hs') hi

theorem receiveLoop_received {fuel : ℕ} (hi : Intact im) (ha : Rep a st) (hp : im.pending = wire fs)
    (hf : fs.length < fuel) :
    Received im st fs ((receiveLoop fuel a).run im) := by
  induction fs generalizing fuel im a st with
  | nil =>
    obtain ⟨fuel, rfl⟩ := exists_eq_succ_of_ne_zero (ne_of_gt hf)
    obtain ⟨e, im', hr, he⟩ := nextFrame_dry hp
    rw [receiveLoop, run_bind_error.2 (.inl hr)]
    rcases he with ⟨he, hend, hm⟩ | he | ⟨⟨rfl, hx⟩, hm⟩
    · exact .dry rfl (.inl ⟨he, hend, hm.intact hi⟩)
    · exact .dry rfl (.inr he)
    · exact .cancelled hx hm.same (hm.intact hi)
  | cons f fs ih =>
    obtain ⟨fuel, rfl⟩ := exists_eq_succ_of_ne_zero (ne_of_gt (zero_lt_of_lt hf))
    have hround : Round im st f (wire fs) ((nextFrame a >>= onFrame a).run im) :=
      round_outcome hi ha hp
    rw [receiveLoop, ← bind_assoc, run_bind]
    generalize (nextFrame a >>= onFrame a).run im = res at hround
    cases hround with
    | message hf' hadv hp' hi' hs =>
      refine .message ?_ (lt_succ_self _) hp' hi' hs
      rw [decode, if_pos hf', hadv]
      rfl
    | goesOn hf' hadv ha' hp' hi' hs =>
      exact (ih hi' ha' hp' (lt_of_succ_lt_succ hf)).of_round hs hf' hadv
    | closed hf' h =>
      obtain ⟨e, im', rfl, ho, he⟩ := h
      exact .closed (by rw [decode, if_neg hf']) ⟨e, im', rfl, ho, he⟩
    | broken hacc ho => exact .broken hacc ho
    | cancelled h =>
      obtain ⟨e, im', l, ⟨rfl, hx⟩, rfl, hm⟩ := h
      exact .cancelled hx hm.same (hm.intact hi)

theorem RawFrame.encode_ne_nil (f : RawFrame) : f.encode ≠ [] := cons_ne_nil _ _

theorem length_le_wire (fs : List RawFrame) : fs.length ≤ (wire fs).length := by
  induction fs with
  | nil => exact le_rfl
  | cons f fs ih =>
    have := length_pos_of_ne_nil f.encode_ne_nil
    rw [wire, flatMap_cons, length_cons, length_append]
    rw [wire] at ih
    omega

/-- **A receive call follows the decoder**, in any segmentation. -/
theorem receiveImpl_received (hi : Intact im) (hp : im.pending = wire fs) :
    Received im none fs (receiveImpl.run im) := by
  rw [receiveImpl, run_bind, run_get]
  dsimp only
  rw [if_neg (by simp [hi.isOpen])]
  refine receiveLoop_received hi ⟨rfl, rfl⟩ hp (lt_succ_of_le ?_)
  rw [hp]
  exact length_le_wire fs

/-- A closed connection receives nothing. -/
theorem receiveImpl_closed (h : im.isOpen = false) :
    receiveImpl.run im = .error (.ws "receive on closed WsConnection") im := by
  rw [receiveImpl, run_bind, run_get]
  dsimp only
  rw [if_pos (by simp [h])]
  rfl

end Manwe.WebSocket
