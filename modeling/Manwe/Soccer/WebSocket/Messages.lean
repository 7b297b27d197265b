import Manwe.Soccer.WebSocket.Receive

/-!
# Successive receive calls

`receiveAll` calls `receive()` again and again until a call does not return a message. Where the
socket delivers and the writes go through, it returns **the messages of the reference decoder**, in
any segmentation of any sequence of frames, and leaves the connection open exactly if the decoder
has not failed. A message that the peer sends in fragments comes out as one.
-/

namespace Manwe.WebSocket

open Http List EStateM RawFrame

/-- Receive until a call throws or waits: the messages, and the connection after the last call. -/
def receiveAll : ℕ → Impl → List WsMessage × Impl
  | 0, im => ([], im)
  | n + 1, im =>
    match receiveImpl.run im with
    | .ok m im' => (m :: (receiveAll n im').1, (receiveAll n im').2)
    | .error _ im' => ([], im')

/-- Nothing disturbs the connection: reads deliver and are not cancelled, writes go through, and the
peer stays. -/
structure Undisturbed (im : Impl) : Prop where
  cancels : im.cancels = []
  accepts : im.stream.accepts = true
  ending : im.stream.ending = .silent

variable {im : Impl}

theorem Undisturbed.same {im' : Impl} (h : Undisturbed im) (hs : Same im im') :
    Undisturbed im' where
  cancels := suffix_nil.1 (h.cancels ▸ hs.cancels)
  accepts := hs.accepts.trans h.accepts
  ending := hs.ending.trans h.ending

theorem receiveAll_closed (h : im.isOpen = false) (n : ℕ) : receiveAll n im = ([], im) := by
  cases n with
  | zero => rfl
  | succ => rw [receiveAll, receiveImpl_closed h]

variable {fs : List RawFrame}

theorem receiveAll_decode {n : ℕ} (hi : Intact im) (hu : Undisturbed im) (hp : im.pending = wire fs)
    (hn : fs.length < n) :
    (receiveAll n im).1 = (decode im.serverSide im.opts.maxMessageBytes none fs).messages ∧
    (receiveAll n im).2.isOpen =
      !(decode im.serverSide im.opts.maxMessageBytes none fs).failed := by
  induction n generalizing im fs with
  | zero => exact absurd hn (Nat.not_lt_zero _)
  | succ n ih =>
    have hcall := receiveImpl_received hi hp
    rw [receiveAll]
    generalize receiveImpl.run im = res at hcall
    cases hcall with
    | message hd hlen hp' hi' hs =>
      obtain ⟨hmsgs, hopen⟩ := ih hi' (hu.same hs) hp' (by omega)
      rw [hs.serverSide, hs.opts] at hmsgs hopen
      rw [hd]
      exact ⟨congrArg _ hmsgs, hopen⟩
    | closed hd h =>
      obtain ⟨e, im', rfl, ho, -⟩ := h
      rw [hd]
      exact ⟨rfl, ho⟩
    | dry hd h =>
      rw [hd]
      rcases h with ⟨-, -, hi'⟩ | ⟨hend, -⟩
      · exact ⟨rfl, hi'.isOpen⟩
      · exact absurd hu.ending hend
    | broken hacc => exact absurd (hu.accepts.symm.trans hacc) (by decide)
    | cancelled hx => exact absurd (hu.cancels ▸ hx) not_mem_nil

/-! ### Fragments -/

theorem firstByte_eq : ∀ (fin : Bool) (o : Fin 16),
    ((if fin then 0x80 else 0) ||| (opcodeByte o &&& 0x0F)) =
      firstByte fin 0 o := by
  decide +kernel

theorem secondByte_eq : ∀ (masked : Bool) (len : Fin 128),
    ((if masked then 0x80 else 0) ||| UInt8.ofNat len) = secondByte masked len := by
  decide +kernel

/-- **What `writeFrame` writes is a frame**, with no reserved bit. -/
theorem frameBytes_eq_encode (f : RawFrame) (h : f.rsv = 0) :
    frameBytes (opcodeByte f.opcode) f.payload f.mask f.fin = f.encode := by
  have hlen : (if f.payload.length < 126 then
        [(if f.mask.isSome then (0x80 : UInt8) else 0) ||| UInt8.ofNat f.payload.length]
      else if f.payload.length ≤ 0xFFFF then
        ((if f.mask.isSome then 0x80 else 0) ||| 126) :: beBytes 2 f.payload.length
      else ((if f.mask.isSome then 0x80 else 0) ||| 127) :: beBytes 8 f.payload.length) =
      secondByte f.mask.isSome (lengthField f.payload.length).1 ::
        (lengthField f.payload.length).2 := by
    unfold lengthField
    split_ifs <;> rw [← secondByte_eq] <;> simp [*]
  unfold frameBytes
  dsimp only
  rw [encode, h, ← firstByte_eq, hlen]
  cases f.mask with
  | none | some => simp [maskBytes]

/-- A message sent with `sendFrame`: the first fragment says what it is, the last is final. -/
def sendFragments : FragmentKind → List Bytes → Prog Unit
  | _, [] => return ()
  | kind, [part] => sendFrame kind part true
  | kind, part :: part' :: parts => do
    sendFrame kind part false
    sendFragments .continuation (part' :: parts)

def FragmentKind.code : FragmentKind → Fin 16
  | .text => 1
  | .binary => 2
  | .continuation => 0

/-- The frames of a message in fragments. -/
inductive Frags (masked : Bool) : FragmentKind → List Bytes → List RawFrame → Prop
  | last {kind : FragmentKind} {f : RawFrame} (hrsv : f.rsv = 0) (hmask : f.mask.isSome = masked)
      (hop : f.opcode = kind.code) (hfin : f.fin = true) : Frags masked kind [f.payload] [f]
  | more {kind : FragmentKind} {f : RawFrame} {part : Bytes} {parts : List Bytes}
      {fs : List RawFrame} (hrsv : f.rsv = 0) (hmask : f.mask.isSome = masked)
      (hop : f.opcode = kind.code) (hfin : f.fin = false)
      (h : Frags masked .continuation (part :: parts) fs) :
      Frags masked kind (f.payload :: part :: parts) (f :: fs)

/-- The connection after a frame was written. -/
def Impl.wrote (im : Impl) (bs : Bytes) : Impl :=
  { im with masks := im.masks.tail, stream := im.stream.push bs }

/-- The mask of the next frame. -/
def Impl.nextMask (im : Impl) : Option MaskKey :=
  if im.serverSide then none else some (im.masks.headD ⟨0, 0, 0, 0⟩)

theorem sendFrame_run (kind : FragmentKind) (payload : Bytes) (isFinal : Bool) (hi : Intact im)
    (hacc : im.stream.accepts = true) :
    (sendFrame kind payload isFinal).run im =
      .ok () (im.wrote (frameBytes kind.opcode payload im.nextMask isFinal)) := by
  rw [sendFrame, sendDataImpl, run_bind, run_get]
  dsimp only
  rw [if_neg (by simp [hi.isOpen]), sendLocked, run_bind, run_get]
  dsimp only
  rw [if_neg (by simp [hi.writeBroken]), Tape.run_catch]
  unfold writeFrame TcpStream.write run
  dsimp only
  rw [if_pos hacc]
  rfl

/-- `sendFrame` on a connection in order puts one frame on the wire. -/
theorem sendFrame_frame (kind : FragmentKind) {payload : Bytes} (isFinal : Bool)
    (hl : payload.length < 2 ^ 63) (hi : Intact im) (hacc : im.stream.accepts = true) :
    ∃ (f : RawFrame) (im' : Impl), f.rsv = 0 ∧ f.mask.isSome = !im.serverSide ∧
      f.opcode = kind.code ∧ f.fin = isFinal ∧ f.payload = payload ∧
      (sendFrame kind payload isFinal).run im = .ok () im' ∧
      im'.stream.sent = im.stream.sent ++ f.encode ∧ Intact im' ∧ im'.stream.accepts = true ∧
      im'.serverSide = im.serverSide := by
  have hop : kind.opcode = opcodeByte kind.code := by cases kind <;> rfl
  have hmask : im.nextMask.isSome = !im.serverSide := by
    unfold Impl.nextMask
    cases im.serverSide <;> rfl
  refine ⟨⟨isFinal, 0, kind.code, im.nextMask, payload, hl⟩, _, rfl, hmask, rfl, rfl, rfl,
    sendFrame_run kind payload isFinal hi hacc, ?_, ⟨hi.isOpen, hi.writeBroken⟩, hacc, rfl⟩
  rw [← frameBytes_eq_encode _ rfl, ← hop]
  rfl

variable {parts : List Bytes}

/-- The fragments of a message are on the wire one after the other. -/
theorem sendFragments_frags {kind : FragmentKind} (hne : parts ≠ [])
    (hl : ∀ p ∈ parts, p.length < 2 ^ 63) (hi : Intact im) (hacc : im.stream.accepts = true) :
    ∃ fs im', (sendFragments kind parts).run im = .ok () im' ∧
      im'.stream.sent = im.stream.sent ++ wire fs ∧ Frags (!im.serverSide) kind parts fs := by
  induction parts generalizing kind im with
  | nil => exact absurd rfl hne
  | cons part parts ih =>
    cases parts with
    | nil =>
      obtain ⟨f, im', hrsv, hmask, hop, hfin, rfl, hr, hsent, -⟩ :=
        sendFrame_frame kind true (hl part mem_cons_self) hi hacc
      refine ⟨[f], im', hr, ?_, .last hrsv hmask hop hfin⟩
      rw [hsent, wire, flatMap_cons, flatMap_nil, append_nil]
    | cons part' parts =>
      obtain ⟨f, im₁, hrsv, hmask, hop, hfin, rfl, hr, hsent, hi₁, hacc₁, hside⟩ :=
        sendFrame_frame kind false (hl part mem_cons_self) hi hacc
      obtain ⟨fs, im', hr', hsent', hfs⟩ : ∃ fs im',
          (sendFragments .continuation (part' :: parts)).run im₁ = .ok () im' ∧
          im'.stream.sent = im₁.stream.sent ++ wire fs ∧
          Frags (!im₁.serverSide) .continuation (part' :: parts) fs :=
        ih (cons_ne_nil _ _) (fun p hp => hl p (mem_cons_of_mem _ hp)) hi₁ hacc₁
      rw [hside] at hfs
      refine ⟨f :: fs, im', ?_, ?_, .more hrsv hmask hop hfin hfs⟩
      · rw [sendFragments, Tape.run_bind_of_ok hr, hr']
      · rw [hsent', hsent, wire, wire, flatMap_cons, append_assoc]

variable {isServer : Bool} {maxMessage : ℕ} {p : Fragments}

/-- A continuation that is fine. -/
theorem fine_continuation {f : RawFrame} (hrsv : f.rsv = 0) (hmask : f.mask.isSome = isServer)
    (hop : f.opcode = 0) (hsize : maxMessage ≠ 0 → (p.payload ++ f.payload).length ≤ maxMessage)
    (hutf8 : f.fin = true → p.type = .text → IsUtf8 (p.payload ++ f.payload))
    (hempty : f.payload = [] → f.fin = false → p.empties < 32) :
    Fine isServer maxMessage (some p) f where
  rsv := hrsv
  mask := hmask
  known := by simp [Known, hop]
  notClose := by simp [hop]
  control := fun h => by rw [Control, hop] at h; exact absurd h (by decide)
  orphan := fun _ => nofun
  nested := fun h => by rcases h with h | h <;> exact absurd (hop.symm.trans h) (by decide)
  size := fun _ => hsize
  utf8 := fun _ => hutf8
  empty := fun _ => hempty

/-- No 33 empty fragments in a row are among the first ones, nor 33 with the `k` before them. -/
def Gapless (k : ℕ) (parts : List Bytes) : Prop :=
  ¬ replicate 33 ([] : Bytes) <:+: replicate k [] ++ parts.dropLast

theorem Gapless.lt {k : ℕ} {part : Bytes} (h : Gapless k ([] :: part :: parts)) : k < 32 := by
  by_contra hk
  refine h ((IsPrefix.isInfix ⟨replicate (k + 1 - 33) [] ++ (part :: parts).dropLast,
    ?_⟩))
  rw [← append_assoc, ← replicate_add, dropLast_cons_cons]
  rw [show 33 + (k + 1 - 33) = k + 1 by omega, replicate_succ', append_assoc]
  rfl

theorem Gapless.tail {k : ℕ} {p part : Bytes} (h : Gapless k (p :: part :: parts)) :
    Gapless (if p = [] then k + 1 else 0) (part :: parts) := by
  split_ifs with hp
  · subst hp
    have hshift : replicate (k + 1) ([] : Bytes) ++ (part :: parts).dropLast =
        replicate k [] ++ [] :: (part :: parts).dropLast := by
      rw [replicate_succ', append_assoc]
      rfl
    rwa [Gapless, hshift]
  · exact fun hin => h (hin.trans (IsSuffix.isInfix ⟨replicate k [] ++ [p], by simp⟩))

/-- The decoder puts the fragments together. -/
theorem decode_frags (h : Frags isServer .continuation parts fs)
    (hsize : maxMessage ≠ 0 → (p.payload ++ parts.flatten).length ≤ maxMessage)
    (hutf8 : p.type = .text → IsUtf8 (p.payload ++ parts.flatten))
    (hgap : Gapless p.empties parts) :
    decode isServer maxMessage (some p) fs = ⟨[⟨p.type, p.payload ++ parts.flatten⟩], false⟩ := by
  generalize hk : FragmentKind.continuation = kind at h
  induction h generalizing p with
  | @last kind f hrsv hmask hop hfin =>
    subst hk
    have hnc : ¬ f.Control := by rw [Control, hop]; decide
    rw [flatten_cons, flatten_nil, append_nil] at hsize hutf8 ⊢
    have hfine := fine_continuation hrsv hmask hop hsize (fun _ => hutf8)
      fun _ h => absurd (hfin.symm.trans h) (by decide)
    rw [decode, if_pos hfine, advance_fin hnc hfin]
    rfl
  | @more kind f part parts fs hrsv hmask hop hfin _ ih =>
    subst hk
    have hnc : ¬ f.Control := by rw [Control, hop]; decide
    rw [flatten_cons, ← append_assoc] at hsize hutf8 ⊢
    have hfine : Fine isServer maxMessage (some p) f := by
      refine fine_continuation hrsv hmask hop (fun h0 => ?_)
        (fun h => absurd (h.symm.trans hfin) (by decide)) fun hnil _ => ?_
      · have := hsize h0
        rw [length_append] at this
        omega
      · rw [hnil] at hgap
        exact hgap.lt
    have hadv := advance_more (some p) hnc (by simp [hfin])
    have hcount : (if f.Continuation ∧ f.payload = [] then empties (some p) + 1 else 0) =
        if f.payload = [] then p.empties + 1 else 0 :=
      if_congr ⟨And.right, fun h => ⟨hop, h⟩⟩ rfl rfl
    rw [hcount] at hadv
    rw [decode, if_pos hfine, hadv]
    rw [ih hsize hutf8 hgap.tail rfl]
    rfl

/-- The kind of the first fragment. -/
def WsMessageType.kind : WsMessageType → FragmentKind
  | .text => .text
  | .binary => .binary

theorem decode_message {type : WsMessageType} (h : Frags isServer type.kind parts fs)
    (hsize : maxMessage ≠ 0 → parts.flatten.length ≤ maxMessage)
    (hutf8 : type = .text → IsUtf8 parts.flatten) (hgap : Gapless 0 parts.tail) :
    decode isServer maxMessage none fs = ⟨[⟨type, parts.flatten⟩], false⟩ := by
  have hbegins : ∀ {f : RawFrame}, f.opcode = type.kind.code →
      f.Begins ∧ ¬ f.Control ∧ ¬ f.Continuation ∧ messageType none f = type := by
    intro f hop
    cases type <;> simp only [Begins, Control, Continuation, messageType,
      hop] <;> decide
  have hfine : ∀ {f : RawFrame}, f.rsv = 0 → f.mask.isSome = isServer →
      f.opcode = type.kind.code → (maxMessage ≠ 0 → f.payload.length ≤ maxMessage) →
      (f.fin = true → type = .text → IsUtf8 f.payload) → Fine isServer maxMessage none f := by
    intro f hrsv hmask hop hsz hu
    obtain ⟨hb, hnc, hncont, htype⟩ := hbegins hop
    exact
      { rsv := hrsv
        mask := hmask
        known := by rcases hb with hb | hb <;> simp [Known, hb]
        notClose := by rcases hb with hb | hb <;> rw [hb] <;> decide
        control := fun h => absurd h hnc
        orphan := fun h => absurd h hncont
        nested := fun _ => rfl
        size := fun _ => hsz
        utf8 := fun _ hfin ht => hu hfin (htype ▸ ht)
        empty := fun h => absurd h hncont }
  cases h with
  | @last _ f hrsv hmask hop hfin =>
    obtain ⟨-, hnc, -, htype⟩ := hbegins hop
    rw [flatten_cons, flatten_nil, append_nil] at hsize hutf8 ⊢
    rw [decode, if_pos (hfine hrsv hmask hop hsize fun _ => hutf8), advance_fin hnc hfin, htype]
    rfl
  | @more _ f part parts fs hrsv hmask hop hfin h =>
    obtain ⟨-, hnc, hncont, htype⟩ := hbegins hop
    rw [flatten_cons] at hsize hutf8 ⊢
    have hf : Fine isServer maxMessage none f := by
      refine hfine hrsv hmask hop (fun h0 => ?_) fun h => absurd (h.symm.trans hfin) (by decide)
      have := hsize h0
      rw [length_append] at this
      omega
    have hadv := advance_more none hnc (by simp [hfin])
    rw [if_neg fun h => hncont h.1, htype] at hadv
    rw [decode, if_pos hf, hadv]
    rw [decode_frags h hsize hutf8 hgap]
    rfl

/-- **Message reassembly is the reference decoder's.** On an undisturbed connection the messages of
successive receive calls are those of the decoder, and the connection is closed, for good, exactly
if the decoder has failed; and what the peer sends with `sendFrame` in fragments is received as one
message. -/
theorem receive_reassembles {im : Impl} (hi : Intact im) (hu : Undisturbed im) :
    (∀ (fs : List RawFrame) (n : ℕ), im.pending = wire fs → fs.length < n →
      (receiveAll n im).1 = (decode im.serverSide im.opts.maxMessageBytes none fs).messages ∧
      (receiveAll n im).2.isOpen =
        !(decode im.serverSide im.opts.maxMessageBytes none fs).failed ∧
      ((decode im.serverSide im.opts.maxMessageBytes none fs).failed = true →
        ∀ k, (receiveAll k (receiveAll n im).2).1 = [])) ∧
    ∀ (type : WsMessageType) (parts : List Bytes) (peer peer' : Impl), Intact peer →
      peer.stream.accepts = true → peer.stream.sent = [] → peer.serverSide = !im.serverSide →
      parts ≠ [] → (∀ p ∈ parts, p.length < 2 ^ 63) →
      (im.opts.maxMessageBytes ≠ 0 → parts.flatten.length ≤ im.opts.maxMessageBytes) →
      (type = .text → IsUtf8 parts.flatten) → Gapless 0 parts.tail →
      (sendFragments type.kind parts).run peer = .ok () peer' →
      im.pending = peer'.stream.sent →
      ∃ im', receiveImpl.run im = .ok ⟨type, parts.flatten⟩ im' := by
  refine ⟨fun fs n hp hn => ?_, ?_⟩
  · obtain ⟨hmsgs, hopen⟩ := receiveAll_decode hi hu hp hn
    refine ⟨hmsgs, hopen, fun hfail k => ?_⟩
    rw [hfail] at hopen
    rw [receiveAll_closed hopen k]
  · intro type parts peer peer' hpeer hacc hsent hside hne hlen hsize hutf8 hgap hrun hp
    obtain ⟨fs, peer'', hr, hs, hfrags⟩ : ∃ fs peer'',
        (sendFragments type.kind parts).run peer = .ok () peer'' ∧
        peer''.stream.sent = peer.stream.sent ++ wire fs ∧
        Frags (!peer.serverSide) type.kind parts fs :=
      sendFragments_frags hne hlen hpeer hacc
    cases hrun.symm.trans hr
    rw [hside, Bool.not_not] at hfrags
    rw [hs, hsent, nil_append] at hp
    have hdec := decode_message hfrags hsize hutf8 hgap
    have hcall := receiveImpl_received hi hp
    generalize receiveImpl.run im = res at hcall ⊢
    cases hcall with
    | @message m im' _ hd =>
      rw [hdec, Decoded.mk.injEq, cons.injEq] at hd
      exact ⟨im', by rw [hd.1.1]⟩
    | closed hd | dry hd => cases hdec.symm.trans hd
    | broken h => exact absurd (hu.accepts.symm.trans h) (by decide)
    | cancelled hx => exact absurd (hu.cancels ▸ hx) not_mem_nil

/-- A client that is sent a text in two fragments around a Ping, and then a Close. -/
def pinged : Impl where
  stream :=
    { rest := wire
        [⟨false, 0, 1, none, bytes "he", by decide⟩, ⟨true, 0, 9, none, [], by decide⟩,
          ⟨true, 0, 0, none, bytes "llo", by decide⟩, ⟨true, 0, 8, none, [], by decide⟩]
      cuts := [1, 2, 3]
      ending := .silent }
  serverSide := false

theorem receive_reassembles_pinged :
    (receiveAll 5 pinged).1 = [⟨.text, bytes "hello"⟩] ∧
      (receiveAll 5 pinged).2.isOpen = false := by
  have hi : Intact pinged := ⟨rfl, rfl⟩
  have hu : Undisturbed pinged := ⟨rfl, rfl, rfl⟩
  have h := (receive_reassembles hi hu).1
    [⟨false, 0, 1, none, bytes "he", by decide⟩, ⟨true, 0, 9, none, [], by decide⟩,
      ⟨true, 0, 0, none, bytes "llo", by decide⟩, ⟨true, 0, 8, none, [], by decide⟩] 5 rfl
    (by decide)
  refine ⟨h.1.trans ?_, h.2.1.trans ?_⟩ <;> decide +kernel

end Manwe.WebSocket
