import Mathlib
import Manwe.Stream.Interrupted
import Manwe.Soccer.WebSocket

/-!
# Frames on the wire

A frame as RFC 6455 section 5.2 lays it out (`RawFrame`), with the reserved bits, an arbitrary
opcode and an optional mask: what a peer may send, well behaved or not. `readFrame` takes exactly
the encoding of such a frame and returns its content, or refuses it for one of the reasons in
`RawFrame.violation`, **in any segmentation** and unless one of its reads is cancelled.
-/

namespace Manwe.WebSocket

open Http List EStateM Nat Tape

/-! ### The tape of a connection -/

/-- The bytes `l` were taken on the way from `im` to `im'`, and nothing else happened. -/
structure Moves (im : Impl) (l : Bytes) (im' : Impl) : Prop where
  pending : im.pending = l ++ im'.pending
  frame : im' = { im with
    stream := im'.stream, preBuf := im'.preBuf, cancels := im'.cancels }
  ending : im'.stream.ending = im.stream.ending
  accepts : im'.stream.accepts = im.stream.accepts
  sent : im'.stream.sent = im.stream.sent
  cancels : im'.cancels <:+ im.cancels

theorem Moves.refl (im : Impl) : Moves im [] im := ⟨rfl, rfl, rfl, rfl, rfl, suffix_refl _⟩

variable {im : Impl}

theorem Moves.trans {im' im'' : Impl} {l l' : Bytes} (h : Moves im l im') (h' : Moves im' l' im'') :
    Moves im (l ++ l') im'' where
  pending := by rw [h.pending, h'.pending, append_assoc]
  frame := by rw [h'.frame, h.frame]
  ending := h'.ending.trans h.ending
  accepts := h'.accepts.trans h.accepts
  sent := h'.sent.trans h.sent
  cancels := h'.cancels.trans h.cancels

/-- The connection as a state with a tape. -/
def tape : Tape Impl UInt8 where
  pending := Impl.pending
  Moves := Moves
  moves_nil := Moves.refl
  moves_append := Moves.trans
  pending_eq := Moves.pending

/-- A read may be cancelled as long as the environment has a cancellation in store. -/
def Cancels (im : Impl) (e : WsFault) : Prop := e = .cancelled ∧ true ∈ im.cancels

theorem cancels_recede : tape.Recedes Cancels := fun _ _ _ _ hm hx => ⟨hx.1, hm.cancels.subset hx.2⟩

/-- What is met where the peer has nothing more to give. -/
inductive Dry (im : Impl) : WsFault → Prop
  | closed (h : im.stream.ending = .closed) : Dry im (.ws "connection closed mid-read")
  | reset (h : im.stream.ending = .reset) : Dry im (.io (.socket "recv"))
  | silent (h : im.stream.ending = .silent) : Dry im (.io .waits)

/-- The outcomes of a read of the socket: bytes of the stream, a cancellation, or its end. -/
inductive Got (n : ℕ) (im : Impl) : Result WsFault Impl Bytes → Prop
  | bytes {bs : Bytes} {im' : Impl} (hm : Moves im bs im') (hb : bs ≠ []) (hn : bs.length ≤ n) :
      Got n im (.ok bs im')
  | cancelled {e : WsFault} {im' : Impl} (hm : Moves im [] im') (hx : Cancels im e) :
      Got n im (.error e im')
  | ended {im' : Impl} (hm : Moves im [] im') (hp : im.pending = [])
      (he : im.stream.ending = .closed) : Got n im (.ok [] im')
  | dry {e : WsFault} {im' : Impl} (hm : Moves im [] im') (hp : im.pending = []) (he : Dry im e) :
      Got n im (.error e im')

theorem moves_cancels (im : Impl) (stream : TcpStream) (bs : Bytes) (hb : im.preBuf = [])
    (hr : im.stream.rest = bs ++ stream.rest) (he : stream.ending = im.stream.ending)
    (ha : stream.accepts = im.stream.accepts) (hs : stream.sent = im.stream.sent) :
    Moves im bs { im with cancels := im.cancels.tail, stream } where
  pending := by rw [Impl.pending, Impl.pending, hb, nil_append, nil_append, hr]
  frame := rfl
  ending := he
  accepts := ha
  sent := hs
  cancels := tail_suffix _

variable {n : ℕ} {bs : Bytes} {s s' : TcpStream}

theorem read_length_le (h : s.read n = .ok bs s') : bs.length ≤ n := by
  unfold TcpStream.read at h
  split at h
  · split at h <;> cases h
    exact zero_le n
  · cases h
    rw [length_take]
    omega

theorem read_error {e : Fault} (h : s.read n = .error e s') : s' = s ∧ s.rest = [] ∧
      (s.ending = .reset ∧ e = .socket "recv" ∨ s.ending = .silent ∧ e = .waits) := by
  unfold TcpStream.read at h
  split at h
  · next hr =>
    split at h <;> cases h
    · exact ⟨rfl, hr, .inl ⟨‹_›, rfl⟩⟩
    · exact ⟨rfl, hr, .inr ⟨‹_›, rfl⟩⟩
  · cases h

theorem read_outcome (hn : 0 < n) (hb : im.preBuf = []) : Got n im ((read n).run im) := by
  have hmoves := moves_cancels im im.stream [] hb rfl rfl rfl rfl
  have hpending : im.stream.rest = [] → im.pending = [] := by
    intro h
    rw [Impl.pending, hb, h, append_nil]
  unfold read run
  dsimp only
  split
  · next hc =>
    refine .cancelled hmoves ⟨rfl, ?_⟩
    cases h : im.cancels with
    | nil => simp [h] at hc
    | cons =>
      rw [h, headD_cons] at hc
      exact hc ▸ mem_cons_self
  · cases hres : im.stream.read n with
    | ok bs stream =>
      obtain ⟨hrest, -, hend, hacc, hsent⟩ := TcpStream.read_ok hres
      obtain rfl | hbs := eq_or_ne bs []
      · obtain ⟨rfl, hr, he⟩ := TcpStream.read_nil hn hres
        exact .ended hmoves (hpending hr) he
      · exact .bytes (moves_cancels im stream bs hb hrest hend hacc hsent) hbs (read_length_le hres)
    | error =>
      obtain ⟨rfl, hr, ⟨he, rfl⟩ | ⟨he, rfl⟩⟩ := read_error hres
      · exact .dry hmoves (hpending hr) (.reset he)
      · exact .dry hmoves (hpending hr) (.silent he)

/-! ### Exact reads -/

theorem moves_preBuf {a b : Bytes} (h : im.preBuf = a ++ b) :
    Moves im a { im with preBuf := im.preBuf.drop a.length } where
  pending := by simp only [Impl.pending, h, drop_left, append_assoc]
  frame := rfl
  ending := rfl
  accepts := rfl
  sent := rfl
  cancels := suffix_refl _

/-- A prefix of the tape no longer than `l` is a prefix of `l`. -/
theorem exists_append_of_le {l t a b : Bytes} (h : l ++ t = a ++ b) (hl : a.length ≤ l.length) :
    ∃ l', l = a ++ l' := by
  have hpre : a <+: l := prefix_of_prefix_length_le ⟨b, h.symm⟩ ⟨t, rfl⟩ hl
  obtain ⟨l', rfl⟩ := hpre
  exact ⟨l', rfl⟩

theorem takes_exactReadLoop {fuel : ℕ} {buf : Bytes} (hn : n = buf.length + bs.length)
    (hf : bs.length ≤ fuel) : tape.Takes Cancels (exactReadLoop n fuel buf) bs (buf ++ bs) := by
  induction fuel generalizing buf bs with
  | zero =>
    obtain rfl := length_eq_zero_iff.1 (le_zero.1 hf)
    rw [append_nil]
    exact .pure
  | succ fuel ih =>
    rw [exactReadLoop]
    split
    · next hlt =>
      -- a round takes a nonempty part of `bs`, of the handshake's bytes or off the socket
      have hround : ∀ {im im' : Impl} {a t : Bytes}, im.pending = bs ++ t → Moves im a im' →
          a ≠ [] → a.length ≤ bs.length →
          (∃ im'', (exactReadLoop n fuel (buf ++ a)).run im' = .ok (buf ++ bs) im'' ∧
            Moves im bs im'') ∨
          tape.Interrupted Cancels im ((exactReadLoop n fuel (buf ++ a)).run im') := by
        intro im im' a t hp hm ha hle
        obtain ⟨bs', rfl⟩ := exists_append_of_le (hp.symm.trans hm.pending) hle
        have hpos := length_pos_of_ne_nil ha
        rw [length_append] at hn hf
        have hrest : tape.Takes Cancels (exactReadLoop n fuel (buf ++ a)) bs' (buf ++ a ++ bs') :=
          ih (by rw [length_append]; omega) (by omega)
        rw [← append_assoc buf]
        exact hrest.after cancels_recede hp hm
      intro im t hp
      rw [run_bind, run_get]
      dsimp only
      split
      · next hpre =>
        have hm := moves_preBuf (take_append_drop (n - buf.length) im.preBuf).symm
        refine hround hp hm ?_ ?_
        · rw [Ne, take_eq_nil_iff]
          rintro (h | h)
          · omega
          · exact hpre h
        · rw [length_take]
          omega
      · next hpre =>
        have hout := read_outcome (show 0 < n - buf.length by omega) (not_not.1 hpre)
        rw [run_bind]
        generalize (read (n - buf.length)).run im = res at hout ⊢
        cases hout with
        | bytes hm hb =>
          dsimp only
          rw [if_neg hb]
          exact hround hp hm hb (by omega)
        | cancelled hm hx => exact .inr ⟨_, _, _, hx, rfl, hm⟩
        | ended hm hnil | dry hm hnil =>
          rw [show tape.pending im = [] from hnil] at hp
          have := congrArg length hp
          rw [length_append, length_nil] at this
          omega
    · next hge =>
      obtain rfl : bs = [] := length_eq_zero_iff.1 (by omega)
      rw [append_nil]
      exact .pure

/-- **The bytes that are next are read**, in any segmentation. -/
theorem takes_exactRead (bs : Bytes) : tape.Takes Cancels (exactRead bs.length) bs bs :=
  takes_exactReadLoop (zero_add _).symm le_rfl

/-- At the end of the stream nothing is read. -/
theorem exactRead_dry (hn : 0 < n) (hp : im.pending = []) :
    ∃ e im', (exactRead n).run im = .error e im' ∧ Moves im [] im' ∧ (Dry im e ∨ Cancels im e) := by
  obtain ⟨k, rfl⟩ := exists_eq_succ_of_ne_zero hn.ne'
  have hb : im.preBuf = [] := (append_eq_nil_iff.1 hp).1
  have hout := read_outcome hn hb
  have hlt : ([] : Bytes).length < k.succ := hn
  rw [exactRead, exactReadLoop, if_pos hlt, run_bind, run_get]
  dsimp only
  rw [if_neg (not_not.2 hb), run_bind]
  have hlen : k.succ - ([] : Bytes).length = k.succ := rfl
  generalize (read k.succ).run im = res at hout ⊢
  cases hout with
  | bytes hm hb =>
    have := hm.pending
    rw [hp] at this
    exact absurd (append_eq_nil_iff.1 this.symm).1 hb
  | cancelled hm hx => exact ⟨_, _, rfl, hm, .inr hx⟩
  | ended hm _ he => exact ⟨_, _, rfl, hm, .inl (.closed he)⟩
  | dry hm _ he => exact ⟨_, _, rfl, hm, .inl he⟩

/-! ### Numbers and masks -/

@[simp] theorem length_beBytes (k n : ℕ) : (beBytes k n).length = k := by
  induction k with
  | zero => rfl
  | succ k ih => rw [beBytes, length_cons, ih]

theorem foldl_beBytes (k n acc : ℕ) :
    (beBytes k n).foldl (fun n b => n * 256 + b.toNat) acc = acc * 256 ^ k + n % 256 ^ k := by
  induction k generalizing acc with
  | zero => simp [beBytes, mod_one]
  | succ k ih =>
    have hb : (UInt8.ofNat (n / 256 ^ k % 256)).toNat = n / 256 ^ k % 256 :=
      toNat_ofNat_of_lt (mod_lt _ (by decide))
    have hmod : n % 256 ^ (k + 1) = n % 256 ^ k + 256 ^ k * (n / 256 ^ k % 256) := by
      rw [pow_succ, mod_mul]
    rw [beBytes, foldl_cons, ih, hb, hmod, pow_succ]
    ring

/-- Numbers that fit are read back. -/
theorem bigEndian_beBytes {k : ℕ} (h : n < 256 ^ k) : bigEndian (beBytes k n) = n := by
  rw [bigEndian, foldl_beBytes, zero_mul, zero_add, mod_eq_of_lt h]

@[simp] theorem length_applyMask (key : Option MaskKey) (payload : Bytes) :
    (applyMask key payload).length = payload.length := by
  cases key with
  | none => rfl
  | some => exact length_mapIdx

theorem xor_xor_self : ∀ b c : UInt8, (b ^^^ c) ^^^ c = b := by
  intro b c
  rw [UInt8.xor_assoc, UInt8.xor_self, UInt8.xor_zero]

/-- Unmasking undoes masking. -/
theorem applyMask_applyMask (key : Option MaskKey) (payload : Bytes) :
    applyMask key (applyMask key payload) = payload := by
  cases key with
  | none => rfl
  | some key =>
    refine ext_getElem? fun i => ?_
    simp only [applyMask, getElem?_mapIdx, Option.map_map]
    cases payload[i]? with
    | none => rfl
    | some b => exact congrArg some (xor_xor_self b (key.byte i))

/-! ### Frames -/

instance neZero_eight : NeZero 8 := ⟨by decide⟩

instance neZero_sixteen : NeZero 16 := ⟨by decide⟩

/-- A frame as a peer may send it. -/
structure RawFrame where
  fin : Bool
  rsv : Fin 8
  opcode : Fin 16
  mask : Option MaskKey
  payload : Bytes
  payload_lt : payload.length < 2 ^ 63

namespace RawFrame

def opcodeByte (opcode : Fin 16) : UInt8 := UInt8.ofNat opcode

def firstByte (fin : Bool) (rsv : Fin 8) (opcode : Fin 16) : UInt8 :=
  UInt8.ofNat ((if fin then 128 else 0) + 16 * rsv + opcode)

def secondByte (masked : Bool) (len : Fin 128) : UInt8 :=
  UInt8.ofNat ((if masked then 128 else 0) + len)

/-- The seven bits of the length, and the bytes that extend them. -/
def lengthField (n : ℕ) : Fin 128 × Bytes :=
  if h : n < 126 then (⟨n, by omega⟩, [])
  else if n ≤ 0xFFFF then (126, beBytes 2 n)
  else (127, beBytes 8 n)

def maskBytes : Option MaskKey → Bytes
  | none => []
  | some key => [key.b0, key.b1, key.b2, key.b3]

/-- RFC 6455 section 5.2, with the shortest length that fits. -/
def encode (f : RawFrame) : Bytes := [firstByte f.fin f.rsv f.opcode] ++
    ([secondByte f.mask.isSome (lengthField f.payload.length).1] ++
      ((lengthField f.payload.length).2 ++ (maskBytes f.mask ++ applyMask f.mask f.payload)))

/-- What `readFrame` makes of the frame. -/
def verdict (isServer : Bool) (maxMessage assembledBytes : ℕ) (f : RawFrame) :
    Except WsFault WsFrame :=
  if f.rsv != 0 then .error (.frame 1002 "RSV bits set; no extensions negotiated")
  else if f.mask.isSome != isServer then
    .error (.frame 1002 (if isServer then "protocol violation: unmasked frame received from client"
      else "protocol violation: masked frame received from server"))
  else do
    checkLength maxMessage assembledBytes (opcodeByte f.opcode) f.fin f.payload.length
    return ⟨opcodeByte f.opcode, f.fin, f.payload⟩

theorem firstByte_fin : ∀ fin rsv opcode, (firstByte fin rsv opcode &&& 0x80 != 0) = fin := by
  decide +kernel

theorem firstByte_rsv :
    ∀ fin rsv opcode, (firstByte fin rsv opcode &&& 0x70 != 0) = (rsv != 0) := by
  decide +kernel

theorem firstByte_opcode :
    ∀ fin rsv opcode, firstByte fin rsv opcode &&& 0x0F = opcodeByte opcode := by
  decide +kernel

theorem secondByte_mask : ∀ masked len, (secondByte masked len &&& 0x80 != 0) = masked := by
  decide +kernel

theorem secondByte_len : ∀ masked len, (secondByte masked len &&& 0x7F).toNat = len := by
  decide +kernel

end RawFrame

open RawFrame

theorem takes_readLength (hn : n < 2 ^ 63) :
    tape.Takes Cancels (readLength (lengthField n).1) (lengthField n).2 n := by
  unfold lengthField readLength
  split
  · next h =>
    dsimp only
    rw [if_neg (by omega), if_neg (by omega)]
    exact .pure
  · next h =>
    split
    · next h' =>
      have hread := takes_exactRead (beBytes 2 n)
      refine hread.bind_last cancels_recede ?_
      rw [bigEndian_beBytes (by omega), if_neg (by omega)]
      exact .pure
    · next h' =>
      have hread := takes_exactRead (beBytes 8 n)
      refine hread.bind_last cancels_recede ?_
      rw [bigEndian_beBytes (by omega), if_neg (by omega)]
      exact .pure

theorem takes_readMask (key : Option MaskKey) :
    tape.Takes Cancels (readMask key.isSome) (maskBytes key) key := by
  cases key with
  | none => exact .pure
  | some key =>
    exact (takes_exactRead [key.b0, key.b1, key.b2, key.b3]).bind_last cancels_recede .pure

theorem takes_readPayload {total fuel : ℕ} {payload : Bytes}
    (hn : total = payload.length + bs.length) (hf : bs.length ≤ fuel) :
    tape.Takes Cancels (readPayload total fuel payload) bs (payload ++ bs) := by
  induction fuel generalizing payload bs with
  | zero =>
    obtain rfl := length_eq_zero_iff.1 (le_zero.1 hf)
    rw [append_nil]
    exact .pure
  | succ fuel ih =>
    rw [readPayload]
    split
    · next hlt =>
      have hpos : 0 < min readChunk (total - payload.length) := by
        rw [readChunk]
        omega
      have hle : min readChunk (total - payload.length) ≤ bs.length := by omega
      generalize min readChunk (total - payload.length) = k at hpos hle
      have hpiece := takes_exactRead (bs.take k)
      rw [length_take, min_eq_left hle] at hpiece
      have hrest : tape.Takes Cancels (readPayload total fuel (payload ++ bs.take k)) (bs.drop k)
          (payload ++ bs.take k ++ bs.drop k) :=
        ih (by rw [length_append, length_take, length_drop]; omega) (by rw [length_drop]; omega)
      have hall := hpiece.bind cancels_recede
        (f := fun piece => readPayload total fuel (payload ++ piece)) hrest
      rwa [append_assoc, take_append_drop] at hall
    · next hge =>
      obtain rfl : bs = [] := length_eq_zero_iff.1 (by omega)
      rw [append_nil]
      exact .pure

variable {isServer : Bool} {maxMessage assembledBytes : ℕ} {f : RawFrame}

theorem takes_readFrame {w : WsFrame} (h : f.verdict isServer maxMessage assembledBytes = .ok w) :
    tape.Takes Cancels (readFrame isServer maxMessage assembledBytes) f.encode w := by
  refine (takes_exactRead [_]).bind cancels_recede ((takes_exactRead [_]).bind cancels_recede ?_)
  simp only [headD_cons, readRest, firstByte_fin, firstByte_rsv, firstByte_opcode,
    secondByte_mask, secondByte_len]
  unfold verdict at h
  split_ifs at h ⊢
  refine (takes_readLength f.payload_lt).bind cancels_recede ?_
  cases hcheck : checkLength maxMessage assembledBytes (opcodeByte f.opcode) f.fin
    f.payload.length with
  | error =>
    rw [hcheck] at h
    cases h
  | ok =>
    rw [hcheck] at h
    cases h
    refine Takes.bind (l := []) cancels_recede .pure ?_
    refine (takes_readMask f.mask).bind cancels_recede ?_
    have hpay : tape.Takes Cancels (readPayload f.payload.length f.payload.length [])
        (applyMask f.mask f.payload) ([] ++ applyMask f.mask f.payload) :=
      takes_readPayload (by simp) (by simp)
    refine hpay.bind_last cancels_recede ?_
    rw [nil_append, applyMask_applyMask]
    exact .pure

theorem refuses_readFrame {e : WsFault}
    (h : f.verdict isServer maxMessage assembledBytes = .error e) :
    tape.Refuses Cancels (readFrame isServer maxMessage assembledBytes) f.encode e := by
  refine (takes_exactRead [_]).bind_refuses cancels_recede
    ((takes_exactRead [_]).bind_refuses cancels_recede ?_)
  simp only [headD_cons, readRest, firstByte_fin, firstByte_rsv, firstByte_opcode,
    secondByte_mask, secondByte_len]
  unfold verdict at h
  split_ifs at h ⊢
  · cases h
    exact Refuses.throw.append
  · cases h
    exact Refuses.throw.append
  · cases h
    exact Refuses.throw.append
  · refine (takes_readLength f.payload_lt).bind_refuses cancels_recede ?_
    cases hcheck : checkLength maxMessage assembledBytes (opcodeByte f.opcode) f.fin
      f.payload.length with
    | error =>
      rw [hcheck] at h
      cases h
      exact Refuses.append (l := []) (Refuses.bind .throw)
    | ok =>
      rw [hcheck] at h
      cases h

end Manwe.WebSocket
