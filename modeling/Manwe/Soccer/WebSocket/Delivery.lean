import Manwe.Soccer.WebSocket.Messages
import Manwe.Soccer.WebSocket.Writers.Runs

/-!
# From the senders to the peer

The two halves of a connection put together: any number of operations of one endpoint write, in any
interleaving, and the other endpoint reads what is on the wire, in any segmentation. The wire holds
the frames **in the order in which their writers had the lock**, so the peer receives what the
reference decoder makes of that sequence: concurrent writers are as good as one.
-/

namespace Manwe.WebSocket.Writers

open List RawFrame

variable {ι : Type} {serverSide : Bool} {log : List (Outgoing × Bytes)}

/-- The frame `g` on the wire is the outgoing frame `f`. -/
structure Carries (serverSide : Bool) (f : Outgoing) (g : RawFrame) : Prop where
  fin : g.fin = f.isFinal
  rsv : g.rsv = 0
  opcode : opcodeByte g.opcode = f.opcode &&& 0x0F
  mask : g.mask.isSome = !serverSide
  payload : g.payload = f.payload

theorem exists_opcode : ∀ b : UInt8, ∃ o : Fin 16, opcodeByte o = b &&& 0x0F := by decide +kernel

theorem exists_carries {f : Outgoing} (h : f.payload.length < 2 ^ 63) (key : MaskKey) :
    ∃ g, Carries serverSide f g ∧ g.encode = bytesOf serverSide f key := by
  obtain ⟨o, ho⟩ := exists_opcode f.opcode
  refine ⟨⟨f.isFinal, 0, o, if serverSide then none else some key, f.payload, h⟩,
    ⟨rfl, rfl, ho, ?_, rfl⟩, ?_⟩
  · cases serverSide <;> rfl
  · rw [← frameBytes_eq_encode _ rfl, ho]
    unfold bytesOf frameBytes
    rw [UInt8.and_assoc]
    rfl

/-- Whole frames, one after the other, are a sequence of frames on the wire. -/
theorem exists_wire (h : ∀ p ∈ log, p.1.payload.length < 2 ^ 63 ∧
      ∃ key, p.2 = bytesOf serverSide p.1 key) :
    ∃ fs, Forall₂ (Carries serverSide) (log.map Prod.fst) fs ∧
      (log.map Prod.snd).flatten = wire fs := by
  induction log with
  | nil => exact ⟨[], .nil, rfl⟩
  | cons p log ih =>
    obtain ⟨fs, hfs, hwire⟩ := ih fun q hq => h q (mem_cons_of_mem _ hq)
    obtain ⟨hlen, key, hkey⟩ := h p mem_cons_self
    obtain ⟨g, hg, henc⟩ := exists_carries hlen key
    refine ⟨g :: fs, .cons hg hfs, ?_⟩
    rw [map_cons, flatten_cons, hkey, ← henc, hwire]
    rfl

variable [DecidableEq ι] {tr : List (State ι × Event ι)} {s : State ι}

/-- **Concurrent writers are as good as one.** Where nothing is left to write, the peer that reads
the wire receives the messages of the frames in the order in which they were started, and its
connection ends exactly if one of them ends it. -/
theorem writers_received (h : Run (step serverSide) {} tr s) (hleft : ∀ i, (s.ops i).left = none)
    (hwhole : s.writeBroken = false)
    (hlen : ∀ p ∈ logOf (started serverSide) tr, p.1.payload.length < 2 ^ 63) (im : Impl)
    (hi : Intact im) (hu : Undisturbed im) (hside : im.serverSide = !serverSide)
    (hp : im.pending = s.wire) :
    ∃ fs, Forall₂ (Carries serverSide) ((logOf (started serverSide) tr).map Prod.fst) fs ∧
      (receiveAll (fs.length + 1) im).1 =
        (decode (!serverSide) im.opts.maxMessageBytes none fs).messages ∧
      (receiveAll (fs.length + 1) im).2.isOpen =
        !(decode (!serverSide) im.opts.maxMessageBytes none fs).failed := by
  obtain ⟨left, hstump, -, hnil⟩ := (output_run h).wire
  have hflat := hstump.flat
  rw [hnil hleft hwhole, append_nil] at hflat
  obtain ⟨fs, hfs, hwire⟩ := exists_wire fun p hp => ⟨hlen p hp, started_bytes tr hp⟩
  refine ⟨fs, hfs, ?_⟩
  rw [← hside]
  exact receiveAll_decode hi hu (hp.trans (hflat.trans hwire)) (Nat.lt_succ_self _)

/-- Two senders and the answer to a Ping. -/
def crowded (key : MaskKey) : List (Event (Fin 3)) :=
  [.receive 2, .send 0 .text [104] true, .send 1 .binary [7] true, .lock 1, .ping 2 [1],
    .start 1 key, .write 1 2, .write 1 9, .finish 1, .lock 2, .start 2 key, .write 2 9, .finish 2,
    .lock 0, .start 0 key, .write 0 9, .finish 0]

/-- The client that reads it, in small portions. -/
def reading : Impl where
  stream := { rest := [130, 1, 7, 138, 1, 1, 129, 1, 104], cuts := [1, 3], ending := .silent }
  serverSide := false

theorem writers_received_crowded : ∃ tr, ∃ s : State (Fin 3), Run (step true) {} tr s ∧
    reading.pending = s.wire ∧ ∃ fs, fs.length = 3 ∧ (receiveAll (fs.length + 1) reading).1 =
      (decode false reading.opts.maxMessageBytes none fs).messages := by
  have h : Run (step true) ({} : State (Fin 3)) _ _ :=
    .follow (crowded ⟨0, 0, 0, 0⟩) (by decide +kernel)
  obtain ⟨fs, hfs, hrecv, -⟩ := writers_received h (by decide +kernel) (by decide +kernel)
    (by decide +kernel) reading ⟨rfl, rfl⟩ ⟨rfl, rfl, rfl⟩ rfl (by decide +kernel)
  exact ⟨_, _, h, by decide +kernel, fs, hfs.length_eq.symm.trans (by decide +kernel), hrecv⟩

end Manwe.WebSocket.Writers
