import Manwe.Stream.Cut
import Manwe.Stream.Reading

/-!
# Buffered reads over a byte stream

`BufferedReader` (`BufferedReader.h`) gives its callers lines and exact counts over a socket that
delivers its bytes in portions of any size. The socket is a `TcpStream`: what the peer still sends,
how much each coming read brings, and what a read meets after the last byte. **Every segmentation**
of every byte stream is some `TcpStream`, since a read may bring any number of bytes from one to
what the buffer has room for.

A coroutine that never resumes is the fault `waits`: the peer is silent and no byte is left. The
read loops take fuel, which their callers give them in terms of the bytes to come; that it never
runs out is part of what `BufferedReader.Reads` says about them.
-/

namespace Manwe

open List EStateM

/-- A `std::string` or a vector of bytes. -/
abbrev Bytes := List UInt8

/-- The bytes of an ASCII literal. -/
def bytes (s : String) : Bytes := s.toList.map fun c => c.toNat.toUInt8

/-- What a coroutine ends in other than a result. -/
inductive Fault where
  /-- `SocketException`. -/
  | socket (what : String)
  /-- `LineTooLongException`. -/
  | lineTooLong
  /-- `HttpProtocolError`, with the status to answer with. -/
  | protocol (status : ℕ) (what : String)
  /-- `std::runtime_error`. -/
  | runtime (what : String)
  /-- Not an exception: the coroutine stays suspended in a read. -/
  | waits
  /-- Not an exception: a loop of the model has run out of fuel. -/
  | spent
  deriving DecidableEq, Repr

/-- What a read meets after the peer's last byte. -/
inductive Ending where
  /-- The peer has closed its side: reads return 0. -/
  | closed
  /-- The connection broke: reads throw. -/
  | reset
  /-- The peer keeps the connection and sends nothing. -/
  | silent
  deriving DecidableEq, Repr

/-- A connection as the reading side meets it. -/
structure TcpStream where
  /-- What the peer sends and no read has returned. -/
  rest : Bytes
  /-- How many bytes the coming reads bring, if there are as many and they fit. -/
  cuts : List ℕ := []
  ending : Ending := .closed
  /-- Writes succeed. -/
  accepts : Bool := true
  /-- What was written to the peer. -/
  sent : Bytes := []
  /-- `CountingStream::total`: bytes returned by reads. -/
  total : ℕ := 0
  deriving DecidableEq, Repr

namespace TcpStream

/-- `TcpStream::read` into a buffer of `n` bytes. -/
def read (n : ℕ) : EStateM Fault TcpStream Bytes := fun s =>
  match s.rest with
  | [] =>
    match s.ending with
    | .closed => .ok [] s
    | .reset => .error (.socket "recv") s
    | .silent => .error .waits s
  | _ :: _ =>
    let got := s.rest.take (min n (max 1 (s.cuts.headD s.rest.length)))
    .ok got { s with
      rest := s.rest.drop got.length, cuts := s.cuts.tail, total := s.total + got.length }

variable {s s' : TcpStream}

/-- What a read returns is the beginning of what was to come. -/
theorem read_ok {n : ℕ} {bs : Bytes} (h : s.read n = .ok bs s') :
    s.rest = bs ++ s'.rest ∧ s'.total = s.total + bs.length ∧ s'.ending = s.ending ∧
      s'.accepts = s.accepts ∧ s'.sent = s.sent := by
  unfold read at h
  split at h
  · split at h <;> cases h
    exact ⟨rfl, rfl, rfl, rfl, rfl⟩
  · cases h
    exact ⟨(prefix_iff_eq_append.1 ( take_prefix _ _)).symm, rfl, rfl, rfl, rfl⟩

/-- An empty read is the end of the stream. -/
theorem read_nil {n : ℕ} (hn : 0 < n) (h : s.read n = .ok [] s') :
    s' = s ∧ s.rest = [] ∧ s.ending = .closed := by
  unfold read at h
  split at h
  · next hr =>
    split at h <;> cases h
    exact ⟨rfl, hr, ‹_›⟩
  · next x xs hr =>
    obtain ⟨ht, -⟩ := Result.ok.inj h
    rw [hr, take_eq_nil_iff] at ht
    simp only [reduceCtorEq, or_false] at ht
    omega

/-- The stream after a write. -/
def push (s : TcpStream) (bs : Bytes) : TcpStream := { s with sent := s.sent ++ bs }

/-- `TcpStream::write`. -/
def write (bs : Bytes) : EStateM Fault TcpStream Unit := fun s =>
  if s.accepts then .ok () (s.push bs) else .error (.socket "send") s

end TcpStream

theorem eight_kib_pos : 0 < 8 * 1024 := by decide

/-- A `BufferedReader` over a connection; `unread` is the live part of the buffer. -/
structure BufferedReader where
  stream : TcpStream
  unread : Bytes := []
  /-- The buffer's size, default 8 KiB; the constructor refuses 0. -/
  capacity : ℕ := 8 * 1024
  maxLineBytes : ℕ := 64 * 1024
  eofObserved : Bool := false
  capacity_pos : 0 < capacity := by first | exact eight_kib_pos | decide
  /-- End of file is noted when a read has returned nothing. -/
  eof_rest : eofObserved = true → stream.rest = [] ∧ stream.ending = .closed := by decide

namespace BufferedReader

/-- The bytes no caller has been given yet. -/
def pending (r : BufferedReader) : Bytes := r.unread ++ r.stream.rest

/-- `BufferedReader::eof`. -/
def eof (r : BufferedReader) : Bool := r.eofObserved && r.unread.isEmpty

/-- Advance `readPos`. -/
def take (r : BufferedReader) (n : ℕ) : BufferedReader := { r with unread := r.unread.drop n }

/-- A write to the reader's stream, `raw()->write`. -/
def write (bs : Bytes) : EStateM Fault BufferedReader Unit := fun r =>
  if r.stream.accepts then .ok () { r with stream := r.stream.push bs }
  else .error (.socket "send") r

variable {r r' : BufferedReader} {bs : Bytes}

/-- What a write does if it returns. -/
theorem write_ok (h : (write bs).run r = .ok () r') :
    r.stream.accepts = true ∧ r' = { r with stream := r.stream.push bs } := by
  unfold write run at h
  dsimp only at h
  split at h
  · next hacc =>
    cases h
    exact ⟨hacc, rfl⟩
  · cases h

theorem run_write (bs : Bytes) (h : r.stream.accepts = true) :
    (write bs).run r = .ok () { r with stream := r.stream.push bs } := by
  unfold write run
  dsimp only
  rw [if_pos h]

theorem eof_of_read_cons {n : ℕ} {s' : TcpStream} (hb : bs ≠ []) (h : r.stream.read n = .ok bs s') :
    r.eofObserved = false := by
  by_contra he
  obtain ⟨hr, -⟩ := r.eof_rest (by simpa using he)
  obtain ⟨happ, -⟩ := TcpStream.read_ok h
  rw [hr] at happ
  exact hb (append_eq_nil_iff.1 happ.symm).1

/-- `BufferedReader::refill`: one read into the free part of the buffer. -/
def refill : EStateM Fault BufferedReader Unit := fun r =>
  let headroom := r.capacity - r.unread.length
  if hh : 0 < headroom then
    match h : r.stream.read headroom with
    | .error e _ => .error e r
    | .ok bs s =>
      if hb : bs = [] then
        .ok () { r with
          stream := s, eofObserved := true
          eof_rest := fun _ => by
            obtain ⟨rfl, hs⟩ := TcpStream.read_nil hh (hb ▸ h)
            exact hs }
      else
        .ok () { r with
          stream := s, unread := r.unread ++ bs
          eof_rest := fun he => by rw [eof_of_read_cons hb h] at he; cases he }
  else .ok () r

/-- The first lines of both read loops: is there a byte in the buffer, after a refill if need be? -/
def ready : EStateM Fault BufferedReader Bool := do
  let r ← get
  if r.unread ≠ [] then
    return true
  else if r.eofObserved then
    return false
  else
    refill
    return !(← get).unread.isEmpty

/-- The loop of `BufferedReader::readUntilDelim`. -/
def readUntilDelimLoop (delim : UInt8) : ℕ → Bytes → EStateM Fault BufferedReader Bytes
  | 0, _ => throw .spent
  | fuel + 1, out => do
    if ← ready then
      let r ← get
      match cutAt delim r.unread with
      | some (a, _) =>
        if out.length + (a.length + 1) > r.maxLineBytes then throw .lineTooLong
        else
          set (r.take (a.length + 1))
          return out ++ (a ++ [delim])
      | none =>
        if out.length + r.unread.length > r.maxLineBytes then throw .lineTooLong
        else
          set (r.take r.unread.length)
          readUntilDelimLoop delim fuel (out ++ r.unread)
    else
      return out

/-- `BufferedReader::readUntilDelim`; `*terminated` is whether the result ends in `delim`. -/
def readUntilDelim (delim : UInt8) : EStateM Fault BufferedReader Bytes := do
  readUntilDelimLoop delim ((← get).pending.length + 1) []

/-- `BufferedReader::readLine`. -/
def readLine : EStateM Fault BufferedReader Bytes := readUntilDelim 10

/-- The loop of `BufferedReader::readExact`. -/
def readExactLoop (n : ℕ) : ℕ → Bytes → EStateM Fault BufferedReader Bytes
  | 0, _ => throw .spent
  | fuel + 1, out => do
    if out.length < n then
      if ← ready then
        let r ← get
        let got := r.unread.take (n - out.length)
        set (r.take got.length)
        readExactLoop n fuel (out ++ got)
      else
        return out
    else
      return out

/-- `kBufferedReaderMaxExact`. -/
def maxExact : ℕ := 64 * 1024 * 1024

/-- `BufferedReader::readExact` with its default bound. -/
def readExact (n : ℕ) : EStateM Fault BufferedReader Bytes := do
  if n > maxExact then throw (.socket "BufferedReader::readExact: length exceeds bound")
  else readExactLoop n ((← get).pending.length + 1) []

/-! ### The tape -/

/-- The bytes `l` were given out on the way from `r` to `r'`, and nothing else happened. -/
structure Moves (r : BufferedReader) (l : Bytes) (r' : BufferedReader) : Prop where
  pending : r.pending = l ++ r'.pending
  /-- What was read off the socket was given out or is in the buffer. -/
  total : r'.stream.total + r.unread.length = r.stream.total + l.length + r'.unread.length
  maxLineBytes : r'.maxLineBytes = r.maxLineBytes
  ending : r'.stream.ending = r.stream.ending
  accepts : r'.stream.accepts = r.stream.accepts
  sent : r'.stream.sent = r.stream.sent

theorem Moves.refl (r : BufferedReader) : Moves r [] r := ⟨rfl, by simp, rfl, rfl, rfl, rfl⟩

theorem Moves.trans {r r' r'' : BufferedReader} {l l' : Bytes} (h : Moves r l r')
    (h' : Moves r' l' r'') : Moves r (l ++ l') r'' where
  pending := by rw [h.pending, h'.pending, append_assoc]
  total := by
    have h₁ := h.total
    have h₂ := h'.total
    rw [length_append]
    omega
  maxLineBytes := h'.maxLineBytes.trans h.maxLineBytes
  ending := h'.ending.trans h.ending
  accepts := h'.accepts.trans h.accepts
  sent := h'.sent.trans h.sent

/-- The reader as a state with a tape. -/
def tape : Tape BufferedReader UInt8 where
  pending := pending
  Moves := Moves
  moves_nil := Moves.refl
  moves_append := Moves.trans
  pending_eq := Moves.pending

theorem Moves.take (r : BufferedReader) {a b : Bytes} (h : r.unread = a ++ b) :
    Moves r a (r.take a.length) where
  pending := by simp [BufferedReader.pending, BufferedReader.take, h]
  total := by simp [BufferedReader.take, h]; omega
  maxLineBytes := rfl
  ending := rfl
  accepts := rfl
  sent := rfl

end BufferedReader

end Manwe
