import Manwe.Soccer.Http.Fields
import Manwe.Soccer.HttpServer

/-!
# Head lines

What `readHeadLine` can do. A line comes back without its CRLF, and the bytes taken for it are
exactly the line and the CRLF (`reads_readHeadLine`); everything else is a `Refusal`, which says
how far into the stream the parser has got when it gives up: not beyond the empty line that ends
the head (`WithinHead`).
-/

namespace Manwe.HttpServer

open Http BufferedReader List EStateM

variable {l c : Bytes} {r r' : BufferedReader} {e : Fault}

/-! ### Stripping -/

theorem stripHeadLine_crlf (h : hasCtlLineBreak l = false) :
    stripHeadLine (l ++ crlf) = .ok (some l) := by
  have hlast : (l ++ crlf).getLast? = some 10 := by simp [crlf]
  have hdrop : (l ++ crlf).dropLast = l ++ [13] := by
    rw [crlf, show l ++ [13, 10] = l ++ [13] ++ [10] by simp, dropLast_concat]
  rw [stripHeadLine, if_neg (by simp [crlf]), if_neg (by rw [hlast]; simp), hdrop,
    if_neg (by simp), dropLast_concat, if_neg (by simp [h])]

variable {line : Bytes}

theorem stripHeadLine_some (h : stripHeadLine line = .ok (some l)) :
    line = l ++ crlf ∧ hasCtlLineBreak l = false := by
  unfold stripHeadLine at h
  split_ifs at h with _ hlf hcr hctl <;> cases h
  obtain ⟨a, rfl⟩ := getLast?_eq_some_iff.1 (not_not.1 hlf)
  rw [dropLast_concat] at hcr
  obtain ⟨b, rfl⟩ := getLast?_eq_some_iff.1 (not_not.1 hcr)
  exact ⟨by simp [crlf], by simpa using hctl⟩

theorem stripHeadLine_none (h : stripHeadLine line = .ok none) : line = [] := by
  unfold stripHeadLine at h
  split_ifs at h with hn
  · exact hn
  · cases h

/-! ### Refusals -/

/-- Complete lines, none of them empty, with or without a CR. -/
def FullLines (lines : List Bytes) : Prop := ∀ l ∈ lines, 10 ∉ l ∧ l ≠ [13] ∧ l ≠ []

/-- Bytes that do not go beyond the empty line that ends a head: complete lines, none of them
empty, and at most one line more. -/
def WithinHead (taken : Bytes) : Prop :=
  ∃ lines c, taken = lines.flatMap (· ++ [10]) ++ c ∧ FullLines lines ∧ 10 ∉ c.dropLast

/-- The empty line has not come: complete lines, none of them empty, and part of another. -/
def Unfinished (s : Bytes) : Prop :=
  ∃ lines c, s = lines.flatMap (· ++ [10]) ++ c ∧ FullLines lines ∧ 10 ∉ c

/-- **The parser gave up inside the head**: with an exception, unless the peer has fallen silent
before the end of the head. -/
structure Refusal (r : BufferedReader) (e : Fault) (r' : BufferedReader) : Prop where
  taken : ∃ c, Moves r c r' ∧ WithinHead c
  genuine : e ≠ .spent
  waits : e = .waits → r.stream.ending = .silent ∧ Unfinished r.pending

variable (hctl : hasCtlLineBreak l = false) (hne : l ≠ [])

include hctl hne

theorem FullLines.cons {lines : List Bytes} (h : FullLines lines) :
    FullLines ((l ++ [13]) :: lines) := by
  intro l' hl'
  rcases mem_cons.1 hl' with rfl | hl'
  · exact ⟨lf_not_mem hctl, by simpa using hne, by simp⟩
  · exact h l' hl'

theorem WithinHead.cons (h : WithinHead c) : WithinHead (l ++ crlf ++ c) := by
  obtain ⟨lines, c', rfl, hfull, hc⟩ := h
  exact ⟨(l ++ [13]) :: lines, c', by simp [crlf], hfull.cons hctl hne, hc⟩

theorem Unfinished.cons (h : Unfinished c) : Unfinished (l ++ crlf ++ c) := by
  obtain ⟨lines, c', rfl, hfull, hc⟩ := h
  exact ⟨(l ++ [13]) :: lines, c', by simp [crlf], hfull.cons hctl hne, hc⟩

omit hctl hne

/-- One line, or part of one. -/
theorem withinHead_of_dropLast (h : 10 ∉ c.dropLast) : WithinHead c :=
  ⟨[], c, rfl, fun _ h => absurd h not_mem_nil, h⟩

theorem withinHead_of_not_mem (h : 10 ∉ c) : WithinHead c :=
  withinHead_of_dropLast fun hc => h (dropLast_subset c hc)

/-- A refusal after another line of the head. -/
theorem Refusal.after {r₁ : BufferedReader} (hm : Moves r (l ++ crlf) r₁)
    (hctl : hasCtlLineBreak l = false) (hne : l ≠ []) (h : Refusal r₁ e r') : Refusal r e r' := by
  refine ⟨?_, h.genuine, fun he => ?_⟩
  · obtain ⟨c, hm', hc⟩ := h.taken
    exact ⟨_, hm.trans hm', hc.cons hctl hne⟩
  · obtain ⟨hs, hu⟩ := h.waits he
    exact ⟨hm.ending ▸ hs, hm.pending ▸ hu.cons hctl hne⟩

/-- An exception after one line, or part of one. -/
theorem Refusal.thrown (hm : Moves r c r') (hc : 10 ∉ c.dropLast) (hs : e ≠ .spent)
    (hw : e ≠ .waits) : Refusal r e r' :=
  ⟨⟨c, hm, withinHead_of_dropLast hc⟩, hs, fun he => absurd he hw⟩

/-- An exception after a line of the head. -/
theorem Refusal.thrown_line (hm : Moves r (l ++ crlf) r') (hctl : hasCtlLineBreak l = false)
    (hs : e ≠ .spent) (hw : e ≠ .waits) : Refusal r e r' := by
  refine .thrown hm ?_ hs hw
  rw [append_crlf, dropLast_concat]
  exact lf_not_mem hctl

/-! ### Reading a line -/

/-- The outcomes of `readHeadLine`. -/
inductive HeadLine (headerBytes : ℕ) (r : BufferedReader) :
    Result Fault BufferedReader (Option Bytes × ℕ) → Prop
  | line {l : Bytes} {r' : BufferedReader} (hm : Moves r (l ++ crlf) r')
      (hctl : hasCtlLineBreak l = false) :
      HeadLine headerBytes r (.ok (some l, headerBytes + (l.length + 2)) r')
  | eof {r' : BufferedReader} (hm : Moves r [] r') :
      HeadLine headerBytes r (.ok (none, headerBytes) r')
  | refused {e : Fault} {r' : BufferedReader} (h : Refusal r e r') : HeadLine headerBytes r (.error
    e r')

theorem stripHeadLine_error (h : stripHeadLine line = .error e) : e ≠ .spent ∧ e ≠ .waits := by
  unfold stripHeadLine at h
  (repeat' split at h) <;> cases h <;> exact ⟨nofun, nofun⟩

/-- What becomes of a line that has been read. -/
theorem headLine_of_line {headerBytes : ℕ} (hm : Moves r line r') (hlf : 10 ∉ line.dropLast) :
    HeadLine headerBytes r ((do
      let stripped ← MonadExcept.ofExcept (stripHeadLine line)
      return (stripped, headerBytes + line.length) : EStateM _ _ _).run r') := by
  cases hs : stripHeadLine line with
  | error =>
    obtain ⟨h₁, h₂⟩ := stripHeadLine_error hs
    exact .refused (.thrown hm hlf h₁ h₂)
  | ok o =>
    cases o with
    | none =>
      obtain rfl := stripHeadLine_none hs
      exact .eof hm
    | some =>
      obtain ⟨rfl, hctl⟩ := stripHeadLine_some hs
      rw [length_append]
      exact .line hm hctl

theorem readHeadLine_outcome (requestLine : Bool) (headerBytes : ℕ) (r : BufferedReader) :
    HeadLine headerBytes r ((readHeadLine requestLine headerBytes).run r) := by
  rw [readHeadLine, run_bind, Tape.run_catch]
  have hout := readLine_outcome r
  generalize readLine.run r = res at hout ⊢
  cases hout with
  | found hm ha => exact headLine_of_line hm (by rw [nil_append, dropLast_concat]; exact ha)
  | ended hm ha => exact headLine_of_line hm fun h => ha (dropLast_subset _ h)
  | long hm hc => exact .refused (.thrown hm (fun h => hc (dropLast_subset _ h)) nofun nofun)
  | dry hm ha he =>
    cases he with
    | reset => exact .refused (.thrown hm (fun h => ha (dropLast_subset _ h)) nofun nofun)
    | silent he =>
      refine .refused ⟨⟨_, hm, withinHead_of_not_mem ha⟩, nofun, fun _ => ⟨he, ?_⟩⟩
      exact ⟨[], r.pending, rfl, fun _ h => absurd h not_mem_nil, ha⟩

/-- **A head line that is on the tape is read**, and its CRLF with it. -/
theorem reads_readHeadLine {bound : ℕ} (requestLine : Bool) (headerBytes : ℕ)
    (hctl : hasCtlLineBreak l = false) (hl : l.length + 2 ≤ bound) :
    tape.Reads (Admits bound) (readHeadLine requestLine headerBytes) (l ++ crlf)
      (some l, headerBytes + (l.length + 2)) := by
  intro r t hb hp
  rw [append_crlf] at hp ⊢
  obtain ⟨r', hr, hm⟩ := reads_readLine (lf_not_mem hctl) (by simp; omega) r t hb hp
  refine ⟨r', ?_, hm⟩
  rw [readHeadLine, run_bind, Tape.run_catch, hr, ← append_crlf]
  simp only [run_bind, stripHeadLine_crlf hctl, Tape.run_ofExcept, run_pure]
  simp [crlf]

end Manwe.HttpServer
