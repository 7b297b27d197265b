import Manwe.Soccer.Http2.Client

/-!
# What a step does to one stream

Whatever a step does to the map, seen from one identifier it is little: nothing, a callback, giving
up, a handle stored, or the response taken. `touch_of_step` says this once; what is invariant about
a stream is then a matter of one stream object at a time.
-/

namespace Manwe.Http2

open Table

variable {ι : Type}

/-- A callback on a stream object. -/
def Http2Stream.on (st : Http2Stream ι) : Callback → Http2Stream ι
  | .beginHeaders => st.onBeginHeaders
  | .header name value => st.onHeader name value
  | .data chunk => st.onDataChunk chunk
  | .frame endStream => st.onFrameRecv endStream
  | .close errorCode => st.onStreamClose errorCode

namespace Client

/-- **What a step does to the stream `id`.** -/
inductive Touch (s : State ι) (id : ℕ) :
    Event ι → Option (Http2Stream ι) → Option (Http2Stream ι) → Prop
  | same {e : Event ι} {o : Option (Http2Stream ι)} (quiet : heard id s e = []) : Touch s id e o o
  | absent {c : Callback} : Touch s id (.callback id c) none none
  | create {i : ι} (new : id = s.nextId) : Touch s id (.register i) none (some {})
  /-- the connection is closed: nobody will ask for the response -/
  | refuse {i : ι} (new : id = s.nextId) :
      Touch s id (.register i) none (some { consumed := true, done := true })
  | callback {c : Callback} {st : Http2Stream ι} :
      Touch s id (.callback id c) (some st) (some (st.on c))
  /-- the session closes a stream whose response was taken -/
  | gone {errorCode : ℕ} {st : Http2Stream ι} (consumed : st.consumed = true) :
      Touch s id (.callback id (.close errorCode)) (some st) none
  | fail {i : ι} {st : Http2Stream ι} : Touch s id (.failStream i) (some st) (some (st.fail true))
  | lose {i : ι} {st : Http2Stream ι} : Touch s id (.sweep i) (some st) (some st.lose)
  | park {i : ι} {st : Http2Stream ι} :
      Touch s id (.suspend i) (some st) (some { st with waiter := some i })
  | take {i : ι} {st : Http2Stream ι} (resumed : s.ops i = .resumed id) :
      Touch s id (.take i) (some st) (some { st with consumed := true, response := {} })
  /-- the response of a stream that the session has closed is taken -/
  | erase {i : ι} {st : Http2Stream ι} (resumed : s.ops i = .resumed id)
      (closed : st.sessionClosed = true) : Touch s id (.take i) (some st) none

variable {s t : State ι} {e : Event ι}

theorem find_onStreamClose {id id' code : ℕ} (h : id ≠ id') :
    (s.onStreamClose id' code).streams.find id = s.streams.find id := by
  rw [State.onStreamClose]
  split
  · rfl
  · split
    · exact find_erase.trans (if_neg h)
    · exact (find_adjust _).trans (if_neg h)

/-- A callback is about its own stream. -/
theorem find_onCallback_of_ne {id id' : ℕ} (h : id ≠ id') (c : Callback) :
    (s.onCallback id' c).streams.find id = s.streams.find id := by
  cases c with
  | close => exact find_onStreamClose h
  | _ => exact (find_adjust _).trans (if_neg h)

theorem touch_adjust {id : ℕ} (c : Callback) :
    Touch s id (.callback id c) (s.streams.find id)
      ((s.streams.adjust id fun st => st.on c).find id) := by
  rw [find_adjust, if_pos rfl]
  cases s.streams.find id with
  | none => exact .absent
  | some => exact .callback

theorem touch_onCallback (id id' : ℕ) (c : Callback) :
    Touch s id (.callback id' c) (s.streams.find id) ((s.onCallback id' c).streams.find id) := by
  obtain rfl | hne := eq_or_ne id id'
  · cases c with
    | close code =>
      rw [State.onCallback, State.onStreamClose]
      split
      · next hst =>
        rw [hst]
        exact .absent
      · next st hst =>
        split
        · next hc =>
          rw [find_erase, if_pos rfl, hst]
          exact .gone hc
        · exact touch_adjust (.close code)
    | beginHeaders => exact touch_adjust .beginHeaders
    | header name value => exact touch_adjust (.header name value)
    | data chunk => exact touch_adjust (.data chunk)
    | frame endStream => exact touch_adjust (.frame endStream)
  · rw [find_onCallback_of_ne hne]
    exact .same (if_neg (Ne.symm hne))

variable [DecidableEq ι]

theorem touch_of_step (hnew : s.streams.find s.nextId = none) (hs : step s e = some t) (id : ℕ) :
    Touch s id e (s.streams.find id) (t.streams.find id) := by
  cases e with (simp only [step] at hs; repeat' first | cases hs | split at hs)
  | register =>
    rw [State.register]
    obtain rfl | hne := eq_or_ne id s.nextId
    · rw [hnew]
      split
      · simp only [find_emplace hnew, if_true]
        exact .refuse rfl
      · simp only [find_emplace hnew, if_true]
        exact .create rfl
    · split <;> simp only [find_emplace hnew, if_neg hne] <;> exact .same rfl
  | suspend =>
    first
    | exact .same rfl
    | simp only [State.adjust, State.put, find_adjust]
      split
      · cases s.streams.find id with
        | none => exact .same rfl
        | some => exact .park
      · exact .same rfl
  | take =>
    first
    | exact .same rfl
    | next id' hi _ st hst =>
      rw [State.take]
      obtain rfl | hne := eq_or_ne id id'
      · rw [hst]
        split
        · next hc =>
          simp only [find_erase, if_true]
          exact .erase hi hc
        · simp only [State.adjust, State.put, find_adjust, if_true, hst]
          exact .take hi
      · split
        · simp only [State.put, find_erase, if_neg hne]
          exact .same rfl
        · simp only [State.adjust, State.put, find_adjust, if_neg hne]
          exact .same rfl
  | callback id' c => exact touch_onCallback id id' c
  | failStream =>
    rw [State.failStream]
    split
    · exact .same rfl
    · simp only [State.adjust, State.put, find_adjust]
      split
      · cases s.streams.find id with
        | none => exact .same rfl
        | some => exact .fail
      · exact .same rfl
  | sweep =>
    simp only [State.failOutstandingStreams, State.put, find_map]
    cases s.streams.find id with
    | none => exact .same rfl
    | some => exact .lose
  | _ => exact .same rfl

end Client

end Manwe.Http2
