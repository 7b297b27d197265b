import Manwe.Soccer.HttpClient.Lines
import Manwe.Soccer.Http2.Client.Kept
import Manwe.Soccer.Http2.Exchange.Request

/-!
# Responses arrive as they were made

What `submitResponseLocked` submits, delivered as callbacks, is a message with the status of the
handler's response, its headers without the server's own, the length, the body and the trailers
(`ResponseDelivery.hear`). It does not matter whether the stream ends with the headers, with DATA or
with the trailers that **the body provider submits at its end**.
-/

namespace Manwe.Http2

open Http List Server Message

/-! ### Blocks -/

variable {hs : List HttpHeader} {status : ℕ} {m : Message}

/-- Regular fields, wherever the block puts them. -/
theorem hear_fields (content : List HttpHeader → ℕ → Message)
    (hstep : ∀ l n (h : HttpHeader), isPseudo h.name = false →
      (content l n).hear (.header h.name h.value) =
        some (content (l ++ [h]) (n + h.name.length + h.value.length + 32)))
    (hreg : ∀ h ∈ hs, isPseudo h.name = false) (l : List HttpHeader) (n : ℕ) :
    (hs.map fun h => Callback.header h.name h.value).foldlM hear (content l n) =
      some (content (l ++ hs) (n + listBytes hs)) := by
  induction hs generalizing l n with
  | nil => simp [listBytes]
  | cons h hs ih =>
    refine foldlM_cons_some (hstep l n h (hreg h mem_cons_self)) ?_
    rw [ih fun h' hm => hreg h' (mem_cons_of_mem _ hm)]
    simp [listBytes, Nat.add_assoc]

theorem isStatus_decimal (hlo : 200 ≤ status) (hhi : status ≤ 599) :
    isStatus (decimal status) = true := by
  rw [isStatus, HttpClient.length_decimal (by omega) (by omega), Bool.and_eq_true]
  exact ⟨rfl, all_eq_true.2 fun c hc => isDigit_decimal hc⟩

/-- The block of a final response. -/
theorem hear_responseBlock (hlo : 200 ≤ status) (hhi : status ≤ 599)
    (hreg : ∀ h ∈ hs, isPseudo h.name = false) (endStream : Bool) :
    (responseBlock (⟨bytes ":status", decimal status⟩ :: hs) endStream).foldlM hear {} = some {
        stage := if endStream then .ended else .body
        final := true
        status
        headers := hs
        headerBytes := listBytes (⟨bytes ":status", decimal status⟩ :: hs) } := by
  have hstatus : ({ stage := .opening } : Message).hear (.header (bytes ":status") (decimal status))
    = some {
        stage := .final
        final := true
        status
        headerBytes := listBytes [⟨bytes ":status", decimal status⟩] } := by
    have hinterim : ¬ (100 ≤ status ∧ status < 200) := by omega
    simp [isStatus_decimal hlo hhi, hearStatus, stoull_decimal, hinterim, listBytes]
  have hfields := hear_fields (fun headers headerBytes =>
    { stage := .final, final := true, status, headers, headerBytes }) (fun l n h hp => by
      simp [hp]) hreg []
    (listBytes [⟨bytes ":status", decimal status⟩])
  have hbytes : listBytes [⟨bytes ":status", decimal status⟩] + listBytes hs =
      listBytes (⟨bytes ":status", decimal status⟩ :: hs) := by
    simp [listBytes]
  refine foldlM_cons_some rfl (foldlM_append_some (foldlM_cons_some hstatus hfields) ?_)
  cases endStream <;> rfl

/-- A block of trailers. -/
theorem hear_trailerBlock (hclosed : m.closed = none) (hstage : m.stage = .body)
    (hreg : ∀ h ∈ hs, isPseudo h.name = false) :
    (responseBlock hs true).foldlM hear m = some { m with
        stage := .ended
        trailers := m.trailers ++ hs
        headerBytes := m.headerBytes + listBytes hs } := by
  have hbegin : m.hear .beginHeaders = some { m with stage := .trailers } := by
    simp [hclosed, hstage]
  have hfields := hear_fields (fun trailers headerBytes =>
    { m with stage := .trailers, trailers, headerBytes }) (fun l n h hp => by
      simp [hp, hclosed]) hreg m.trailers m.headerBytes
  refine foldlM_cons_some hbegin (foldlM_append_some hfields ?_)
  simp [hclosed]

/-- DATA frames, of which the last ends the stream or not. -/
theorem hear_bodyFrames (frames : List (List Bytes)) (hclosed : m.closed = none)
    (hstage : m.stage = .body) (endStream : Bool) (hne : endStream = true → frames ≠ []) :
    (dataFrames Callback.data Callback.frame endStream frames).foldlM hear m = some { m with
        body := m.body ++ frames.flatten.flatten
        stage := if endStream then .ended else .body } := by
  cases frames with
  | nil =>
    cases endStream with
    | true => exact absurd rfl (hne rfl)
    | false => simp [dataFrames, ← hstage]
  | cons =>
    refine foldlM_dataFrames (fun body => { m with body })
      (fun body => { m with body, stage := if endStream then .ended else .body }) ?_ ?_ ?_
      (cons_ne_nil _ _) m.body
    · intro body chunk
      simp [hclosed, hstage]
    · intro body
      simp [hclosed, hstage]
    · intro body
      cases endStream <;> simp [hclosed, hstage]

/-! ### Responses -/

variable {resp : Http2Response} {head : Bool}

theorem isPseudo_of_valid (hvalid : validResponse resp = true) {h : HttpHeader}
    (hm : h ∈ resp.headers ++ resp.trailers) : isPseudo (lowerName h).name = false := by
  rw [validResponse, Bool.and_eq_true, all_eq_true] at hvalid
  exact isPseudo_lowerAscii (Bool.and_eq_true_iff.1 (hvalid.2 h hm)).1

theorem isPseudo_respHeaders (head : Bool) (hvalid : validResponse resp = true) :
    ∀ h ∈ respHeaders resp head, isPseudo h.name = false := by
  intro h hm
  obtain hm | hm := mem_append.1 hm
  · obtain ⟨h, hk, rfl⟩ := mem_map.1 hm
    exact isPseudo_of_valid hvalid (mem_append_left _ (mem_filter.1 hk).1)
  · split at hm
    · cases hm
    · rw [mem_singleton.1 hm]
      rfl

theorem isPseudo_respTrailers (head : Bool) (hvalid : validResponse resp = true) :
    ∀ h ∈ respTrailers resp head, isPseudo h.name = false := by
  intro h hm
  rw [respTrailers] at hm
  split at hm
  · obtain ⟨h, hk, rfl⟩ := mem_map.1 hm
    exact isPseudo_of_valid hvalid (mem_append_right _ (mem_filter.1 hk).1)
  · cases hm

/-- **What the client hears of a response.** -/
theorem ResponseDelivery.hear {cs : List Callback} (hvalid : validResponse resp = true)
    (hd : ResponseDelivery (responseFields resp head) (respBody resp head) (respTrailers resp head)
      cs) :
    hearAll (cs ++ [.close 0]) = some {
      stage := .ended
      final := true
      status := resp.status
      headers := respHeaders resp head
      body := respBody resp head
      trailers := respTrailers resp head
      headerBytes := listBytes (responseFields resp head) + listBytes (respTrailers resp head)
      closed := some 0 } := by
  obtain ⟨hlo, hhi⟩ : 200 ≤ resp.status ∧ resp.status ≤ 599 := by
    simp only [validResponse, Bool.and_eq_true, decide_eq_true_eq] at hvalid
    exact hvalid.1
  have hblock := hear_responseBlock hlo hhi (isPseudo_respHeaders head hvalid)
  cases hd with
  | empty noBody noTrailers =>
    rw [noBody, noTrailers]
    exact foldlM_append_some (hblock true) rfl
  | @body _ _ frames some pulls last ne same =>
    obtain ⟨rfl, htrailers⟩ := pulls.eq (Nat.zero_le _)
    have hbody := foldlM_append_some (hblock false) (hear_bodyFrames frames rfl rfl true fun _ =>
      ne)
    rw [same] at hbody
    rw [← htrailers, last]
    exact foldlM_append_some hbody rfl
  | @trailers _ _ frames some pulls last same =>
    obtain ⟨rfl, htrailers⟩ := pulls.eq (Nat.zero_le _)
    have hbody := foldlM_append_some (hblock false) (hear_bodyFrames frames rfl rfl false nofun)
    have hall := foldlM_append_some hbody
      (hear_trailerBlock rfl rfl (htrailers ▸ isPseudo_respTrailers head hvalid))
    rw [same, htrailers] at hall
    rw [htrailers]
    exact foldlM_append_some hall rfl

end Manwe.Http2
