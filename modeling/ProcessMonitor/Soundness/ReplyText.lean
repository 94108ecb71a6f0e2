import ProcessMonitor.Model.Vts.Protocol
import ProcessMonitor.Soundness.DedupHistory

/-! # Every reply fits its buffer

`send_length_prefixed` sends the length that `snprintf` returned, also for a text that was cut. No
handler ends with a reply that is: the ids it repeats have at most 63 bytes, the rest is fixed.
-/

namespace ProcessMonitor.Soundness.ReplyText

open Machine Machine.Posix Model.Vts

/-- Every reply the handler can end with, whatever its critical sections find. -/
def Ends (good : Reply → Prop) : Handler → Prop
  | .reply r => good r
  | .registry _ next => ∀ res, Ends good (next res)
  | .dedupFind _ next => ∀ res, Ends good (next res)
  | .dedupPut _ _ next => Ends good next
  | .logWriteReqResult _ _ next => Ends good next

theorem Ends.act {good : Reply → Prop} {h next : Handler} {s t : Shared} (ends : Ends good h)
    (acted : h.act s = some (t, next)) : Ends good next := by
  cases h with
  | reply => cases acted
  | registry | dedupFind => cases acted; exact ends _
  | dedupPut | logWriteReqResult => cases acted; exact ends

theorem Ends.exec {good : Reply → Prop} {h : Handler} (ends : Ends good h) (s : Shared) : good (h.exec s).2 := by
  induction h generalizing s with
  | reply r => exact ends
  | registry call next ih | dedupFind id next ih => exact ih _ (ends _) _
  | dedupPut id res next ih | logWriteReqResult id res next ih => exact ih ends _

def Fits (r : Reply) : Prop := r.text.length ≤ r.bufferSize - 1

instance : DecidablePred Fits := fun _ => inferInstanceAs (Decidable (_ ≤ _))

/-- A reply that fits its buffer goes out as one frame. -/
theorem segments_flatten {r : Reply} (fits : Fits r) :
    r.segments.flatten = framing.frame r.text := by
  rw [Reply.segments, snprintf, List.take_of_length_le fits]
  simp only [sendLengthPrefixed, List.take_length, List.flatten_cons, List.flatten_nil, List.append_nil]
  rfl

theorem legacy_text_length {id : Bytes} (bound : id.length ≤ 63) (res : ℤ) :
    0 < (Reply.legacy id res).text.length ∧ (Reply.legacy id res).text.length < 256 := by
  have opening : (literal "\x7b\"req_id\":\"").length = 11 := rfl
  have middle : (literal "\",\"result\":\"").length = 12 := rfl
  have closing : (literal "\"\x7d").length = 2 := rfl
  have result : (literal (if res = 0 then "ERR" else "OK")).length ≤ 3 := by split <;> decide
  simp only [Reply.text, List.length_append, opening, middle, closing]
  omega

theorem handleLegacy_ends (payload : Bytes) : Ends Fits (handleLegacy payload) := by
  have fits (res : ℤ) : Fits (.legacy (legacyReqId payload) res) :=
    Nat.le_of_lt_succ (legacy_text_length (DedupHistory.legacyReqId_length_le payload) res).2
  have answer (cached : Option ℤ) : Ends Fits (answerLegacy payload cached) := by
    cases cached with
    | some res => exact fits res
    | none =>
      rw [answerLegacy]
      split <;> exact fits _
  rw [handleLegacy]
  split
  exacts [answer none, answer]

theorem handleRoomCommand_ends (cmd name : Bytes) : Ends Fits (handleRoomCommand cmd name) := by
  have found (r : Reply) (fits : Fits r) : Ends Fits (answerFound r name) := by
    intro res
    dsimp only
    split
    exacts [(by decide : Fits .notFound), fits]
  have ok : Fits .ok := by decide
  unfold handleRoomCommand
  split_ifs
  · intro res
    dsimp only
    split_ifs
    exacts [ok, (by decide : Fits .alreadyExists), (by decide : Fits .internalError)]
  · intro res
    dsimp only
    split_ifs
    exacts [ok, (by decide : Fits .notFound)]
  · exact found _ ok
  · exact found _ ok
  · exact found _ ok
  · exact found _ (by decide)
  · exact (by decide : Fits .badRequest)

theorem processOne_ends (payload : Bytes) : Ends Fits (processOne payload) := by
  have refused : Fits .badRequest := by decide
  unfold processOne
  dsimp only
  split
  · exact handleLegacy_ends _
  · unfold handleCli
    split
    · split
      exacts [handleRoomCommand_ends _ _, refused]
    · exact refused

end ProcessMonitor.Soundness.ReplyText
