import DeflateEcho.Proofs.Echo.Log
import DeflateEcho.Proofs.Text.Utf8

/-!
# Proofs/Echo/PayloadText — every payload is logged as the text that its bytes spell

The log shows the payloads of a run, all of them and in order (`texts_told`).  The text of one is
what its bytes fall into, character by character, without the white space around it: `LossyText`
says what it is before that is taken off, and `Trimmed` what it is afterwards.
-/

namespace DeflateEcho.Echo

open Text Utf8

variable {sink : Sink} {v : Visit sink} {vs : List (Visit sink)}

/-! ## The text of one payload -/

/-- **The text of any bytes**: a character for each character that they spell, and one replacement
character for each maximal ill-formed part between them. -/
structure LossyText (payload : Bytes) (text : List Char) : Prop where
  /-- There is one way to take the bytes apart, and the text goes along it. -/
  decomposed : ∃ ps, (∀ qs, Decomposition payload qs ↔ qs = ps) ∧ text = ps.map Piece.lossy
  wellFormed : ∀ chars, payload = encode chars → encode text = payload
  append : ∀ chars rest, payload = encode chars ++ rest →
    text = lossy (encode chars) ++ lossy rest
  nonempty : payload ≠ [] → text ≠ []

theorem lossyText_lossy (payload : Bytes) : LossyText payload (lossy payload) where
  decomposed := ⟨pieces payload, decomposition_iff payload, rfl⟩
  wellFormed chars hpayload := by rw [hpayload, lossy_encode]
  append chars rest hpayload := by rw [hpayload, lossy_encode_append, lossy_encode]
  nonempty := lossy_ne_nil

theorem toList_payloadText (payload : Bytes) :
    (payloadText payload).toList = trim (lossy payload) := String.toList_ofList

/-! ## The texts in the log -/

/-- What an event shows of a payload. -/
def LogEvent.text? : LogEvent → Option String
  | received text => some text
  | _ => none

/-- The payload of a visit, if its read decodes to one. -/
def Visit.payload? (v : Visit sink) : Option Bytes :=
  match v.turn.read with
  | .chunk raw =>
    match (v.standing.session.decode raw).1 with
    | .ok payload => if payload = [] then none else some payload
    | .error _ => none
  | .fault _ => none

theorem Visit.payload?_eq_some {raw payload : Bytes} (hread : v.turn.read = .chunk raw)
    (hdecoded : (v.standing.session.decode raw).1 = .ok payload) (hne : payload ≠ []) :
    v.payload? = some payload := by
  simp [Visit.payload?, hread, hdecoded, hne]

theorem filterMap_text_answerLog (st : Standing sink) (raw payload sent : Bytes) :
    (answerLog st raw payload sent).filterMap LogEvent.text? = [payloadText payload] := by
  unfold answerLog
  split <;> rfl

/-- Where a read ends the connection, its payload is logged if there is one. -/
theorem Closes.filterMap_text {ending : Ending}
    (h : Closes v.standing v.turn.read ending v.turn.log) :
    v.turn.log.filterMap LogEvent.text? = (v.payload?.map payloadText).toList := by
  unfold Visit.payload?
  generalize v.turn.read = read, v.turn.log = log at h
  cases h with
  | readFails fault => rfl
  | decodeFails hdecode => simp [hdecode, LogEvent.text?]
  | emptyPayload hdecode => simp [hdecode, LogEvent.text?]
  | disconnect hdecode hne => simp [hdecode, hne, List.filterMap_cons, LogEvent.text?]
  | writeFails hdecode hne => simp [hdecode, hne, List.filterMap_cons, LogEvent.text?]

/-- **The texts in the log are those of the payloads**, in order. -/
theorem Recorded.texts_told {ending : Ending} (h : Recorded ending vs) :
    (told vs).filterMap LogEvent.text?
      = vs.filterMap fun v => v.payload?.map payloadText := by
  refine h.filterMap_told (fun v hcloses => hcloses.filterMap_text) ?_
  intro v raw payload next hread hanswers
  rw [filterMap_text_answerLog, Visit.payload?_eq_some hread hanswers.decoded hanswers.nonempty]
  rfl

/-- **Every payload of a run is logged as its text**, the trimmed lossy decoding of its bytes. -/
theorem logged_texts (sink : Sink) (script : List Happening) :
    ((handle sink script).log.filterMap LogEvent.text?
        = ((visits ({} : Standing sink) (readsOf script)).filterMap Visit.payload?).map payloadText)
      ∧ ∀ payload, LossyText payload (lossy payload)
        ∧ Trimmed (lossy payload) (payloadText payload).toList := by
  refine ⟨?_, fun payload => ⟨lossyText_lossy payload, ?_⟩⟩
  · have hrecorded := recorded_visits ({} : Standing sink) (script.flatMap Happening.reads)
    rw [log_handle, readsOf, hrecorded.texts_told, List.map_filterMap]
  · rw [toList_payloadText]
    exact trimmed_trim _

end DeflateEcho.Echo
