import DeflateEcho.Echo.Connection
import DeflateEcho.Proofs.Codec.Frames
import DeflateEcho.Proofs.Echo.Payload
import DeflateEcho.Proofs.Echo.Stream

/-!
# Proofs/Echo/Turn — a read is answered, or it ends the connection in one of five ways

`Answers` and `Stops` say what may come of a read, in terms of decoding, the tokens, encoding and
writing; the five constructors of `Stops` stand in the order in which they are looked for.
`turn_cases` says that a turn is always one of the two, and `Answers.not_stops` that it is never
both.
-/

namespace DeflateEcho.Echo

/-- Where a connection stands when a read finds it: its session, and what the sink remembers. -/
structure Standing (sink : Sink) where
  session : Session := {}
  memory : sink.Memory := sink.start

variable {sink : Sink}

/-- The session behind the decoding of what was read and the encoding of a reply. -/
def Standing.passed (st : Standing sink) (raw reply : Bytes) : Session :=
  ((st.session.decode raw).2.encode reply).2

/-- The bytes of a reply, encoded in the mode in which the read found the connection. -/
def Standing.encoded (st : Standing sink) (raw reply : Bytes) : Bytes :=
  ((st.session.decode raw).2.encode reply).1

theorem Standing.encoded_of_decode {st : Standing sink} {raw : Bytes}
    {payload : Except CodecError Bytes} {decoded : Session}
    (h : st.session.decode raw = (payload, decoded)) (reply : Bytes) :
    st.encoded raw reply = (decoded.encode reply).1 := by
  rw [encoded, h]

theorem Standing.passed_of_decode {st : Standing sink} {raw : Bytes}
    {payload : Except CodecError Bytes} {decoded : Session}
    (h : st.session.decode raw = (payload, decoded)) (reply : Bytes) :
    st.passed raw reply = (decoded.encode reply).2 := by
  rw [passed, h]

/-- **What was read is answered**: it decodes to a payload that is not empty and holds no request to
disconnect, and the encoded expansion of the payload is written completely. -/
structure Answers (st : Standing sink) (raw payload sent : Bytes) (next : Standing sink) :
    Prop where
  decoded : (st.session.decode raw).1 = .ok payload
  nonempty : payload ≠ []
  stays : ¬ disconnectToken <:+: payload
  encoded : st.encoded raw (expand payload) = sent
  written : sink.writeAll st.memory sent = ⟨sent, none, next.memory⟩
  session : next.session
    = if compressToken <+: payload then (st.passed raw (expand payload)).enableCompression.2
      else st.passed raw (expand payload)

/-- **A read ends the connection**, in this way and with these bytes sent. -/
inductive Stops (st : Standing sink) : Read → Ending → Bytes → Prop where
  | readFails (fault : Fault) : Stops st (.fault fault) (.failed (.stream fault)) []
  | decodeFails {raw : Bytes} {error : CodecError}
    (hdecode : (st.session.decode raw).1 = .error error) :
    Stops st (.chunk raw) (.failed (.codec error)) []
  | emptyPayload {raw : Bytes} (hdecode : (st.session.decode raw).1 = .ok []) :
    Stops st (.chunk raw) .peerClosed []
  | disconnect {raw payload : Bytes} (hdecode : (st.session.decode raw).1 = .ok payload)
    (htoken : disconnectToken <:+: payload) : Stops st (.chunk raw) .disconnect []
  | writeFails {raw payload part : Bytes} {fault : Fault}
    (hdecode : (st.session.decode raw).1 = .ok payload) (hne : payload ≠ [])
    (hstays : ¬ disconnectToken <:+: payload)
    (hfault : (sink.writeAll st.memory (st.encoded raw (expand payload))).fault = some fault)
    (hpart : part <+: st.encoded raw (expand payload))
    (hcut : part ≠ st.encoded raw (expand payload)) :
    Stops st (.chunk raw) (.failed (.stream fault)) part

/-- Of the ways to end, at most one applies to a read. -/
theorem Stops.ending_eq {st : Standing sink} {read : Read} {ending ending' : Ending}
    {part part' : Bytes} (h : Stops st read ending part) (h' : Stops st read ending' part') :
    ending = ending' := by
  have htoken_ne : disconnectToken ≠ [] := by decide
  cases h with
  | readFails fault =>
    cases h'
    rfl
  | decodeFails hdecode => cases h' <;> simp_all
  | emptyPayload hdecode => cases h' <;> simp_all
  | disconnect hdecode htoken => cases h' <;> simp_all
  | writeFails hdecode hne hstays hfault => cases h' <;> simp_all

/-- A payload that is not empty and stays does not end the connection if its reply gets through. -/
theorem not_stops {st : Standing sink} {raw payload : Bytes}
    (hdecoded : (st.session.decode raw).1 = .ok payload) (hne : payload ≠ [])
    (hstays : ¬ disconnectToken <:+: payload)
    (hwritten : (sink.writeAll st.memory (st.encoded raw (expand payload))).fault = none)
    (ending : Ending) (part : Bytes) : ¬ Stops st (.chunk raw) ending part := by
  intro hstops
  cases hstops with
  | decodeFails hdecode =>
    rw [hdecoded] at hdecode
    cases hdecode
  | emptyPayload hdecode => exact hne (Except.ok.inj (hdecoded.symm.trans hdecode))
  | disconnect hdecode htoken =>
    exact hstays (Except.ok.inj (hdecode.symm.trans hdecoded) ▸ htoken)
  | writeFails hdecode _ _ hfault =>
    obtain rfl := Except.ok.inj (hdecode.symm.trans hdecoded)
    rw [hwritten] at hfault
    cases hfault

/-- What is answered does not end the connection as well. -/
theorem Answers.not_stops {st next : Standing sink} {raw payload sent : Bytes}
    (h : Answers st raw payload sent next) (ending : Ending) (part : Bytes) :
    ¬ Stops st (.chunk raw) ending part :=
  Echo.not_stops h.decoded h.nonempty h.stays (by rw [h.encoded, h.written]) ending part

/-- In whatever mode, an encoded reply is not empty. -/
theorem Standing.encoded_ne_nil (st : Standing sink) (raw : Bytes) {reply : Bytes}
    (h : reply ≠ []) : st.encoded raw reply ≠ [] := by
  unfold encoded Session.encode
  split
  · exact Codec.compress_ne_nil _ _
  · exact h

theorem Answers.sent_ne_nil {st next : Standing sink} {raw payload sent : Bytes}
    (h : Answers st raw payload sent next) : sent ≠ [] :=
  h.encoded ▸ st.encoded_ne_nil raw (expand_ne_nil h.nonempty)

theorem settle_fst (s : Session) (payload : Bytes) :
    (settle s (compressToken.isPrefixOf payload)).1
      = if compressToken <+: payload then s.enableCompression.2 else s := by
  unfold settle
  by_cases h : compressToken <+: payload
  · rw [if_pos h, if_pos (List.isPrefixOf_iff_prefix.mpr h)]
    rcases s.enableCompression with ⟨_ | _, s'⟩ <;> rfl
  · rw [if_neg h, if_neg (by simpa using h)]

/-- What a decision leads to, once it is known what is sent. -/
theorem turn_of_reply {st : Standing sink} {read : Read} {reply : Bytes} {enable : Bool}
    {s : Session} {log : List LogEvent}
    (h : receive st.session read = (.reply reply enable, s, log))
    {written : Sink.Written sink} (hwritten : sink.writeAll st.memory reply = written) :
    turn sink st.session st.memory read = match written.fault with
      | some fault => (⟨read, written.sent, log⟩, .ends (.failed (.stream fault)))
      | none => (⟨read, written.sent, log ++ .sentReply reply.length :: (settle s enable).2⟩,
          .goesOn (settle s enable).1 written.memory) := by
  subst hwritten
  cases hfault : (sink.writeAll st.memory reply).fault with
  | some fault => simp [turn, h, hfault]
  | none => simp [turn, h, hfault]

theorem turn_of_stop {st : Standing sink} {read : Read} {ending : Ending} {s : Session}
    {log : List LogEvent} (h : receive st.session read = (.stop ending, s, log)) :
    turn sink st.session st.memory read = (⟨read, [], log⟩, .ends ending) := by
  unfold turn
  rw [h]

theorem receive_of_error {s decoded : Session} {raw : Bytes} {error : CodecError}
    (hdecode : s.decode raw = (.error error, decoded)) :
    receive s (.chunk raw)
      = (.stop (.failed (.codec error)), decoded, [.readChunk raw.length s.mode]) := by
  simp [receive, hdecode]

theorem receive_of_empty {s decoded : Session} {raw : Bytes}
    (hdecode : s.decode raw = (.ok [], decoded)) :
    receive s (.chunk raw)
      = (.stop .peerClosed, decoded, [.readChunk raw.length s.mode, .closedByClient]) := by
  simp [receive, hdecode]

/-- What is received is looked at as its payload says. -/
theorem receive_of_payload {s decoded : Session} {raw payload : Bytes}
    (hdecode : s.decode raw = (.ok payload, decoded)) (hne : payload ≠ []) :
    receive s (.chunk raw) = if disconnectToken <:+: payload
      then (.stop .disconnect, decoded,
        [.readChunk raw.length s.mode, .received (payloadText payload), .disconnectRequested])
      else (.reply (decoded.encode (expand payload)).1 (compressToken.isPrefixOf payload),
        (decoded.encode (expand payload)).2,
        [.readChunk raw.length s.mode, .received (payloadText payload)]) := by
  have hempty : payload.isEmpty = false := by simpa using hne
  unfold receive parse
  by_cases htoken : disconnectToken <:+: payload
  · have := (hasInfix_iff _ _).mpr htoken
    simp [hdecode, hempty, this, htoken]
  · have : hasInfix disconnectToken payload = false := by
      rwa [← Bool.not_eq_true, hasInfix_iff]
    simp [hdecode, hempty, this, htoken]

/-- A request to disconnect ends the connection with nothing sent. -/
theorem turn_of_disconnect {st : Standing sink} {raw payload : Bytes}
    (hdecoded : (st.session.decode raw).1 = .ok payload) (htoken : disconnectToken <:+: payload) :
    ∃ log, turn sink st.session st.memory (.chunk raw)
      = (⟨.chunk raw, [], log⟩, .ends .disconnect) := by
  rcases hdecode : st.session.decode raw with ⟨_, decoded⟩
  rw [hdecode] at hdecoded
  obtain rfl : _ = Except.ok payload := hdecoded
  have hne : payload ≠ [] := by
    rintro rfl
    exact absurd (List.infix_nil.mp htoken) (by decide)
  have hreceive := receive_of_payload hdecode hne
  rw [if_pos htoken] at hreceive
  exact ⟨_, turn_of_stop hreceive⟩

section Replies

variable {st : Standing sink} {raw payload : Bytes} {decoded : Session}
  (hdecode : st.session.decode raw = (.ok payload, decoded)) (hne : payload ≠ [])
  (hstays : ¬ disconnectToken <:+: payload)
include hdecode hne hstays

/-- Where the reply is cut off, the turn ends the connection. -/
theorem turn_of_fault {fault : Fault}
    (hfault : (sink.writeAll st.memory (st.encoded raw (expand payload))).fault = some fault) :
    ∃ part log, Stops st (.chunk raw) (.failed (.stream fault)) part
      ∧ turn sink st.session st.memory (.chunk raw)
        = (⟨.chunk raw, part, log⟩, .ends (.failed (.stream fault))) := by
  have hreceive := receive_of_payload hdecode hne
  rw [if_neg hstays] at hreceive
  have hturn := turn_of_reply hreceive rfl
  rw [← Standing.encoded_of_decode hdecode, hfault] at hturn
  obtain ⟨hpart, hcut⟩ := Sink.sent_of_fault_eq_some hfault
  exact ⟨_, _, .writeFails (by rw [hdecode]) hne hstays hfault hpart hcut, hturn⟩

/-- Where the reply gets through, the turn answers. -/
theorem turn_of_written
    (hwritten : (sink.writeAll st.memory (st.encoded raw (expand payload))).fault = none) :
    ∃ sent next log, Answers st raw payload sent next
      ∧ turn sink st.session st.memory (.chunk raw)
        = (⟨.chunk raw, sent, log⟩, .goesOn next.session next.memory) := by
  have hreceive := receive_of_payload hdecode hne
  rw [if_neg hstays] at hreceive
  have hturn := turn_of_reply hreceive rfl
  rw [← Standing.encoded_of_decode hdecode, hwritten, Sink.sent_of_fault_eq_none hwritten] at hturn
  refine ⟨_, ⟨_, _⟩, _, ⟨by rw [hdecode], hne, hstays, rfl,
    Sink.writeAll_eq_of_fault_eq_none hwritten, ?_⟩, hturn⟩
  rw [Standing.passed_of_decode hdecode, ← settle_fst]

end Replies

/-- **A turn answers its read or ends the connection with it.** -/
theorem turn_cases (st : Standing sink) (read : Read) :
    (∃ raw payload sent next log, read = .chunk raw ∧ Answers st raw payload sent next
      ∧ turn sink st.session st.memory read
        = (⟨read, sent, log⟩, .goesOn next.session next.memory))
    ∨ ∃ ending part log, Stops st read ending part
      ∧ turn sink st.session st.memory read = (⟨read, part, log⟩, .ends ending) := by
  rcases read with raw | fault
  · rcases hdecode : st.session.decode raw with ⟨error | payload, decoded⟩
    · exact .inr ⟨_, _, _, .decodeFails (by rw [hdecode]), turn_of_stop (receive_of_error hdecode)⟩
    by_cases hne : payload = []
    · subst hne
      exact .inr ⟨_, _, _, .emptyPayload (by rw [hdecode]), turn_of_stop (receive_of_empty hdecode)⟩
    by_cases htoken : disconnectToken <:+: payload
    · obtain ⟨log, hturn⟩ := turn_of_disconnect (by rw [hdecode]) htoken
      exact .inr ⟨_, _, log, .disconnect (by rw [hdecode]) htoken, hturn⟩
    rcases hfault : (sink.writeAll st.memory (st.encoded raw (expand payload))).fault
      with _ | fault
    · obtain ⟨sent, next, log, hanswers, hturn⟩ := turn_of_written hdecode hne htoken hfault
      exact .inl ⟨raw, payload, sent, next, log, rfl, hanswers, hturn⟩
    · obtain ⟨part, log, hstops, hturn⟩ := turn_of_fault hdecode hne htoken hfault
      exact .inr ⟨_, part, log, hstops, hturn⟩
  · exact .inr ⟨_, _, _, .readFails fault, rfl⟩

end DeflateEcho.Echo
