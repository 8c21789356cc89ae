import DeflateEcho.Proofs.Echo.RunLaw

/-!
# Proofs/Echo/ModeSwitch — compression is turned on once, in both directions, for good

The law of a run says where each turn leaves the connection.  In plaintext it stays a new session
until a turn turns compression on (`Visit.LeadsTo.of_plaintext`); in compression it stays in
compression, whatever the payloads begin with (`Visit.LeadsTo.of_compressed`).  So a run falls into
two parts (`Switch`), which `switch_of_chain` finds by induction along its turns.
-/

namespace DeflateEcho.Echo

variable {sink : Sink} {v w : Visit sink} {vs : List (Visit sink)}

/-! ## Standings in plaintext and in compression -/

namespace Standing

variable {st : Standing sink}

theorem encoded_of_plaintext (h : st.session.mode = .plaintext) (raw reply : Bytes) :
    st.encoded raw reply = reply := by
  rw [encoded_of_decode (Session.decode_of_plaintext h raw), Session.encode_of_plaintext h]

theorem passed_of_plaintext (h : st.session.mode = .plaintext) (raw reply : Bytes) :
    st.passed raw reply = st.session := by
  rw [passed_of_decode (Session.decode_of_plaintext h raw), Session.encode_of_plaintext h]

theorem encoded_of_compressed (h : st.session.mode = .compressed) (raw reply : Bytes) :
    st.encoded raw reply = ((st.session.codec.decompress raw).2.compress reply).1 := by
  rw [encoded_of_decode (Session.decode_of_compressed h raw), Session.encode_of_compressed]
  exact h

theorem passed_of_compressed (h : st.session.mode = .compressed) (raw reply : Bytes) :
    st.passed raw reply = {
      mode := .compressed
      codec := ((st.session.codec.decompress raw).2.compress reply).2 } := by
  rw [passed_of_decode (Session.decode_of_compressed h raw), Session.encode_of_compressed]
  · rw [h]
  · exact h

end Standing

section Answers

variable {st next : Standing sink} {raw payload sent : Bytes}

/-- What is answered in plaintext is its own payload. -/
theorem Answers.payload_of_plaintext (h : Answers st raw payload sent next)
    (hst : st.session.mode = .plaintext) : raw = payload := by
  have hdecoded := h.decoded
  rw [Session.decode_of_plaintext hst] at hdecoded
  exact Except.ok.inj hdecoded

/-- An answer in plaintext leaves a new session, in compression if it was asked for. -/
theorem Answers.session_of_plaintext (h : Answers st raw payload sent next)
    (hst : st.session = {}) :
    next.session = if compressToken <+: payload then { mode := .compressed } else {} := by
  have hmode : st.session.mode = .plaintext := by rw [hst]
  rw [h.session, Standing.passed_of_plaintext hmode, Session.enableCompression_of_plaintext hmode,
    hst]

/-- An answer in compression leaves the codec that the payload and the reply have gone through. -/
theorem Answers.session_of_compressed (h : Answers st raw payload sent next)
    (hst : st.session.mode = .compressed) :
    next.session = {
      mode := .compressed
      codec := ((st.session.codec.decompress raw).2.compress (expand payload)).2 } := by
  rw [h.session, Standing.passed_of_compressed hst, Session.enableCompression_of_compressed rfl]
  exact ite_self _

end Answers

/-! ## What one turn does -/

namespace Visit

/-- **A turn that turns compression on**: its payload is not empty, begins with the token and holds
no request to disconnect, and its reply is written completely. -/
def Activates (v : Visit sink) : Prop :=
  ∃ raw payload, v.turn.read = .chunk raw ∧ (v.standing.session.decode raw).1 = .ok payload
    ∧ payload ≠ [] ∧ compressToken <+: payload ∧ ¬ disconnectToken <:+: payload
    ∧ (sink.writeAll v.standing.memory
        (v.standing.encoded raw (expand payload))).fault = none

/-- A turn that answers its read turns compression on if its payload begins with the token. -/
theorem activates_iff {raw payload : Bytes} (hread : v.turn.read = .chunk raw)
    (h : Answers v.standing raw payload v.turn.sent w.standing) :
    v.Activates ↔ compressToken <+: payload := by
  constructor
  · rintro ⟨raw', payload', hread', hdecoded, -, htoken, -⟩
    obtain rfl := Read.chunk.inj (hread.symm.trans hread')
    obtain rfl := Except.ok.inj (h.decoded.symm.trans hdecoded)
    exact htoken
  · intro htoken
    refine ⟨raw, payload, hread, h.decoded, h.nonempty, htoken, h.stays, ?_⟩
    rw [h.encoded, h.written]

/-- A turn that ends the connection does not turn compression on. -/
theorem Ends.not_activates {ending : Ending} (h : v.Ends ending) : ¬ v.Activates := by
  rintro ⟨raw, payload, hread, hdecoded, hne, -, hstays, hwritten⟩
  have hstops := h.stops
  rw [hread] at hstops
  exact not_stops hdecoded hne hstays hwritten _ _ hstops

/-- Where a turn in plaintext leads: to a new codec in compression if it turns compression on, and
else to a new session again. -/
structure PassesVerbatim (v w : Visit sink) : Prop where
  reply : ∃ raw, v.turn.read = .chunk raw ∧ v.turn.sent = expand raw
  switched : v.Activates → w.standing.session = { mode := .compressed }
  stayed : ¬ v.Activates → w.standing.session = {}

/-- Where a turn in compression leads: to the codec that the payload and the reply have gone
through, whatever the payload begins with. -/
def PassesCoded (v w : Visit sink) : Prop :=
  ∃ raw payload, v.turn.read = .chunk raw
    ∧ (v.standing.session.codec.decompress raw).1 = .ok payload
    ∧ v.turn.sent = ((v.standing.session.codec.decompress raw).2.compress (expand payload)).1
    ∧ w.standing.session = {
        mode := .compressed
        codec := ((v.standing.session.codec.decompress raw).2.compress (expand payload)).2 }

/-- What is answered in plaintext is its own payload. -/
theorem LeadsTo.answers_raw (h : v.LeadsTo w) (hv : v.standing.session = {}) :
    ∃ raw, v.turn.read = .chunk raw ∧ Answers v.standing raw raw v.turn.sent w.standing := by
  obtain ⟨raw, payload, hread, hanswers⟩ := h.answers
  obtain rfl := hanswers.payload_of_plaintext (by rw [hv])
  exact ⟨raw, hread, hanswers⟩

/-- The reply to what is answered in plaintext is written completely. -/
theorem LeadsTo.fault_eq_none (h : v.LeadsTo w) (hv : v.standing.session = {}) {raw : Bytes}
    (hread : v.turn.read = .chunk raw) :
    (sink.writeAll v.standing.memory (expand raw)).fault = none := by
  obtain ⟨raw', hread', hanswers⟩ := h.answers_raw hv
  obtain rfl := Read.chunk.inj (hread.symm.trans hread')
  have hencoded := hanswers.encoded
  rw [Standing.encoded_of_plaintext (by rw [hv])] at hencoded
  rw [hencoded, hanswers.written]

/-- Where a turn leads, in plaintext and in compression. -/
structure Passes (v w : Visit sink) : Prop where
  verbatim : v.standing.session = {} → PassesVerbatim v w
  coded : v.standing.session.mode = .compressed → PassesCoded v w

theorem LeadsTo.of_plaintext (h : v.LeadsTo w) (hv : v.standing.session = {}) :
    PassesVerbatim v w := by
  obtain ⟨raw, hread, hanswers⟩ := h.answers_raw hv
  have hsession := hanswers.session_of_plaintext hv
  refine ⟨⟨raw, hread, ?_⟩, fun hactive => ?_, fun hactive => ?_⟩
  · rw [← hanswers.encoded, Standing.encoded_of_plaintext (by rw [hv])]
  · rw [hsession, if_pos ((activates_iff hread hanswers).mp hactive)]
  · rw [hsession, if_neg (mt (activates_iff hread hanswers).mpr hactive)]

theorem LeadsTo.of_compressed (h : v.LeadsTo w) (hv : v.standing.session.mode = .compressed) :
    PassesCoded v w := by
  obtain ⟨raw, payload, hread, hanswers⟩ := h.answers
  refine ⟨raw, payload, hread, ?_, ?_, hanswers.session_of_compressed hv⟩
  · rw [← hanswers.decoded, Session.decode_of_compressed hv]
  · rw [← hanswers.encoded, Standing.encoded_of_compressed hv]

theorem LeadsTo.passes (h : v.LeadsTo w) : Passes v w where
  verbatim := h.of_plaintext
  coded := h.of_compressed

/-- **What is read in plaintext is the payload, and its expansion the reply.** -/
def Verbatim (v : Visit sink) : Prop :=
  ∀ raw, v.turn.read = .chunk raw →
    v.standing.session.decode raw = (.ok raw, v.standing.session) ∧ v.turn.sent <+: expand raw

/-- **What is read in compression goes through the codec, and so does the reply.** -/
def Coded (v : Visit sink) : Prop :=
  ∀ raw, v.turn.read = .chunk raw →
    v.standing.session.decode raw = (
        (v.standing.session.codec.decompress raw).1,
        { mode := .compressed, codec := (v.standing.session.codec.decompress raw).2 })
      ∧ ∀ payload, (v.standing.session.codec.decompress raw).1 = .ok payload →
        v.turn.sent
          <+: ((v.standing.session.codec.decompress raw).2.compress (expand payload)).1

/-- A turn sends the encoded expansion of its payload, as far as it gets. -/
theorem sent_prefix {raw payload : Bytes} {ending : Ending}
    (h : (∃ w, v.LeadsTo w) ∨ v.Ends ending) (hread : v.turn.read = .chunk raw)
    (hdecoded : (v.standing.session.decode raw).1 = .ok payload) :
    v.turn.sent <+: v.standing.encoded raw (expand payload) := by
  obtain ⟨w, h⟩ | h := h
  · obtain ⟨raw', payload', hread', hanswers⟩ := h.answers
    obtain rfl := Read.chunk.inj (hread.symm.trans hread')
    obtain rfl := Except.ok.inj (hdecoded.symm.trans hanswers.decoded)
    exact hanswers.encoded ▸ List.prefix_rfl
  · have hstops := h.stops
    rw [hread] at hstops
    generalize v.turn.sent = part at hstops ⊢
    cases hstops with
    | writeFails hdecode _ _ _ hpart =>
      obtain rfl := Except.ok.inj (hdecoded.symm.trans hdecode)
      exact hpart
    | _ => exact List.nil_prefix

theorem verbatim_of_plaintext {ending : Ending} (h : (∃ w, v.LeadsTo w) ∨ v.Ends ending)
    (hv : v.standing.session.mode = .plaintext) : v.Verbatim := by
  intro raw hread
  have hdecode := Session.decode_of_plaintext hv raw
  refine ⟨hdecode, ?_⟩
  have hsent := sent_prefix h hread (by rw [hdecode])
  rwa [Standing.encoded_of_plaintext hv] at hsent

theorem coded_of_compressed {ending : Ending} (h : (∃ w, v.LeadsTo w) ∨ v.Ends ending)
    (hv : v.standing.session.mode = .compressed) : v.Coded := by
  intro raw hread
  have hdecode := Session.decode_of_compressed hv raw
  refine ⟨by rw [hdecode, hv], fun payload hpayload => ?_⟩
  have hsent := sent_prefix h hread (by rw [hdecode]; exact hpayload)
  rwa [Standing.encoded_of_compressed hv] at hsent

end Visit

/-! ## The two parts of a run -/

/-- Once in compression, a run stays in it. -/
theorem compressed_of_chain (h : vs.IsChain Visit.LeadsTo)
    (hstart : ∀ v ∈ vs.head?, v.standing.session.mode = .compressed) :
    ∀ v ∈ vs, v.standing.session.mode = .compressed := by
  induction h with
  | nil => exact fun v hv => absurd hv List.not_mem_nil
  | singleton v => exact List.forall_mem_singleton.mpr (hstart v rfl)
  | @cons_cons v w vs hvw _ ih =>
    have hv := hstart v rfl
    obtain ⟨_, _, _, _, _, hw⟩ := hvw.of_compressed hv
    exact List.forall_mem_cons.mpr ⟨hv, ih fun u hu => by
      obtain rfl : w = u := by simpa using hu
      rw [hw]⟩

/-- **A run falls into two parts**: sessions as new ones are, and sessions in compression, the first
of them with a new codec.  The second part begins behind the first turn that turns compression on,
if there is one. -/
structure Switch (plain compressed : List (Visit sink)) : Prop where
  nonempty : plain ≠ []
  plaintext : ∀ v ∈ plain, v.standing.session = {}
  quiet : ∀ v ∈ plain.dropLast, ¬ v.Activates
  switches : ∀ v ∈ plain.getLast?, (v.Activates ↔ compressed ≠ [])
  fresh : ∀ v ∈ compressed.head?, v.standing.session = { mode := .compressed }
  compressed : ∀ v ∈ compressed, v.standing.session.mode = .compressed

/-- A turn in plaintext that does not turn compression on comes before the rest of a run. -/
theorem Switch.cons {plain compressed : List (Visit sink)} (h : Switch plain compressed)
    (hv : v.standing.session = {}) (hquiet : ¬ v.Activates) :
    Switch (v :: plain) compressed := by
  obtain ⟨first, rest, rfl⟩ := List.exists_cons_of_ne_nil h.nonempty
  exact {
    nonempty := List.cons_ne_nil _ _
    plaintext := List.forall_mem_cons.mpr ⟨hv, h.plaintext⟩
    quiet := List.forall_mem_cons.mpr ⟨hquiet, h.quiet⟩
    switches := by
      rw [List.getLast?_cons_cons]
      exact h.switches
    fresh := h.fresh
    compressed := h.compressed }

/-- A turn in plaintext with nothing but compression behind it. -/
theorem Switch.single {compressed : List (Visit sink)} (hv : v.standing.session = {})
    (hswitch : v.Activates ↔ compressed ≠ [])
    (hfresh : ∀ w ∈ compressed.head?, w.standing.session = { mode := .compressed })
    (hchain : compressed.IsChain Visit.LeadsTo) : Switch [v] compressed where
  nonempty := List.cons_ne_nil _ _
  plaintext := List.forall_mem_singleton.mpr hv
  quiet := fun _ h => absurd h List.not_mem_nil
  switches := fun u hu => by
    obtain rfl : v = u := by simpa using hu
    exact hswitch
  fresh := hfresh
  compressed := compressed_of_chain hchain fun w hw => by rw [hfresh w hw]

theorem switch_of_chain (h : vs.IsChain Visit.LeadsTo) (hne : vs ≠ [])
    (hstart : ∀ v ∈ vs.head?, v.standing.session = {})
    (hlast : ∀ v ∈ vs.getLast?, ¬ v.Activates) :
    ∃ plain compressed, vs = plain ++ compressed ∧ Switch plain compressed := by
  induction h with
  | nil => exact absurd rfl hne
  | singleton v =>
    have hswitch : v.Activates ↔ ([] : List (Visit sink)) ≠ [] :=
      iff_of_false (hlast v rfl) (not_not.mpr rfl)
    exact ⟨[v], [], rfl, .single (hstart v rfl) hswitch (fun _ h => by cases h) .nil⟩
  | @cons_cons v w vs hvw hrest ih =>
    have hv := hstart v rfl
    have hpasses := hvw.of_plaintext hv
    by_cases hactive : v.Activates
    · have hfresh : ∀ u ∈ (w :: vs).head?, u.standing.session = { mode := .compressed } := by
        intro u hu
        obtain rfl : w = u := by simpa using hu
        exact hpasses.switched hactive
      have hswitch : v.Activates ↔ w :: vs ≠ [] := iff_of_true hactive (List.cons_ne_nil _ _)
      exact ⟨[v], w :: vs, rfl, .single hv hswitch hfresh hrest⟩
    · rw [List.getLast?_cons_cons] at hlast
      obtain ⟨plain, compressed, hsplit, hswitch⟩ := ih (List.cons_ne_nil _ _) (fun u hu => by
        obtain rfl : w = u := by simpa using hu
        exact hpasses.stayed hactive) hlast
      exact ⟨v :: plain, compressed, by rw [hsplit]; rfl, hswitch.cons hv hactive⟩

/-- A turn that is not the last one of a run answers its read. -/
theorem exists_leadsTo (h : vs.IsChain Visit.LeadsTo) (hv : v ∈ vs.dropLast) :
    ∃ w, v.LeadsTo w := by
  induction h with
  | nil => cases hv
  | singleton => cases hv
  | cons_cons huw _ ih =>
    rcases List.mem_cons.mp hv with rfl | hv
    · exact ⟨_, huw⟩
    · exact ih hv

theorem Law.leadsTo_or_ends {st : Standing sink} {ending : Ending} (h : Law st ending vs)
    (hv : v ∈ vs) : (∃ w, v.LeadsTo w) ∨ v.Ends ending := by
  obtain ⟨last, hlast, hends⟩ := h.ended
  obtain ⟨front, rfl⟩ := List.getLast?_eq_some_iff.mp hlast
  rcases List.mem_append.mp hv with hfront | hlast
  · exact .inl (exists_leadsTo h.answered (by rwa [List.dropLast_concat]))
  · exact .inr (List.mem_singleton.mp hlast ▸ hends)

theorem Law.exists_switch {ending : Ending} (h : Law {} ending vs) :
    ∃ plain compressed, vs = plain ++ compressed ∧ Switch plain compressed := by
  obtain ⟨first, hfirst, hstart⟩ := h.start
  obtain ⟨last, hlast, hends⟩ := h.ended
  refine switch_of_chain h.answered ?_ ?_ ?_
  · rintro rfl
    cases hfirst
  · intro v hv
    rw [Option.mem_unique hv hfirst, hstart]
  · intro v hv
    rw [Option.mem_unique hv hlast]
    exact hends.not_activates

/-- **Compression is turned on once, for both directions, by the first turn that asks for it and
has its reply written; until then the bytes pass as they are, and from then on they go through one
codec that begins anew.** -/
theorem mode_switch (sink : Sink) (script : List Happening) :
    ∃ plain compressed : List (Visit sink),
      visits {} (readsOf script) = plain ++ compressed
        ∧ (handle sink script).turns = (plain ++ compressed).map Visit.turn
        ∧ Switch plain compressed
        ∧ (∀ v ∈ compressed.head?, v.standing.session.codec.counters = ⟨0, 0, 0⟩)
        ∧ (plain ++ compressed).IsChain Visit.Passes
        ∧ (∀ v ∈ plain, v.Verbatim)
        ∧ (∀ v ∈ compressed, v.Coded)
        ∧ ∀ v ∈ plain, ∀ raw, v.turn.read = .chunk raw →
          (sink.writeAll v.standing.memory (expand raw)).fault ≠ none → compressed = [] := by
  have hlaw := law_visits ({} : Standing sink) (script.flatMap Happening.reads)
  have hturns := serve_turns ({} : Standing sink) (readsOf script)
  obtain ⟨plain, compressed, hsplit, hswitch⟩ := hlaw.exists_switch
  rw [hsplit] at hlaw
  refine ⟨plain, compressed, hsplit, ?_, hswitch, ?_, ?_, ?_, ?_, ?_⟩
  · rw [handle, hturns, ← hsplit]
    rfl
  · intro v hv
    rw [hswitch.fresh v hv]
    rfl
  · exact hlaw.answered.imp fun _ _ h => h.passes
  · intro v hv
    refine Visit.verbatim_of_plaintext (hlaw.leadsTo_or_ends (List.mem_append_left _ hv)) ?_
    rw [hswitch.plaintext v hv]
  · intro v hv
    exact Visit.coded_of_compressed (hlaw.leadsTo_or_ends (List.mem_append_right _ hv))
      (hswitch.compressed v hv)
  · intro v hv raw hread hfault
    by_contra hne
    have hearlier : v ∈ (plain ++ compressed).dropLast := by
      rw [List.dropLast_append_of_ne_nil hne]
      exact List.mem_append_left _ hv
    obtain ⟨w, hw⟩ := exists_leadsTo hlaw.answered hearlier
    exact hfault (hw.fault_eq_none (hswitch.plaintext v hv) hread)

end DeflateEcho.Echo
