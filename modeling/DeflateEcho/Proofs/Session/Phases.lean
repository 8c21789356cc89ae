import DeflateEcho.Proofs.Codec.Requests

/-!
# Proofs/Session/Phases — a session is a new codec as long as it is in compression

Whatever is asked of a session, and in whatever order, its modes only go forward, and its codec sees
nothing but what is decoded and encoded in compression.  `Event.Lawful` says what a single operation
may do, `answers_performAll` that the operations in compression give what a codec gives for them, and
the phases of a whole run follow by induction on its operations.
-/

namespace DeflateEcho

/-- **Where modes lead**: a session stays as it is, turns compression on in plaintext, or closes. -/
inductive Mode.Leads : Mode → Mode → Prop where
  | stay (mode : Mode) : Leads mode mode
  | activate : Leads .plaintext .compressed
  | close (mode : Mode) : Leads mode .closed

theorem Mode.Leads.trans {first second third : Mode} (h : first.Leads second)
    (h' : second.Leads third) : first.Leads third := by
  cases h' with
  | stay => exact h
  | close => exact .close first
  | activate =>
    cases h
    exact .activate

/-- Nothing leads back to plaintext. -/
theorem Mode.Leads.eq_plaintext {mode : Mode} (h : mode.Leads .plaintext) : mode = .plaintext := by
  cases h
  rfl

namespace Session

/-! ## Operations -/

/-- What is asked of a session. -/
inductive Operation where
  | decode (raw : Bytes)
  | encode (reply : Bytes)
  | enableCompression
  | close

/-- What comes of an operation. -/
inductive Outcome where
  | payload (result : Except CodecError Bytes)
  | wire (bytes : Bytes)
  | changed (did : Bool)
  | closed

/-- An operation as it went, with the modes that it found and left. -/
structure Event where
  found : Mode
  operation : Operation
  outcome : Outcome
  left : Mode

/-- What comes of an operation, and how the session then stands. -/
def perform (s : Session) : Operation → Outcome × Session
  | .decode raw => (.payload (s.decode raw).1, (s.decode raw).2)
  | .encode reply => (.wire (s.encode reply).1, (s.encode reply).2)
  | .enableCompression => (.changed s.enableCompression.1, s.enableCompression.2)
  | .close => (.closed, s.close)

/-- The event of an operation. -/
def event (s : Session) (operation : Operation) : Event :=
  ⟨s.mode, operation, (s.perform operation).1, (s.perform operation).2.mode⟩

/-- The events of operations that come one after the other, and how the session then stands. -/
def performAll (s : Session) : List Operation → List Event × Session
  | [] => ([], s)
  | operation :: operations =>
    (s.event operation :: ((s.perform operation).2.performAll operations).1,
      ((s.perform operation).2.performAll operations).2)

theorem performAll_append (s : Session) (first second : List Operation) :
    (s.performAll (first ++ second)).2 = ((s.performAll first).2.performAll second).2 := by
  induction first generalizing s with
  | nil => rfl
  | cons operation first ih => exact ih _

/-- What an event asks of the codec: what is decoded and encoded in compression, and nothing else. -/
def Event.request? (e : Event) : Option Codec.Request :=
  match e.found, e.operation with
  | .compressed, .decode raw => some (.decompress raw)
  | .compressed, .encode reply => some (.compress reply)
  | _, _ => none

/-- What an event in compression got from the codec. -/
def Event.answer? (e : Event) : Option Codec.Answer :=
  match e.found, e.outcome with
  | .compressed, .payload result => some (.result result)
  | .compressed, .wire bytes => some (.frame bytes)
  | _, _ => none

/-! ## One operation -/

/-- **What a session does**, operation by operation.  Outside compression bytes pass as they are; in
compression they go through the codec, which nothing else touches. -/
inductive Does (s : Session) : Operation → Outcome → Session → Prop where
  | passDecoded (h : s.mode ≠ .compressed) (raw : Bytes) :
    Does s (.decode raw) (.payload (.ok raw)) s
  | passEncoded (h : s.mode ≠ .compressed) (reply : Bytes) : Does s (.encode reply) (.wire reply) s
  | decode (h : s.mode = .compressed) (raw : Bytes) :
    Does s (.decode raw) (.payload (s.codec.decompress raw).1)
      { s with codec := (s.codec.decompress raw).2 }
  | encode (h : s.mode = .compressed) (reply : Bytes) :
    Does s (.encode reply) (.wire (s.codec.compress reply).1)
      { s with codec := (s.codec.compress reply).2 }
  | activate (h : s.mode = .plaintext) :
    Does s .enableCompression (.changed true) { s with mode := .compressed }
  | refuse (h : s.mode ≠ .plaintext) : Does s .enableCompression (.changed false) s
  | close : Does s .close .closed { s with mode := .closed }

theorem does_of_perform {s next : Session} {operation : Operation} {outcome : Outcome}
    (h : s.perform operation = (outcome, next)) : s.Does operation outcome next := by
  cases operation with
  | decode raw =>
    by_cases hmode : s.mode = .compressed
    · rw [perform, decode_of_compressed hmode] at h
      cases h
      exact .decode hmode raw
    · rw [perform, decode_of_ne_compressed hmode] at h
      cases h
      exact .passDecoded hmode raw
  | encode reply =>
    by_cases hmode : s.mode = .compressed
    · rw [perform, encode_of_compressed hmode] at h
      cases h
      exact .encode hmode reply
    · rw [perform, encode_of_ne_compressed hmode] at h
      cases h
      exact .passEncoded hmode reply
  | enableCompression =>
    by_cases hmode : s.mode = .plaintext
    · rw [perform, enableCompression_of_plaintext hmode] at h
      cases h
      exact .activate hmode
    · rw [perform, enableCompression_of_ne_plaintext hmode] at h
      cases h
      exact .refuse hmode
  | close =>
    cases h
    exact .close

/-- What a single operation may show, whatever came before it. -/
structure Event.Lawful (e : Event) : Prop where
  leads : e.found.Leads e.left
  activates : e.outcome = .changed true ↔ e.found = .plaintext ∧ e.left = .compressed
  decoded : ∀ raw, e.found ≠ .compressed → e.operation = .decode raw →
    e.outcome = .payload (.ok raw)
  encoded : ∀ reply, e.found ≠ .compressed → e.operation = .encode reply →
    e.outcome = .wire reply
  failed : ∀ error, e.outcome = .payload (.error error) →
    e.found = .compressed ∧ e.left = .compressed

theorem lawful_event (s : Session) (operation : Operation) : (s.event operation).Lawful := by
  rcases hperform : s.perform operation with ⟨outcome, next⟩
  rw [event, hperform]
  cases does_of_perform hperform with
  | passDecoded h raw => constructor <;> simp_all [Mode.Leads.stay]
  | passEncoded h reply => constructor <;> simp_all [Mode.Leads.stay]
  | decode h raw => constructor <;> simp_all [Mode.Leads.stay]
  | encode h reply => constructor <;> simp_all [Mode.Leads.stay]
  | activate h => constructor <;> simp_all [Mode.Leads.activate]
  | refuse h => constructor <;> simp_all [Mode.Leads.stay]
  | close => constructor <;> simp_all [Mode.Leads.close]

/-- Out of compression, nothing is asked of the codec. -/
theorem not_coded {mode : Mode} (h : mode ≠ .compressed) (operation : Operation)
    (outcome : Outcome) (left : Mode) :
    (Event.mk mode operation outcome left).request? = none
      ∧ (Event.mk mode operation outcome left).answer? = none := by
  cases mode with
  | compressed => exact absurd rfl h
  | _ => exact ⟨rfl, rfl⟩

/-- **What an operation does in compression is asked of the codec**, which is left alone by all
others. -/
theorem coded_event (s : Session) (operation : Operation) :
    (s.event operation).answer?.toList
        = (s.codec.answerAll (s.event operation).request?.toList).1
      ∧ (s.perform operation).2.codec
        = (s.codec.answerAll (s.event operation).request?.toList).2 := by
  rcases hperform : s.perform operation with ⟨outcome, next⟩
  rw [event, hperform]
  cases does_of_perform hperform with
  | passDecoded h raw => simp [not_coded h, Codec.answerAll]
  | passEncoded h reply => simp [not_coded h, Codec.answerAll]
  | decode h raw => simp [Event.request?, Event.answer?, h, Codec.answerAll, Codec.answer]
  | encode h reply => simp [Event.request?, Event.answer?, h, Codec.answerAll, Codec.answer]
  | activate h => simp [Event.request?, Event.answer?, h, Codec.answerAll]
  | refuse h => simp [Event.request?, Event.answer?, Codec.answerAll]
  | close => simp [Event.request?, Event.answer?, Codec.answerAll]

/-! ## Any operations -/

/-- What some events ask of the codec, in their order. -/
def requests (events : List Event) : List Codec.Request := events.filterMap Event.request?

/-- What some events got from the codec, in their order. -/
def answers (events : List Event) : List Codec.Answer := events.filterMap Event.answer?

theorem requests_cons (e : Event) (events : List Event) :
    requests (e :: events) = e.request?.toList ++ requests events := by
  simp only [requests, List.filterMap_eq_flatMap_toList, List.flatMap_cons]

theorem answers_cons (e : Event) (events : List Event) :
    answers (e :: events) = e.answer?.toList ++ answers events := by
  simp only [answers, List.filterMap_eq_flatMap_toList, List.flatMap_cons]

/-- **A session's codec answers what is asked of it in compression, and stands as if it had been
asked for nothing else.** -/
theorem answers_performAll (s : Session) (operations : List Operation) :
    answers (s.performAll operations).1
        = (s.codec.answerAll (requests (s.performAll operations).1)).1
      ∧ (s.performAll operations).2.codec
        = (s.codec.answerAll (requests (s.performAll operations).1)).2 := by
  induction operations generalizing s with
  | nil => exact ⟨rfl, rfl⟩
  | cons operation operations ih =>
    obtain ⟨hanswer, hcodec⟩ := s.coded_event operation
    obtain ⟨hanswers, hfinal⟩ := ih (s.perform operation).2
    rw [hcodec] at hanswers hfinal
    rw [performAll, requests_cons, answers_cons, Codec.answerAll_append, ← hanswer, ← hanswers]
    exact ⟨rfl, hfinal⟩

theorem lawful_performAll (s : Session) (operations : List Operation) :
    ∀ e ∈ (s.performAll operations).1, e.Lawful := by
  induction operations generalizing s with
  | nil => exact fun e h => absurd h List.not_mem_nil
  | cons operation operations ih =>
    exact List.forall_mem_cons.mpr ⟨s.lawful_event operation, ih _⟩

/-- **Modes only go forward**: each leads to all that come after it. -/
theorem pairwise_leads (s : Session) (operations : List Operation) :
    (s.mode :: (s.performAll operations).1.map Event.left).Pairwise Mode.Leads := by
  induction operations generalizing s with
  | nil => exact List.pairwise_singleton _ _
  | cons operation operations ih =>
    have hfirst : s.mode.Leads (s.perform operation).2.mode := (s.lawful_event operation).leads
    have hrest := ih (s.perform operation).2
    refine .cons (List.forall_mem_cons.mpr ⟨hfirst, fun mode hmode => ?_⟩) hrest
    exact hfirst.trans (List.rel_of_pairwise_cons hrest hmode)

/-- Out of plaintext, compression is not turned on any more. -/
theorem not_activates {s : Session} (h : s.mode ≠ .plaintext) (operations : List Operation) :
    ∀ e ∈ (s.performAll operations).1, e.outcome ≠ .changed true := by
  induction operations generalizing s with
  | nil => exact fun e h => absurd h List.not_mem_nil
  | cons operation operations ih =>
    have hlawful := s.lawful_event operation
    refine List.forall_mem_cons.mpr ⟨fun hactive => h (hlawful.activates.mp hactive).1, ih ?_⟩
    intro hplain
    have hleads : s.mode.Leads (s.perform operation).2.mode := hlawful.leads
    rw [hplain] at hleads
    exact h hleads.eq_plaintext

/-- **Compression is turned on once at most.** -/
theorem pairwise_activates (s : Session) (operations : List Operation) :
    (s.performAll operations).1.Pairwise fun e later =>
      e.outcome = .changed true → later.outcome ≠ .changed true := by
  induction operations generalizing s with
  | nil => exact .nil
  | cons operation operations ih =>
    refine .cons (fun later hlater hactive => ?_) (ih _)
    have hleft : (s.perform operation).2.mode = .compressed :=
      ((s.lawful_event operation).activates.mp hactive).2
    exact not_activates (by simp [hleft]) operations later hlater

/-- **A session is a new codec, restricted to what is asked of it in compression.**  Its modes only
go forward, from plaintext on.  Compression is turned on once at most, exactly where the mode changes
to it.  Outside compression bytes pass as they are.  In compression, the operations give what a new
codec gives that is asked for them alone, and leave it as they leave the session's codec, its counters
included; a failure keeps the session in compression, and whatever is decoded, what is encoded is
compressed as if it were all. -/
theorem codec_in_compression (operations : List Operation) :
    let events := (({} : Session).performAll operations).1
    let final := (({} : Session).performAll operations).2
    (Mode.plaintext :: events.map Event.left).Pairwise Mode.Leads
      ∧ (∀ e ∈ events, e.Lawful)
      ∧ (events.Pairwise fun e later =>
        e.outcome = .changed true → later.outcome ≠ .changed true)
      ∧ answers events = (({} : Codec).answerAll (requests events)).1
      ∧ final.codec = (({} : Codec).answerAll (requests events)).2
      ∧ Codec.frames (answers events)
        = (({} : Codec).compressAll (Codec.messages (requests events))).1
      ∧ final.codec.counters.compressed = (Codec.messages (requests events)).flatten.length := by
  obtain ⟨hanswers, hcodec⟩ := answers_performAll {} operations
  obtain ⟨hframes, hcompressed⟩ :=
    Codec.frames_answerAll (c := {}) (d := {}) rfl (requests (({} : Session).performAll operations).1)
  refine ⟨pairwise_leads {} operations, lawful_performAll {} operations,
    pairwise_activates {} operations, hanswers, hcodec, ?_, ?_⟩
  · rw [hanswers]
    exact hframes
  · rw [hcodec]
    exact (hcompressed.trans (Codec.compressed_compressAll {} _)).trans (Nat.zero_add _)

end Session

end DeflateEcho
