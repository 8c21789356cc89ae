import DeflateEcho.Proofs.Echo.ModeSwitch

/-!
# Proofs/Echo/Log — the log of a connection tells what happened

What is logged about a read that is answered is known in full (`answerLog`), and so is what is
logged about the one that ends the connection (`Closes`).  By the law of a run the log is then a row
of the former with one of the latter behind it, and falls into a part in plaintext and a part in
compression like the run itself.  `log_tells` says what can be read off it.
-/

namespace DeflateEcho.Echo

variable {sink : Sink} {v w : Visit sink} {vs : List (Visit sink)}

/-! ## What is logged about one read -/

/-- What is logged about a read that is answered. -/
def answerLog (st : Standing sink) (raw payload sent : Bytes) : List LogEvent :=
  [.readChunk raw.length st.session.mode, .received (payloadText payload), .sentReply sent.length]
    ++ if compressToken <+: payload ∧ st.session.mode = .plaintext then [.compressionEnabled] else []

/-- **What is logged about a read that ends the connection**, in this way: nothing is logged ahead
of what it depends on. -/
inductive Closes (st : Standing sink) : Read → Ending → List LogEvent → Prop where
  | readFails (fault : Fault) : Closes st (.fault fault) (.failed (.stream fault)) []
  | decodeFails {raw : Bytes} {error : CodecError}
    (hdecode : (st.session.decode raw).1 = .error error) :
    Closes st (.chunk raw) (.failed (.codec error)) [.readChunk raw.length st.session.mode]
  | emptyPayload {raw : Bytes} (hdecode : (st.session.decode raw).1 = .ok []) :
    Closes st (.chunk raw) .peerClosed [.readChunk raw.length st.session.mode, .closedByClient]
  | disconnect {raw payload : Bytes} (hdecode : (st.session.decode raw).1 = .ok payload)
    (hne : payload ≠ []) :
    Closes st (.chunk raw) .disconnect
      [.readChunk raw.length st.session.mode, .received (payloadText payload), .disconnectRequested]
  | writeFails {raw payload : Bytes} {fault : Fault}
    (hdecode : (st.session.decode raw).1 = .ok payload) (hne : payload ≠ []) :
    Closes st (.chunk raw) (.failed (.stream fault))
      [.readChunk raw.length st.session.mode, .received (payloadText payload)]

theorem settle_snd (s : Session) (payload : Bytes) :
    (settle s (compressToken.isPrefixOf payload)).2
      = if compressToken <+: payload ∧ s.mode = .plaintext then [.compressionEnabled] else [] := by
  unfold settle
  by_cases htoken : compressToken <+: payload
  · rw [if_pos (List.isPrefixOf_iff_prefix.mpr htoken)]
    by_cases hmode : s.mode = .plaintext
    · rw [if_pos ⟨htoken, hmode⟩, Session.enableCompression_of_plaintext hmode]
    · rw [if_neg fun h => hmode h.2, Session.enableCompression_of_ne_plaintext hmode]
  · rw [if_neg (by simpa using htoken), if_neg fun h => htoken h.1]

/-- Decoding what was read and encoding a reply leave the mode as it is. -/
theorem Standing.mode_passed (st : Standing sink) (raw reply : Bytes) :
    (st.passed raw reply).mode = st.session.mode := by
  by_cases hmode : st.session.mode = .compressed
  · rw [passed_of_compressed hmode, hmode]
  · rw [passed_of_decode (Session.decode_of_ne_compressed hmode raw),
      Session.encode_of_ne_compressed hmode]

theorem Answers.log_turn {st next : Standing sink} {raw payload sent : Bytes}
    (h : Answers st raw payload sent next) :
    (turn sink st.session st.memory (.chunk raw)).1.log = answerLog st raw payload sent := by
  have hdecode : st.session.decode raw = (.ok payload, _) := Prod.ext h.decoded rfl
  have hreceive := receive_of_payload hdecode h.nonempty
  rw [if_neg h.stays] at hreceive
  have hturn := turn_of_reply hreceive rfl
  rw [← Standing.encoded_of_decode hdecode, ← Standing.passed_of_decode hdecode, h.encoded,
    h.written] at hturn
  rw [hturn, settle_snd, Standing.mode_passed]
  rfl

theorem Stops.closes {st : Standing sink} {read : Read} {ending : Ending} {part : Bytes}
    (h : Stops st read ending part) :
    Closes st read ending (turn sink st.session st.memory read).1.log := by
  cases h with
  | readFails fault => exact .readFails fault
  | decodeFails hdecode =>
    rw [turn_of_stop (receive_of_error (Prod.ext hdecode rfl))]
    exact .decodeFails hdecode
  | emptyPayload hdecode =>
    rw [turn_of_stop (receive_of_empty (Prod.ext hdecode rfl))]
    exact .emptyPayload hdecode
  | disconnect hdecode htoken =>
    have hne := List.ne_nil_of_length_pos (Nat.lt_of_lt_of_le (by decide) htoken.length_le)
    have hreceive := receive_of_payload (Prod.ext hdecode rfl) hne
    rw [if_pos htoken] at hreceive
    rw [turn_of_stop hreceive]
    exact .disconnect hdecode hne
  | @writeFails raw payload part fault hdecode hne hstays hfault =>
    have hdecoded : st.session.decode raw = (.ok payload, _) := Prod.ext hdecode rfl
    have hreceive := receive_of_payload hdecoded hne
    rw [if_neg hstays] at hreceive
    have hturn := turn_of_reply hreceive rfl
    rw [← Standing.encoded_of_decode hdecoded, hfault] at hturn
    rw [hturn]
    exact .writeFails hdecode hne

/-! ## What is logged in a run -/

/-- **Visits with what is logged about them**: some that are answered, and one that ends the
connection. -/
inductive Recorded (ending : Ending) : List (Visit sink) → Prop where
  | ends {v : Visit sink} (hends : v.Ends ending)
    (hlog : Closes v.standing v.turn.read ending v.turn.log) : Recorded ending [v]
  | goesOn {v : Visit sink} {next : Standing sink} {raw payload : Bytes} {vs : List (Visit sink)}
    (hread : v.turn.read = .chunk raw) (hanswers : Answers v.standing raw payload v.turn.sent next)
    (hlog : v.turn.log = answerLog v.standing raw payload v.turn.sent)
    (hrest : Recorded ending vs) : Recorded ending (v :: vs)

theorem Stops.recorded {st : Standing sink} {read : Read} {ending : Ending} {part : Bytes}
    {log : List LogEvent} (h : Stops st read ending part)
    (hturn : turn sink st.session st.memory read = (⟨read, part, log⟩, .ends ending)) :
    Recorded ending [⟨st, ⟨read, part, log⟩⟩] := by
  have hlog := h.closes
  rw [hturn] at hlog
  exact .ends ⟨h, fun _ _ h' => h'.ending_eq h⟩ hlog

/-- Everything that is logged while reads are served is as it should be. -/
theorem recorded_visits (st : Standing sink) (reads : List Read) :
    Recorded (serve sink st.session st.memory (reads ++ [.chunk []])).ending
      (visits st (reads ++ [.chunk []])) := by
  induction reads generalizing st with
  | nil =>
    obtain ⟨raw, payload, sent, next, log, hread, h, -⟩ | ⟨ending, part, log, hstops, hturn⟩ :=
      turn_cases st (.chunk [])
    · obtain rfl : [] = raw := Read.chunk.inj hread
      exact absurd h (not_answers_nil st next payload sent)
    · rw [List.nil_append, serve_of_ends hturn, visits_of_ends hturn]
      exact hstops.recorded hturn
  | cons read reads ih =>
    rw [List.cons_append]
    obtain ⟨raw, payload, sent, next, log, rfl, h, hturn⟩ | ⟨ending, part, log, hstops, hturn⟩ :=
      turn_cases st read
    · have hlog := h.log_turn
      rw [hturn] at hlog
      rw [serve_of_goesOn hturn, visits_of_goesOn hturn]
      exact .goesOn rfl h hlog (ih next)
    · rw [serve_of_ends hturn, visits_of_ends hturn]
      exact hstops.recorded hturn

/-- All that is logged in some visits. -/
def told (vs : List (Visit sink)) : List LogEvent := vs.flatMap fun v => v.turn.log

theorem told_nil : told ([] : List (Visit sink)) = [] := rfl

theorem told_cons (v : Visit sink) (vs : List (Visit sink)) :
    told (v :: vs) = v.turn.log ++ told vs := List.flatMap_cons

theorem told_append (vs ws : List (Visit sink)) : told (vs ++ ws) = told vs ++ told ws :=
  List.flatMap_append

theorem told_singleton (v : Visit sink) : told [v] = v.turn.log := List.flatMap_singleton ..

/-- The log of a run is what is logged in its visits. -/
theorem log_handle (sink : Sink) (script : List Happening) :
    (handle sink script).log = told (visits ({} : Standing sink) (readsOf script)) := by
  rw [Run.log, handle, serve_turns ({} : Standing sink), List.flatMap_map]
  rfl

/-- **What can be said of every visit in one way is said in the log visit by visit.** -/
theorem Recorded.filterMap_told {α : Type} {look : LogEvent → Option α}
    {said : Visit sink → Option α} {ending : Ending}
    (hcloses : ∀ v, Closes v.standing v.turn.read ending v.turn.log →
      v.turn.log.filterMap look = (said v).toList)
    (hanswers : ∀ v raw payload next, v.turn.read = .chunk raw →
      Answers v.standing raw payload v.turn.sent next →
      (answerLog v.standing raw payload v.turn.sent).filterMap look = (said v).toList)
    (h : Recorded ending vs) : (told vs).filterMap look = vs.filterMap said := by
  induction h with
  | @ends v hends hlog =>
    rw [told_singleton, hcloses v hlog]
    cases hsaid : said v <;> simp [hsaid]
  | @goesOn v next raw payload vs hread hanswered hlog hrest ih =>
    rw [told_cons, List.filterMap_append, ih, hlog, hanswers v raw payload next hread hanswered,
      List.filterMap_cons]
    cases said v <;> rfl

/-! ### Reads -/

/-- What an event says of a read: how much it gave, and the mode before it. -/
def LogEvent.arrival? : LogEvent → Option (Nat × Mode)
  | readChunk bytes mode => some (bytes, mode)
  | _ => none

/-- What there is to say of the read of a visit, if it gave something. -/
def Visit.arrival? (v : Visit sink) : Option (Nat × Mode) :=
  match v.turn.read with
  | .chunk raw => some (raw.length, v.standing.session.mode)
  | .fault _ => none

theorem filterMap_answerLog (st : Standing sink) (raw payload sent : Bytes) :
    (answerLog st raw payload sent).filterMap LogEvent.arrival?
      = [(raw.length, st.session.mode)] := by
  unfold answerLog
  split <;> rfl

theorem Closes.filterMap_log {ending : Ending}
    (h : Closes v.standing v.turn.read ending v.turn.log) :
    v.turn.log.filterMap LogEvent.arrival? = v.arrival?.toList := by
  unfold Visit.arrival?
  generalize v.turn.read = read, v.turn.log = log at h
  cases h <;> rfl

/-- **One event for each read that gave something.** -/
theorem Recorded.arrivals_told {ending : Ending} (h : Recorded ending vs) :
    (told vs).filterMap LogEvent.arrival? = vs.filterMap Visit.arrival? := by
  refine h.filterMap_told (fun v hcloses => hcloses.filterMap_log) ?_
  intro v raw payload next hread _
  rw [filterMap_answerLog, Visit.arrival?, hread]
  rfl

/-! ### What follows a read -/

/-- The reply to what was read is written completely. -/
def Visit.RepliesInFull (v : Visit sink) (raw : Bytes) : Prop :=
  ∃ payload, (v.standing.session.decode raw).1 = .ok payload ∧ payload ≠ []
    ∧ v.turn.sent = v.standing.encoded raw (expand payload)

/-- **What the log goes on with behind a read**: the text of the payload if there is one, the size
of the reply if that was written completely, and that compression is on if this read turned it
on. -/
structure Visit.FollowedBy (v : Visit sink) (raw : Bytes) (rest : List LogEvent) : Prop where
  received : ∀ text, [.received text] <+: rest
    ↔ ∃ payload, (v.standing.session.decode raw).1 = .ok payload ∧ payload ≠ []
      ∧ text = payloadText payload
  sentReply : ∀ text bytes, [.received text, .sentReply bytes] <+: rest
    ↔ [.received text] <+: rest ∧ v.RepliesInFull raw ∧ bytes = v.turn.sent.length
  enabled : ∀ text bytes, [.received text, .sentReply bytes, .compressionEnabled] <+: rest
    ↔ [.received text, .sentReply bytes] <+: rest ∧ v.Activates
      ∧ v.standing.session.mode = .plaintext

/-- Behind a read without a full reply nothing is said of one. -/
theorem Visit.FollowedBy.of_unreplied {raw : Bytes} {rest : List LogEvent}
    (hreceived : ∀ text, [.received text] <+: rest
      ↔ ∃ payload, (v.standing.session.decode raw).1 = .ok payload ∧ payload ≠ []
        ∧ text = payloadText payload)
    (hunreplied : ¬ v.RepliesInFull raw)
    (hnone : ∀ text bytes, ¬ [.received text, .sentReply bytes] <+: rest) :
    v.FollowedBy raw rest where
  received := hreceived
  sentReply := fun text bytes => iff_of_false (hnone text bytes) fun h => hunreplied h.2.1
  enabled := fun text bytes => iff_of_false
    (fun h => hnone text bytes ((List.prefix_append [_, _] [_]).trans h))
    (fun h => hnone text bytes h.1)

/-- A read that ends the connection gets no full reply. -/
theorem Visit.Ends.not_repliesInFull {ending : Ending} {raw : Bytes} (h : v.Ends ending)
    (hread : v.turn.read = .chunk raw) : ¬ v.RepliesInFull raw := by
  rintro ⟨payload, hdecoded, hne, hsent⟩
  have hstops := h.stops
  have hencoded := v.standing.encoded_ne_nil raw (expand_ne_nil hne)
  rw [hread] at hstops
  generalize v.turn.sent = part at hstops hsent
  cases hstops with
  | decodeFails hdecode => simp_all
  | emptyPayload hdecode => simp_all
  | disconnect => exact hencoded hsent.symm
  | writeFails hdecode _ _ _ _ hcut =>
    obtain rfl := Except.ok.inj (hdecode.symm.trans hdecoded)
    exact hcut hsent

theorem followedBy_of_ends {ending : Ending} {raw : Bytes} (hends : v.Ends ending)
    (hlog : Closes v.standing v.turn.read ending v.turn.log) (hread : v.turn.read = .chunk raw) :
    ∃ rest, v.turn.log = .readChunk raw.length v.standing.session.mode :: rest
      ∧ v.FollowedBy raw rest := by
  have hunreplied := hends.not_repliesInFull hread
  rw [hread] at hlog
  generalize v.turn.log = log at hlog
  cases hlog with
  | decodeFails hdecode =>
    exact ⟨_, rfl, .of_unreplied (by simp [hdecode]) hunreplied (by simp)⟩
  | emptyPayload hdecode =>
    exact ⟨_, rfl, .of_unreplied (by simp [hdecode]) hunreplied (by simp)⟩
  | disconnect hdecode hne =>
    exact ⟨_, rfl, .of_unreplied (by simp [hdecode, hne]) hunreplied (by simp)⟩
  | writeFails hdecode hne =>
    exact ⟨_, rfl, .of_unreplied (by simp [hdecode, hne]) hunreplied (by simp)⟩

/-- The log of visits begins with a read. -/
theorem Recorded.head_told {ending : Ending} (h : Recorded ending vs) :
    ∀ event ∈ (told vs).head?, ∃ bytes mode, event = .readChunk bytes mode := by
  cases h with
  | @ends v hends hlog =>
    rw [told_singleton]
    generalize v.turn.read = read, v.turn.log = log at hlog
    cases hlog <;> simp
  | goesOn hread hanswers hlog hrest =>
    rw [told_cons, hlog, answerLog]
    simp

theorem followedBy_of_answers {next : Standing sink} {ending : Ending} {raw payload : Bytes}
    (hread : v.turn.read = .chunk raw) (hanswers : Answers v.standing raw payload v.turn.sent next)
    (hlog : v.turn.log = answerLog v.standing raw payload v.turn.sent)
    (hrest : Recorded ending vs) :
    ∃ rest, v.turn.log ++ told vs = .readChunk raw.length v.standing.session.mode :: rest
      ∧ v.FollowedBy raw rest := by
  have hactivates : v.Activates ↔ compressToken <+: payload :=
    Visit.activates_iff (w := ⟨next, v.turn⟩) hread hanswers
  have hfull : v.RepliesInFull raw :=
    ⟨payload, hanswers.decoded, hanswers.nonempty, hanswers.encoded.symm⟩
  -- the next event, if there is one, is a read again
  have hhead : ¬ [.compressionEnabled] <+: told vs := by
    rintro ⟨behind, h⟩
    obtain ⟨bytes, mode, hevent⟩ := hrest.head_told .compressionEnabled (by rw [← h]; rfl)
    cases hevent
  rw [hlog, answerLog]
  refine ⟨_, rfl, ?_, ?_, ?_⟩
  · simp [hanswers.decoded, hanswers.nonempty]
  · simp [hfull]
  · intro text bytes
    split
    · next h => simp [hactivates, h]
    · next h =>
      have hnot : ¬ (v.Activates ∧ v.standing.session.mode = .plaintext) := by rwa [hactivates]
      simp [hnot, hhead]

theorem Recorded.tail {ending : Ending} (h : Recorded ending (v :: vs)) (hne : vs ≠ []) :
    Recorded ending vs := by
  cases h with
  | ends => exact absurd rfl hne
  | goesOn _ _ _ hrest => exact hrest

/-- What is recorded behind some visits is recorded as well. -/
theorem Recorded.behind {ending : Ending} {before : List (Visit sink)}
    (h : Recorded ending (before ++ vs)) (hne : vs ≠ []) : Recorded ending vs := by
  induction before with
  | nil => exact h
  | cons u before ih => exact ih (h.tail (List.append_ne_nil_of_right_ne_nil _ hne))

/-- **Behind every read the log goes on as it should.** -/
theorem Recorded.followedBy {ending : Ending} {before after : List (Visit sink)} {raw : Bytes}
    (h : Recorded ending (before ++ v :: after)) (hread : v.turn.read = .chunk raw) :
    ∃ rest, told (before ++ v :: after)
        = told before ++ .readChunk raw.length v.standing.session.mode :: rest
      ∧ v.FollowedBy raw rest := by
  obtain ⟨rest, hrest, hfollowed⟩ : ∃ rest, told (v :: after)
      = .readChunk raw.length v.standing.session.mode :: rest ∧ v.FollowedBy raw rest := by
    rw [told_cons]
    cases h.behind (List.cons_ne_nil v after) with
    | ends hends hlog =>
      rw [told_nil, List.append_nil]
      exact followedBy_of_ends hends hlog hread
    | goesOn hread' hanswers hlog hrest =>
      obtain rfl := Read.chunk.inj (hread'.symm.trans hread)
      exact followedBy_of_answers hread hanswers hlog hrest
  exact ⟨rest, by rw [told_append, hrest], hfollowed⟩

/-! ### How the log ends -/

/-- The events that say how a connection ended are logged only if it ended so. -/
theorem Recorded.ending_of_mem {ending : Ending} (h : Recorded ending vs) :
    (.closedByClient ∈ told vs → ending = .peerClosed)
      ∧ (.disconnectRequested ∈ told vs → ending = .disconnect) := by
  induction h with
  | @ends v hends hlog =>
    rw [told_singleton]
    generalize v.turn.read = read, v.turn.log = log at hlog
    cases hlog <;> simp
  | goesOn hread hanswers hlog hrest ih =>
    rw [told_cons, hlog, answerLog]
    split <;> simpa using ih

/-- They are the last thing that is logged. -/
theorem Recorded.getLast?_told {ending : Ending} (h : Recorded ending vs) :
    (ending = .peerClosed → (told vs).getLast? = some .closedByClient)
      ∧ (ending = .disconnect → (told vs).getLast? = some .disconnectRequested) := by
  induction h with
  | @ends v hends hlog =>
    rw [told_singleton]
    generalize v.turn.read = read, v.turn.log = log at hlog
    cases hlog <;> simp
  | goesOn hread hanswers hlog hrest ih =>
    rw [told_cons, List.getLast?_append]
    refine ⟨fun hending => ?_, fun hending => ?_⟩
    · rw [ih.1 hending, Option.some_or]
    · rw [ih.2 hending, Option.some_or]

/-! ### Where compression is turned on -/

theorem Recorded.mode_of_mem {ending : Ending} (h : Recorded ending vs) :
    ∀ v ∈ vs, ∀ bytes mode, .readChunk bytes mode ∈ v.turn.log → mode = v.standing.session.mode := by
  induction h with
  | @ends v hends hlog =>
    refine List.forall_mem_singleton.mpr ?_
    generalize v.turn.read = read, v.turn.log = log at hlog
    cases hlog <;> simp
  | goesOn hread hanswers hlog hrest ih =>
    refine List.forall_mem_cons.mpr ⟨?_, ih⟩
    rw [hlog, answerLog]
    split <;> simp

/-- What turns compression on is logged, and nothing else is logged as if it did. -/
theorem Recorded.enabled_mem_iff {ending : Ending} (h : Recorded ending vs) :
    ∀ v ∈ vs, (.compressionEnabled ∈ v.turn.log
      ↔ v.Activates ∧ v.standing.session.mode = .plaintext) := by
  induction h with
  | @ends v hends hlog =>
    refine List.forall_mem_singleton.mpr (iff_of_false ?_ fun h => hends.not_activates h.1)
    generalize v.turn.read = read, v.turn.log = log at hlog
    cases hlog <;> simp
  | @goesOn v next raw payload vs hread hanswers hlog hrest ih =>
    refine List.forall_mem_cons.mpr ⟨?_, ih⟩
    have hactivates : v.Activates ↔ compressToken <+: payload :=
      Visit.activates_iff (w := ⟨next, v.turn⟩) hread hanswers
    rw [hactivates, hlog, answerLog]
    split
    · next h => simp [h]
    · next h => simp [h]

/-- What is logged of reads in one mode reports that mode. -/
theorem Recorded.mode_of_arrival {ending : Ending} {us : List (Visit sink)} {mode : Mode}
    (h : Recorded ending vs) (hus : us ⊆ vs)
    (hmode : ∀ v ∈ us, v.standing.session.mode = mode) :
    ∀ arrival ∈ (told us).filterMap LogEvent.arrival?, arrival.2 = mode := by
  intro arrival harrival
  obtain ⟨event, hevent, hsome⟩ := List.mem_filterMap.mp harrival
  obtain ⟨v, hv, hlog⟩ := List.mem_flatMap.mp hevent
  cases event with
  | readChunk bytes mode' =>
    obtain rfl := Option.some.inj hsome
    rw [h.mode_of_mem v (hus hv) bytes mode' hlog, hmode v hv]
  | _ => cases hsome

/-- Where no visit turns compression on, nothing is logged as if it did. -/
theorem Recorded.enabled_notMem {ending : Ending} {us : List (Visit sink)}
    (h : Recorded ending vs) (hus : us ⊆ vs)
    (hquiet : ∀ v ∈ us, v.standing.session.mode = .plaintext → ¬ v.Activates) :
    .compressionEnabled ∉ told us := by
  intro hmem
  obtain ⟨v, hv, hlog⟩ := List.mem_flatMap.mp hmem
  obtain ⟨hactivates, hmode⟩ := (h.enabled_mem_iff v (hus hv)).mp hlog
  exact hquiet v hv hmode hactivates

section Switched

variable {plain compressed : List (Visit sink)}

/-- Before the switch the mode is plaintext, behind it compression. -/
theorem Switch.mode_plaintext (h : Switch plain compressed) :
    ∀ v ∈ plain, v.standing.session.mode = .plaintext := by
  intro v hv
  rw [h.plaintext v hv]

/-- Of the visits before the switch only the last one may turn compression on. -/
theorem Switch.exists_last (h : Switch plain compressed) :
    ∃ earlier v, plain = earlier ++ [v] ∧ (∀ u ∈ earlier, ¬ u.Activates)
      ∧ (v.Activates ↔ compressed ≠ []) := by
  obtain ⟨earlier, v, rfl⟩ := (List.eq_nil_or_concat plain).resolve_left h.nonempty
  have hquiet := h.quiet
  rw [List.concat_eq_append, List.dropLast_concat] at hquiet
  exact ⟨earlier, v, List.concat_eq_append, hquiet, h.switches v (by simp)⟩

/-- **The log in two parts**, with the event that compression is on between them, or without it. -/
theorem Recorded.told_cases {ending : Ending} (h : Recorded ending (plain ++ compressed))
    (hswitch : Switch plain compressed) :
    (compressed = [] ∧ .compressionEnabled ∉ told plain)
    ∨ ∃ earlier v raw payload, plain = earlier ++ [v] ∧ v.turn.read = .chunk raw ∧ v.Activates
      ∧ told (plain ++ compressed) = (told earlier ++ [.readChunk raw.length .plaintext,
          .received (payloadText payload), .sentReply v.turn.sent.length])
        ++ .compressionEnabled :: told compressed
      ∧ .compressionEnabled ∉ told earlier ∧ .compressionEnabled ∉ told compressed := by
  have hplain := hswitch.mode_plaintext
  obtain ⟨earlier, v, rfl, hquiet, hlast⟩ := hswitch.exists_last
  have hearlier : .compressionEnabled ∉ told earlier :=
    h.enabled_notMem (by simp) fun u hu _ => hquiet u hu
  by_cases hne : compressed = []
  · refine .inl ⟨hne, h.enabled_notMem (by simp) fun u hu _ => ?_⟩
    rcases List.mem_append.mp hu with hu | hu
    · exact hquiet u hu
    · obtain rfl := List.mem_singleton.mp hu
      exact fun hactivates => hlast.mp hactivates hne
  · have hcompressed : .compressionEnabled ∉ told compressed :=
      h.enabled_notMem (by simp) fun u hu hmode => by
        rw [hswitch.compressed u hu] at hmode
        cases hmode
    have hactivates := hlast.mpr hne
    rw [List.append_assoc] at h
    cases h.behind (List.cons_ne_nil v compressed) with
    | ends => exact absurd rfl hne
    | @goesOn _ next raw payload _ hread hanswers hlog hrest =>
      have htoken := (Visit.activates_iff (w := ⟨next, v.turn⟩) hread hanswers).mp hactivates
      have hmode := hplain v (by simp)
      refine .inr ⟨earlier, v, raw, payload, rfl, hread, hactivates, ?_, hearlier, hcompressed⟩
      rw [answerLog, if_pos ⟨htoken, hmode⟩, hmode] at hlog
      rw [told_append, told_append, told_singleton, hlog]
      simp only [List.append_assoc, List.cons_append, List.nil_append]

end Switched

/-! ## The log of a run -/

/-- **What can be read off a log**, of these visits and this ending. -/
structure LogTells (vs : List (Visit sink)) (ending : Ending) (log : List LogEvent) : Prop where
  /-- There is one event for each read that gave something: how much it gave, and the mode in which
  it found the session. -/
  reads : log.filterMap LogEvent.arrival? = vs.filterMap Visit.arrival?
  modes : ∃ m n, (log.filterMap LogEvent.arrival?).map Prod.snd
    = List.replicate m .plaintext ++ List.replicate n .compressed
  follows : ∀ before v after raw, vs = before ++ v :: after → v.turn.read = .chunk raw →
    ∃ rest, log = told before ++ .readChunk raw.length v.standing.session.mode :: rest
      ∧ v.FollowedBy raw rest
  once : log.count .compressionEnabled ≤ 1
  /-- That compression is on comes right behind the reply to the read that turned it on, between the
  reads in plaintext and those in compression. -/
  enabled : ∀ before after, log = before ++ .compressionEnabled :: after →
    (∃ earlier v later raw payload, vs = earlier ++ v :: later ∧ v.turn.read = .chunk raw
      ∧ v.Activates
      ∧ before = told earlier ++ [.readChunk raw.length .plaintext,
          .received (payloadText payload), .sentReply v.turn.sent.length]
      ∧ after = told later)
    ∧ (∀ arrival ∈ before.filterMap LogEvent.arrival?, arrival.2 = .plaintext)
    ∧ ∀ arrival ∈ after.filterMap LogEvent.arrival?, arrival.2 = .compressed
  plain : .compressionEnabled ∉ log →
    ∀ arrival ∈ log.filterMap LogEvent.arrival?, arrival.2 = .plaintext
  closed : log.getLast? = some .closedByClient ↔ ending = .peerClosed
  disconnected : log.getLast? = some .disconnectRequested ↔ ending = .disconnect
  failed : ∀ error, ending = .failed error →
    .closedByClient ∉ log ∧ .disconnectRequested ∉ log

/-- **A run with a switch in it has a log that tells of it.** -/
theorem Recorded.logTells {ending : Ending} {plain compressed : List (Visit sink)}
    (h : Recorded ending (plain ++ compressed)) (hswitch : Switch plain compressed) :
    LogTells (plain ++ compressed) ending (told (plain ++ compressed)) where
  reads := h.arrivals_told
  modes := by
    have hplain := h.mode_of_arrival (List.subset_append_left _ _) hswitch.mode_plaintext
    have hcompressed := h.mode_of_arrival (List.subset_append_right _ _) hswitch.compressed
    rw [told_append, List.filterMap_append, List.map_append]
    exact ⟨_, _, congrArg₂ (· ++ ·) (List.eq_replicate_of_mem (List.forall_mem_map.mpr hplain))
      (List.eq_replicate_of_mem (List.forall_mem_map.mpr hcompressed))⟩
  follows := by
    rintro before v after raw hsplit hread
    rw [hsplit] at h ⊢
    exact h.followedBy hread
  once := by
    obtain ⟨rfl, hnone⟩ | ⟨earlier, v, raw, payload, -, -, -, htold, hearlier, hlater⟩ :=
      h.told_cases hswitch
    · rw [List.append_nil, List.count_eq_zero.mpr hnone]
      exact Nat.zero_le 1
    · simp [htold, List.count_eq_zero.mpr hearlier, List.count_eq_zero.mpr hlater]
  enabled := by
    intro before after hlog
    obtain ⟨rfl, hnone⟩ | ⟨earlier, v, raw, payload, rfl, hread, hactivates, htold, hearlier,
      hlater⟩ := h.told_cases hswitch
    · rw [List.append_nil] at hlog
      exact absurd (hlog ▸ List.mem_append_right before List.mem_cons_self) hnone
    · rw [htold, List.append_cons_inj_of_notMem (by simp [hearlier]) hlater] at hlog
      obtain ⟨rfl, -, rfl⟩ := hlog
      have hplain : ∀ arrival ∈ (told earlier).filterMap LogEvent.arrival?,
          arrival.2 = .plaintext :=
        h.mode_of_arrival (by simp) fun u hu =>
          hswitch.mode_plaintext u (List.mem_append_left _ hu)
      refine ⟨⟨earlier, v, compressed, raw, payload, by simp, hread, hactivates, rfl, rfl⟩, ?_,
        h.mode_of_arrival (List.subset_append_right _ _) hswitch.compressed⟩
      rw [List.filterMap_append]
      exact List.forall_mem_append.mpr ⟨hplain, by simp [LogEvent.arrival?]⟩
  plain := by
    intro hnone
    obtain ⟨rfl, -⟩ | ⟨earlier, v, raw, payload, -, -, -, htold, -⟩ := h.told_cases hswitch
    · rw [List.append_nil] at h ⊢
      exact h.mode_of_arrival (List.Subset.refl _) hswitch.mode_plaintext
    · exact absurd (htold ▸ List.mem_append_right _ List.mem_cons_self) hnone
  closed := ⟨fun hlast => h.ending_of_mem.1 (List.mem_of_getLast? hlast), h.getLast?_told.1⟩
  disconnected := ⟨fun hlast => h.ending_of_mem.2 (List.mem_of_getLast? hlast), h.getLast?_told.2⟩
  failed := by
    intro error hfailed
    obtain ⟨hclosed, hdisconnected⟩ := h.ending_of_mem
    rw [hfailed] at hclosed hdisconnected
    exact ⟨fun hmem => Ending.noConfusion (hclosed hmem),
      fun hmem => Ending.noConfusion (hdisconnected hmem)⟩

/-! ### The log beside the stream -/

/-- What is seen of a read, if it gave something. -/
def StreamEvent.read? : StreamEvent → Option Nat
  | read bytes => some bytes
  | _ => none

theorem filterMap_events (inflating : Bool) (v : Visit sink) :
    (v.turn.events inflating).filterMap StreamEvent.read? = (v.arrival?.map Prod.fst).toList := by
  rw [Turn.events, Visit.arrival?, List.filterMap_append]
  cases v.turn.read <;> cases v.turn.sent.isEmpty <;> rfl

/-- However the turns of visits are looked at by their number, what is seen of reads is the reads of
the visits. -/
theorem filterMap_flatMap_zipIdx {look : Turn × Nat → List StreamEvent}
    (hlook : ∀ (v : Visit sink) i, (look (v.turn, i)).filterMap StreamEvent.read?
      = (v.arrival?.map Prod.fst).toList) (vs : List (Visit sink)) (start : Nat) :
    (((vs.map Visit.turn).zipIdx start).flatMap look).filterMap StreamEvent.read?
      = (vs.filterMap Visit.arrival?).map Prod.fst := by
  induction vs generalizing start with
  | nil => rfl
  | cons v vs ih =>
    rw [List.map_cons, List.zipIdx_cons, List.flatMap_cons, List.filterMap_append, ih, hlook,
      List.filterMap_cons]
    cases v.arrival? <;> rfl

/-- An observer of the stream sees the reads of the visits. -/
theorem filterMap_run_events (plainReads : Option Nat) (vs : List (Visit sink)) (ending : Ending) :
    (Run.events plainReads ⟨vs.map Visit.turn, ending⟩).filterMap StreamEvent.read?
      = (vs.filterMap Visit.arrival?).map Prod.fst := by
  rw [Run.events, List.filterMap_append, filterMap_flatMap_zipIdx fun v _ => filterMap_events _ v]
  exact List.append_nil _

/-- **The log of every run tells what happened in it**, and of the same reads as an observer of the
stream sees. -/
theorem log_tells (sink : Sink) (script : List Happening) :
    let run := handle sink script
    let vs := visits ({} : Standing sink) (readsOf script)
    run.turns = vs.map Visit.turn
      ∧ LogTells vs run.ending run.log
      ∧ ∀ plainReads, (run.events plainReads).filterMap StreamEvent.read?
        = (run.log.filterMap LogEvent.arrival?).map Prod.fst := by
  have hrecorded := recorded_visits ({} : Standing sink) (script.flatMap Happening.reads)
  have hturns := serve_turns ({} : Standing sink) (readsOf script)
  have hlaw := law_visits ({} : Standing sink) (script.flatMap Happening.reads)
  have hlog := log_handle sink script
  have htells : LogTells (visits ({} : Standing sink) (readsOf script))
      (handle sink script).ending (handle sink script).log := by
    obtain ⟨plain, compressed, hsplit, hswitch⟩ := hlaw.exists_switch
    rw [hsplit] at hrecorded
    rw [hlog, readsOf, hsplit]
    exact hrecorded.logTells hswitch
  refine ⟨hturns, htells, fun plainReads => ?_⟩
  rw [htells.reads, ← filterMap_run_events plainReads _ (handle sink script).ending, ← hturns]
  rfl

end DeflateEcho.Echo
