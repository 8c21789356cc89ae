import DeflateEcho.Proofs.Echo.Turn
import DeflateEcho.Proofs.Session

/-!
# Proofs/Echo/RunLaw — the law of a whole run

A run is some reads that are answered and one that ends it (`Law`).  `law_visits` gets this by
induction on the reads from what one turn does (`turn_cases`): each turn is either the last one, or
leaves the connection where the rest of the run finds it.  That there is a last one is due to the
empty read at the end of every script, which is never answered.
-/

namespace DeflateEcho.Echo

variable {sink : Sink}

/-! ## Visits -/

/-- A turn, and where it finds the connection. -/
structure Visit (sink : Sink) where
  standing : Standing sink
  turn : Turn

/-- The turns of a run, each with where it finds the connection. -/
def visits (st : Standing sink) : List Read → List (Visit sink)
  | [] => []
  | read :: reads =>
    let (t, after) := turn sink st.session st.memory read
    ⟨st, t⟩ :: match after with
      | .ends _ => []
      | .goesOn session memory => visits ⟨session, memory⟩ reads

section Turns

variable {st : Standing sink} {read : Read} {t : Turn}

theorem visits_of_goesOn {session : Session} {memory : sink.Memory}
    (h : turn sink st.session st.memory read = (t, .goesOn session memory)) (reads : List Read) :
    visits st (read :: reads) = ⟨st, t⟩ :: visits ⟨session, memory⟩ reads := by
  rw [visits, h]

theorem visits_of_ends {ending : Ending}
    (h : turn sink st.session st.memory read = (t, .ends ending)) (reads : List Read) :
    visits st (read :: reads) = [⟨st, t⟩] := by
  rw [visits, h]

theorem serve_of_goesOn {session : Session} {memory : sink.Memory}
    (h : turn sink st.session st.memory read = (t, .goesOn session memory)) (reads : List Read) :
    serve sink st.session st.memory (read :: reads)
      = ⟨t :: (serve sink session memory reads).turns,
          (serve sink session memory reads).ending⟩ := by
  rw [serve, h]

theorem serve_of_ends {ending : Ending}
    (h : turn sink st.session st.memory read = (t, .ends ending)) (reads : List Read) :
    serve sink st.session st.memory (read :: reads) = ⟨[t], ending⟩ := by
  rw [serve, h]

end Turns

/-- The turns of the visits are the turns of the run. -/
theorem serve_turns (st : Standing sink) (reads : List Read) :
    (serve sink st.session st.memory reads).turns = (visits st reads).map Visit.turn := by
  induction reads generalizing st with
  | nil => rfl
  | cons read reads ih =>
    rcases hturn : turn sink st.session st.memory read with ⟨t, ⟨session, memory⟩ | ending⟩
    · have hrest := ih ⟨session, memory⟩
      rw [serve_of_goesOn hturn, visits_of_goesOn hturn, List.map_cons, ← hrest]
    · rw [serve_of_ends hturn, visits_of_ends hturn]
      rfl

theorem turn_read (st : Standing sink) (read : Read) :
    (turn sink st.session st.memory read).1.read = read := by
  obtain ⟨_, _, _, _, _, rfl, -, hturn⟩ | ⟨_, _, _, -, hturn⟩ := turn_cases st read
  · rw [hturn]
  · rw [hturn]

/-- A run reads from the front of what there is to read, and no further than its last turn. -/
theorem reads_prefix (st : Standing sink) (reads : List Read) :
    (visits st reads).map (·.turn.read) <+: reads := by
  induction reads generalizing st with
  | nil => exact List.nil_prefix
  | cons read reads ih =>
    have hread := turn_read st read
    rcases hturn : turn sink st.session st.memory read with ⟨t, ⟨session, memory⟩ | ending⟩
    · rw [visits_of_goesOn hturn, List.map_cons, ← hread, hturn]
      exact (List.prefix_cons_inj _).mpr (ih _)
    · rw [visits_of_ends hturn, ← hread, hturn]
      exact ⟨reads, rfl⟩

/-! ## The law -/

/-- **A turn that answers its read**: one reply, which is not empty, is written completely, is all
that is seen of the turn after its read, and leaves the connection where the next turn finds it. -/
structure Visit.LeadsTo (v w : Visit sink) : Prop where
  answers : ∃ raw payload, v.turn.read = .chunk raw
    ∧ Answers v.standing raw payload v.turn.sent w.standing
  sent_ne_nil : v.turn.sent ≠ []
  not_stops : ∀ ending part, ¬ Stops v.standing v.turn.read ending part
  events : ∃ bytes, ∀ inflating,
    v.turn.events inflating = [.read bytes, .sent v.turn.sent inflating]

/-- A turn that ends the connection in this way, and in no other. -/
structure Visit.Ends (v : Visit sink) (ending : Ending) : Prop where
  stops : Stops v.standing v.turn.read ending v.turn.sent
  unique : ∀ ending' part, Stops v.standing v.turn.read ending' part → ending' = ending

/-- **The law of a run** from some standing: it begins there, every turn but the last one answers
its read, and the last one ends the connection. -/
structure Law (st : Standing sink) (ending : Ending) (vs : List (Visit sink)) : Prop where
  start : ∃ v ∈ vs.head?, v.standing = st
  answered : vs.IsChain Visit.LeadsTo
  ended : ∃ v ∈ vs.getLast?, v.Ends ending

theorem Answers.leadsTo {st : Standing sink} {w : Visit sink} {raw payload sent : Bytes}
    (h : Answers st raw payload sent w.standing) (log : List LogEvent) :
    Visit.LeadsTo ⟨st, ⟨.chunk raw, sent, log⟩⟩ w where
  answers := ⟨raw, payload, rfl, h⟩
  sent_ne_nil := h.sent_ne_nil
  not_stops := h.not_stops
  events := ⟨raw.length, fun inflating => by simp [Turn.events, h.sent_ne_nil]⟩

theorem Law.ends {st : Standing sink} {t : Turn} {ending : Ending}
    (h : Stops st t.read ending t.sent) : Law st ending [⟨st, t⟩] where
  start := ⟨_, rfl, rfl⟩
  answered := .singleton _
  ended := ⟨_, rfl, h, fun _ _ h' => h'.ending_eq h⟩

theorem Law.goesOn {st next : Standing sink} {raw payload sent : Bytes} {log : List LogEvent}
    {ending : Ending} {vs : List (Visit sink)} (h : Answers st raw payload sent next)
    (hrest : Law next ending vs) : Law st ending (⟨st, ⟨.chunk raw, sent, log⟩⟩ :: vs) := by
  obtain ⟨w, hw, rfl⟩ := hrest.start
  obtain ⟨rest, rfl⟩ : ∃ rest, vs = w :: rest := List.head?_eq_some_iff.mp hw
  exact {
    start := ⟨_, rfl, rfl⟩
    answered := .cons_cons (h.leadsTo log) hrest.answered
    ended := by
      rw [List.getLast?_cons_cons]
      exact hrest.ended }

/-- What is read at the end of a stream is not answered. -/
theorem not_answers_nil (st next : Standing sink) (payload sent : Bytes) :
    ¬ Answers st [] payload sent next := by
  intro h
  have hdecoded := h.decoded
  obtain hnil | ⟨error, herror⟩ := st.session.decode_nil
  · rw [hnil] at hdecoded
    exact h.nonempty (Except.ok.inj hdecoded).symm
  · rw [herror] at hdecoded
    cases hdecoded

/-- **Serving reads up to an empty one obeys the law**, from wherever it starts. -/
theorem law_visits (st : Standing sink) (reads : List Read) :
    Law st (serve sink st.session st.memory (reads ++ [.chunk []])).ending
      (visits st (reads ++ [.chunk []])) := by
  induction reads generalizing st with
  | nil =>
    obtain ⟨raw, payload, sent, next, log, hread, h, -⟩ | ⟨ending, part, log, hstops, hturn⟩ :=
      turn_cases st (.chunk [])
    · obtain rfl : [] = raw := Read.chunk.inj hread
      exact absurd h (not_answers_nil st next payload sent)
    · rw [List.nil_append, serve_of_ends hturn, visits_of_ends hturn]
      exact .ends hstops
  | cons read reads ih =>
    rw [List.cons_append]
    obtain ⟨raw, payload, sent, next, log, rfl, h, hturn⟩ | ⟨ending, part, log, hstops, hturn⟩ :=
      turn_cases st read
    · rw [serve_of_goesOn hturn, visits_of_goesOn hturn]
      exact .goesOn h (ih next)
    · rw [serve_of_ends hturn, visits_of_ends hturn]
      exact .ends hstops

/-! ## What is seen of a run -/

/-- The release of the stream is seen in no turn. -/
theorem released_not_mem_events (inflating : Bool) (t : Turn) :
    .released ∉ t.events inflating := by
  unfold Turn.events
  intro h
  rcases List.mem_append.mp h with h | h
  · split at h <;> simp at h
  · split at h <;> simp at h

/-- The stream is released once, behind everything else. -/
theorem Run.events_eq (plainReads : Option Nat) (run : Run) :
    ∃ seen, run.events plainReads = seen ++ [.released] ∧ .released ∉ seen := by
  refine ⟨_, rfl, fun h => ?_⟩
  obtain ⟨⟨t, i⟩, -, ht⟩ := List.mem_flatMap.mp h
  exact released_not_mem_events _ t ht

/-- **The law of every run.**  Reads are answered up to the first one that ends the connection, in
exactly one way; the stream is then released, and what it waits for on the way changes nothing. -/
theorem handle_law (sink : Sink) (script : List Happening) :
    let run := handle sink script
    let vs := visits ({} : Standing sink) (readsOf script)
    run.turns = vs.map Visit.turn
      ∧ run.turns.map Turn.read <+: readsOf script
      ∧ Law {} run.ending vs
      ∧ (∀ plainReads, ∃ seen, run.events plainReads = seen ++ [.released] ∧ .released ∉ seen)
      ∧ handle sink (script.filter (· ≠ .notReady)) = run := by
  have hturns := serve_turns ({} : Standing sink) (readsOf script)
  refine ⟨hturns, ?_, law_visits {} (script.flatMap Happening.reads), fun plainReads =>
    Run.events_eq plainReads _, ?_⟩
  · rw [handle, hturns, List.map_map]
    exact reads_prefix {} (readsOf script)
  · rw [handle, readsOf_filter_notReady, handle]

end DeflateEcho.Echo
