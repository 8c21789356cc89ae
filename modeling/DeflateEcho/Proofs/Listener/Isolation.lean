import DeflateEcho.Proofs.Listener.Serving

/-!
# Proofs/Listener/Isolation — each connection is served as if it were alone

As each conversation is what the reads of its connection make of a new one, it is the run of a
connection that is served alone (`Serving.isolated`).  So nothing but these reads and the sink of a
connection shows in what is sent to it: not the mode, not the slots, not the other connections.
-/

namespace DeflateEcho.Listener.Service

open Echo (Conversation Read Sink Turn)

variable {sinks : ConnectionId → Sink} {s s' : Service sinks} {actions : List ServiceAction}
  {reads : ConnectionId → List Read}

/-! ## Views of a connection -/

/-- The turns of a connection, the latest one first, once it is accepted. -/
def turns? (s : Service sinks) (connection : ConnectionId) : Option (List Turn) :=
  (s.conversation? connection).map Conversation.turns

/-- The bytes sent to a connection. -/
def sent (s : Service sinks) (connection : ConnectionId) : Bytes :=
  (s.conversation? connection).elim [] Conversation.sent

theorem Serving.turns?_eq (hs : s.Serving reads) {connection : ConnectionId}
    (hlt : connection < s.loop.accepted) :
    s.turns? connection = some (Conversation.ofReads (sinks connection) (reads connection)).turns
      ∧ s.ending? connection
        = (Conversation.ofReads (sinks connection) (reads connection)).ending? := by
  rw [turns?, ending?, hs.served connection hlt]
  exact ⟨rfl, rfl⟩

theorem Serving.sent_eq (hs : s.Serving reads) (connection : ConnectionId) :
    s.sent connection = (Conversation.ofReads (sinks connection) (reads connection)).sent := by
  by_cases hlt : connection < s.loop.accepted
  · rw [sent, hs.served connection hlt]
    rfl
  · obtain ⟨hnone, hreads⟩ := hs.unserved connection (Nat.le_of_not_lt hlt)
    rw [sent, hnone, hreads]
    rfl

/-! ## Isolation -/

/-- **Each connection is served alone**, behind these actions of a service that began with this
loop. -/
structure Isolated (first : Loop) (actions : List ServiceAction) (s : Service sinks) : Prop where
  /-- The loop does what it would do without conversations. -/
  loop : first.run? (loopActions actions) = some s.loop
  /-- Each accepted connection is served by one session, which has ended or runs. -/
  once : (first.acceptedIn (loopActions actions)).Nodup
  served : (first.acceptedIn (loopActions actions)).Perm
    (Loop.endedIn (loopActions actions) ++ s.loop.sessions)
  /-- Its conversation is the run of a connection served alone, over what its reads delivered. -/
  alone : ∀ connection ∈ first.acceptedIn (loopActions actions),
    ∃ c, s.conversation? connection = some c ∧ c.Alone (delivered connection actions)
  unserved : ∀ connection ∉ first.acceptedIn (loopActions actions),
    s.conversation? connection = none ∧ delivered connection actions = []
  /-- A session that has ended has ended as its conversation did. -/
  ends_as : ∀ connection ending, .loop (.sessionEnds connection ending) ∈ actions →
    s.ending? connection = some ending
  /-- Nothing that others do keeps a session from its next read, or from its end. -/
  reads : ∀ connection ∈ s.loop.sessions, s.ending? connection = none →
    ∀ read, read.FitsBuffer → ∃ s', s.step? (.read connection read) = some s'
  ends : ∀ connection ∈ s.loop.sessions, ∀ ending, s.ending? connection = some ending →
    ∃ s', s.step? (.loop (.sessionEnds connection ending)) = some s'

theorem Serving.isolated {mode : ServingMode} {slots : Nat} {requested : Bool}
    (hs : s.Serving fun connection => delivered connection actions)
    (h : ({ loop := .start mode slots requested } : Service sinks).run? actions = some s) :
    s.Isolated (.start mode slots requested) actions := by
  have hloop := run?_loop h
  have haccepted := Loop.mem_acceptedIn_iff hloop
  have honce := (Loop.numbered_start mode slots requested).nodup_acceptedIn hloop
  refine ⟨hloop, honce, Loop.sessions_perm hloop, fun connection hmem => ?_,
    fun connection hmem => ?_, fun connection ending hmem => ?_,
    fun connection hruns hgoes read hfits => ?_, fun connection hruns ending hended => ?_⟩
  · refine ⟨_, hs.served connection ((haccepted connection).mp hmem), ?_⟩
    exact Conversation.alone_ofReads (hs.fits connection)
  · rw [haccepted] at hmem
    exact hs.unserved connection (Nat.le_of_not_lt hmem)
  · exact (serving_start mode slots requested).ends_as h (.inl hmem)
  · have hc := hs.served connection (hs.numbered.lt_accepted connection hruns)
    exact ⟨_, (Step.reads hruns hgoes hfits hc).step?⟩
  · obtain ⟨loop, hloop⟩ := Loop.exists_sessionEnds hruns ending
    exact ⟨_, (Step.ends hended hloop).step?⟩

/-- **Sessions do not influence each other**: each connection is served alone.  So in two runs, of
whatever services, two connections whose reads deliver the same get the same replies, as far as they
get through; and if their sinks are the same, they get them read by read, and end in the same way. -/
theorem sessions_isolated {mode : ServingMode} {slots : Nat} {requested : Bool}
    (h : ({ loop := .start mode slots requested } : Service sinks).run? actions = some s) :
    s.Isolated (.start mode slots requested) actions
      ∧ ∀ (sinks' : ConnectionId → Sink) (mode' : ServingMode) (slots' : Nat) (requested' : Bool)
          (actions' : List ServiceAction) (s' : Service sinks'),
        ({ loop := .start mode' slots' requested' } : Service sinks').run? actions' = some s' →
        ∀ connection ∈ (Loop.start mode slots requested).acceptedIn (loopActions actions),
        ∀ connection' ∈ (Loop.start mode' slots' requested').acceptedIn (loopActions actions'),
          delivered connection actions = delivered connection' actions' →
          ((sinks' connection').TakesAll → s.sent connection <+: s'.sent connection')
            ∧ (sinks connection = sinks' connection' →
              s.turns? connection = s'.turns? connection'
                ∧ s.ending? connection = s'.ending? connection') := by
  have hs := (serving_start mode slots requested).run h
  refine ⟨hs.isolated h, fun sinks' mode' slots' requested' actions' s' h' connection hmem
    connection' hmem' hdelivered => ?_⟩
  have hs' := (serving_start mode' slots' requested').run h'
  refine ⟨fun htakes => ?_, fun hsink => ?_⟩
  · rw [hs.sent_eq, hs'.sent_eq, hdelivered]
    exact Conversation.sent_prefix htakes _ _
  · obtain ⟨hturns, hending⟩ := hs.turns?_eq ((Loop.mem_acceptedIn_iff (run?_loop h) _).mp hmem)
    obtain ⟨hturns', hending'⟩ := hs'.turns?_eq ((Loop.mem_acceptedIn_iff (run?_loop h') _).mp hmem')
    rw [hturns, hending, hturns', hending', hsink, hdelivered]
    exact ⟨rfl, rfl⟩

/-- Beside a client that turns compression on, and behind one that closes, the same request gets the
same reply. -/
theorem sessions_isolated_shortForm :
    let beside : List ServiceAction :=
      [.loop .connect, .loop .connect, .loop .look, .loop .takeSlot, .loop .accept, .loop .look,
        .loop .takeSlot, .loop .accept, .read 0 (.chunk Echo.compressToken),
        .read 1 (.chunk [Echo.shortForm])]
    let behind : List ServiceAction :=
      [.loop .connect, .loop .look, .loop .accept, .read 0 (.chunk []), .loop .connect,
        .loop (.sessionEnds 0 .peerClosed), .loop .look, .loop .accept,
        .read 1 (.chunk [Echo.shortForm])]
    ∃ s s' : Service fun _ => Sink.unlimited,
      ({ loop := .start .concurrent 2 false } : Service _).run? beside = some s
        ∧ ({ loop := .start .serial 1 false } : Service _).run? behind = some s'
        ∧ s.turns? 1 = s'.turns? 1 ∧ s.ending? 1 = s'.ending? 1 := by
  intro beside behind
  have hbeside : (({ loop := .start .concurrent 2 false } : Service fun _ => Sink.unlimited).run?
      beside).isSome = true := by decide
  have hbehind : (({ loop := .start .serial 1 false } : Service fun _ => Sink.unlimited).run?
      behind).isSome = true := by decide
  obtain ⟨s, hs⟩ := Option.isSome_iff_exists.mp hbeside
  obtain ⟨s', hs'⟩ := Option.isSome_iff_exists.mp hbehind
  exact ⟨s, s', hs, hs', ((sessions_isolated hs).2 _ _ _ _ _ _ hs' 1 (by decide) 1 (by decide)
    (by decide)).2 rfl⟩

end DeflateEcho.Listener.Service
