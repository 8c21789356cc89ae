import DeflateEcho.Echo.Conversation
import DeflateEcho.Listener.AcceptLoop

/-!
# Listener/Service — the accept loop together with the connections it serves

Each accepted connection has a conversation of its own, which goes on by its own reads alone.  What
the loop does and what connections read may happen in any order; a session ends when its
conversation has, and as its conversation did.  What clients send, and when they stop, shows in what
is read from them; how they take what is written to them is up to the sink of their connection.
-/

namespace DeflateEcho.Listener

open Echo (Conversation Read Sink)

variable {sinks : ConnectionId → Sink}

/-- The accept loop and the conversations of the connections it has accepted. -/
structure Service (sinks : ConnectionId → Sink) where
  loop : Loop
  /-- The conversation of a connection, once that is accepted. -/
  conversation? : (connection : ConnectionId) → Option (Conversation (sinks connection)) :=
    fun _ => none

/-- What may happen to a service. -/
inductive ServiceAction where
  | loop (action : Action)
  /-- A read of a running session gives something. -/
  | read (connection : ConnectionId) (read : Read)
  deriving DecidableEq, Repr

namespace Service

/-- Puts a conversation in the place of the one that the connection had. -/
def put (s : Service sinks) (connection : ConnectionId) (c : Conversation (sinks connection)) :
    Service sinks :=
  { s with conversation? := fun other =>
      if h : other = connection then some (h ▸ c) else s.conversation? other }

/-- How the conversation of a connection has ended, if it has. -/
def ending? (s : Service sinks) (connection : ConnectionId) : Option Echo.Ending :=
  (s.conversation? connection).bind Conversation.ending?

/-- **What an action does**, where it can happen. -/
def step? (s : Service sinks) : ServiceAction → Option (Service sinks)
  | .loop (.sessionEnds connection ending) =>
    if s.ending? connection = some ending then
      (s.loop.step? (.sessionEnds connection ending)).map fun loop => { s with loop }
    else none
  | .loop .accept =>
    match s.loop.waiting with
    | [] => none
    | connection :: _ =>
      (s.loop.step? .accept).map fun loop => { s with loop }.put connection {}
  | .loop action => (s.loop.step? action).map fun loop => { s with loop }
  | .read connection read =>
    if connection ∈ s.loop.sessions ∧ s.ending? connection = none ∧ read.FitsBuffer then
      (s.conversation? connection).map fun c => s.put connection (c.advance read)
    else none

/-- What a sequence of actions does, where each can happen. -/
def run? (s : Service sinks) (actions : List ServiceAction) : Option (Service sinks) :=
  actions.foldlM step? s

end Service

end DeflateEcho.Listener
