import DeflateEcho.Echo.Connection
import DeflateEcho.Listener.Bind

/-!
# Listener/AcceptLoop — accepting connections until shutdown is requested

The loop looks whether shutdown was requested, waits for a slot if sessions run side by side, waits
for a connection, and serves it.  What may happen next is an **action** and what it does a step
`Loop.step?`; in which order things happen is open.  A slot that the loop has taken stays in its hand
while it waits for a connection, goes over to the session, and comes back when the session ends or
none came about.
-/

namespace DeflateEcho.Listener

open Echo (Ending)

/-- A connection, by its number in the order in which connections are made. -/
abbrev ConnectionId := Nat

/-- Where the accept loop stands. -/
inductive Position where
  /-- About to look whether shutdown was requested. -/
  | top
  /-- Waiting for a slot, or for shutdown. -/
  | awaitingSlot
  /-- Waiting for a connection, or for shutdown, with a slot in hand or without one. -/
  | awaitingConnection (slot : Bool)
  /-- Serving a session before anything else. -/
  | serving (connection : ConnectionId)
  /-- Back from the loop, with an error or without one. -/
  | returned (error? : Option ServerError)
  deriving DecidableEq, Repr

/-- What gives out slots.  Once it is closed it gives out none. -/
structure Limiter where
  /-- Slots that nobody holds. -/
  free : Nat
  closed : Bool := false
  deriving DecidableEq, Repr

/-- A slot that is given out. -/
def Limiter.take (limiter : Limiter) : Limiter := { limiter with free := limiter.free - 1 }

/-- A slot that comes back, if there is one. -/
def Limiter.release (limiter : Limiter) (slot : Bool) : Limiter :=
  { limiter with free := limiter.free + slot.toNat }

/-- A flag, and how often it was raised.  Who waits for it is woken if it was raised more often than
they have seen. -/
structure Flag where
  up : Bool := false
  raisings : Nat := 0
  deriving DecidableEq, Repr

/-- The flag raised once more. -/
def Flag.raise (flag : Flag) : Flag := { up := true, raisings := flag.raisings + 1 }

/-- The accept loop and what it has to do with. -/
structure Loop where
  mode : ServingMode
  position : Position := .top
  limiter : Limiter
  /-- How many connections were made. -/
  connected : Nat := 0
  /-- Connections that are there and not accepted yet, the first one first. -/
  waiting : List ConnectionId := []
  /-- Sessions that run beside the loop.  Each has the slot that the loop had in hand. -/
  tasks : List ConnectionId := []
  /-- The request to shut down. -/
  shutdown : Flag := {}
  /-- How many of these requests the loop has been woken by.  Each run begins without any. -/
  seen : Nat := 0
  deriving DecidableEq, Repr

/-- What may happen. -/
inductive Action where
  /-- The loop looks whether shutdown was requested. -/
  | look
  | takeSlot
  /-- A client connects. -/
  | connect
  /-- The first waiting connection is accepted. -/
  | accept
  | acceptFails
  /-- The session of a connection ends, in this way. -/
  | sessionEnds (connection : ConnectionId) (ending : Ending)
  | requestShutdown
  /-- The loop is woken from waiting by a request to shut down. -/
  | stop
  /-- The loop is run once more. -/
  | runAgain
  deriving DecidableEq, Repr

namespace Loop

/-- The loop of a listener that has not begun to run. -/
def start (mode : ServingMode) (slots : Nat) (shutdownRequested : Bool) : Loop :=
  { mode, limiter := { free := slots }
    shutdown := if shutdownRequested then Flag.raise {} else {} }

/-- The slots in the loop's hand. -/
def held (l : Loop) : Nat :=
  match l.position with
  | .awaitingConnection slot => slot.toNat
  | _ => 0

/-- The sessions that run. -/
def sessions (l : Loop) : List ConnectionId :=
  match l.position with
  | .serving connection => connection :: l.tasks
  | _ => l.tasks

/-- **What an action does**, where it can happen. -/
def step? (l : Loop) : Action → Option Loop
  | .look =>
    match l.position with
    | .top =>
      if l.shutdown.up then some { l with position := .returned none }
      else
        match l.mode with
        | .concurrent => some { l with position := .awaitingSlot }
        | .serial => some { l with position := .awaitingConnection false }
    | _ => none
  | .takeSlot =>
    match l.position with
    | .awaitingSlot =>
      if l.limiter.closed then some { l with position := .returned (some .limiterClosed) }
      else if 0 < l.limiter.free then
        some { l with position := .awaitingConnection true, limiter := l.limiter.take }
      else none
    | _ => none
  | .connect => some { l with connected := l.connected + 1, waiting := l.waiting ++ [l.connected] }
  | .accept =>
    match l.position, l.waiting with
    | .awaitingConnection true, connection :: waiting =>
      some { l with position := .top, waiting, tasks := connection :: l.tasks }
    | .awaitingConnection false, connection :: waiting =>
      some { l with position := .serving connection, waiting }
    | _, _ => none
  | .acceptFails =>
    match l.position with
    | .awaitingConnection slot =>
      some { l with position := .top, limiter := l.limiter.release slot }
    | _ => none
  | .sessionEnds connection _ =>
    if l.position = .serving connection then some { l with position := .top }
    else if connection ∈ l.tasks then
      some { l with tasks := l.tasks.erase connection, limiter := l.limiter.release true }
    else none
  | .requestShutdown => some { l with shutdown := l.shutdown.raise }
  | .stop =>
    if l.seen = l.shutdown.raisings then none
    else
      match l.position with
      | .awaitingSlot => some { l with position := .returned none, seen := l.shutdown.raisings }
      | .awaitingConnection slot =>
        some { l with
          position := .returned none
          limiter := l.limiter.release slot
          seen := l.shutdown.raisings }
      | _ => none
  | .runAgain =>
    match l.position with
    | .returned _ => some { l with position := .top, seen := 0 }
    | _ => none

/-- What a sequence of actions does, where each can happen. -/
def run? (l : Loop) (actions : List Action) : Option Loop := actions.foldlM step? l

/-- Whether the loop has returned. -/
def hasReturned (l : Loop) : Bool :=
  match l.position with
  | .returned _ => true
  | _ => false

end Loop

end DeflateEcho.Listener
