import DeflateEcho.Listener.Service

/-!
# Listener/Rehearsal — a service and its clients, played through step by step

A rehearsal plays the clients of a service from a script, without sockets.  After each step the
service does all it can do, so that what the next step sees is settled: time-outs in a script then
mean that nothing more will come.  The network in between may keep clients from a listener that is
running; a rehearsal that runs into that is broken off.
-/

namespace DeflateEcho.Listener

open Echo (Conversation Read Sink)

/-- The name that a script gives to a client. -/
abbrev ClientName := String

/-- A step of a script. -/
inductive ClientStep where
  | connect (client : ClientName)
  | send (client : ClientName) (bytes : Bytes)
  /-- The client reads until it has so many bytes, inflated if it says so. -/
  | receive (client : ClientName) (count : Nat) (inflating : Bool)
  /-- The client reads until the server closes. -/
  | untilClosed (client : ClientName)
  /-- The client waits and sees whether anything arrives. -/
  | quiet (client : ClientName)
  /-- The client stops sending. -/
  | halfClose (client : ClientName)
  | close (client : ClientName)
  | shutdown
  | running
  | join
  deriving DecidableEq, Repr

/-- Whether what a client waited for has come. -/
inductive Wait where
  | complete
  | closed
  | timedOut
  deriving DecidableEq, Repr

/-- What a step of a script shows. -/
inductive Answer where
  | connected
  | refused
  | sent (taken : Bool)
  | got (bytes : Bytes) (wait : Wait)
  | holds (fact : Bool)
  | closed
  | requested
  /-- Whether the accept loop has returned. -/
  | joined (returned : Bool)
  deriving DecidableEq, Repr

/-- A client's side of a connection. -/
structure Client where
  /-- What the server has not read yet. -/
  toRead : List Read := []
  /-- How many bytes of what was sent to it the client has taken. -/
  taken : Nat := 0
  /-- The client has closed or stopped sending. -/
  silent : Bool := false
  codec : Codec := {}
  /-- Inflated bytes that the client has not asked for yet. -/
  inflated : Bytes := []

/-- What lies between the clients and the listener. -/
structure Network where
  /-- Whether clients can reach a listener that is running. -/
  admits : Bool

/-- A service with its clients. -/
structure Rehearsal where
  service : Service fun _ => Sink.unlimited
  /-- The connections of the clients, the latest one first. -/
  names : List (ClientName × ConnectionId) := []
  clients : List (ConnectionId × Client) := []

namespace Rehearsal

/-- The connection of a client; one that has not connected has a number that nobody has yet. -/
def connection (r : Rehearsal) (name : ClientName) : ConnectionId :=
  (r.names.lookup name).getD r.service.loop.connected

/-- The client's side of a connection. -/
def client (r : Rehearsal) (connection : ConnectionId) : Client :=
  (r.clients.lookup connection).getD {}

def setClient (r : Rehearsal) (connection : ConnectionId) (c : Client) : Rehearsal :=
  { r with
    clients := (connection, c) :: r.clients.filter fun entry => entry.1 ≠ connection }

/-! ## The service's part -/

/-- The next thing that a session does: it ends, or takes the next read that is there. -/
def sessionAction? (r : Rehearsal) (connection : ConnectionId) : Option ServiceAction :=
  match r.service.ending? connection with
  | some ending => some (.loop (.sessionEnds connection ending))
  | none => (r.client connection).toRead.head?.map fun read => .read connection read

/-- What the service may do next of its own accord; the request to shut down comes before any
connection. -/
def candidates (r : Rehearsal) : List ServiceAction :=
  [.loop .look, .loop .stop, .loop .takeSlot, .loop .accept]
    ++ r.service.loop.sessions.filterMap r.sessionAction?

/-- One action of the service, and what it has read is gone. -/
def act (r : Rehearsal) (action : ServiceAction) : Option Rehearsal :=
  (r.service.step? action).map fun service =>
    let r := { r with service }
    match action with
    | .read connection _ =>
      let c := r.client connection
      r.setClient connection { c with toRead := c.toRead.drop 1 }
    | .loop _ => r

/-- Lets the service do what it can, at most so many actions. -/
def settleWithin : (actions : Nat) → Rehearsal → Rehearsal
  | 0, r => r
  | actions + 1, r =>
    match r.candidates.findSome? r.act with
    | some r => settleWithin actions r
    | none => r

/-- Lets the service do all it can. -/
def settle (r : Rehearsal) : Rehearsal :=
  let reads := r.clients.foldl (fun n entry => n + entry.2.toRead.length) 0
  r.settleWithin (6 * (reads + r.service.loop.waiting.length + r.service.loop.sessions.length + 2))

/-! ## The clients' part -/

/-- The bytes that the server has sent and the client has not taken. -/
def arrived (r : Rehearsal) (connection : ConnectionId) : Bytes :=
  ((r.service.conversation? connection).map fun c =>
    c.sent.drop (r.client connection).taken).getD []

/-- Whether the server has closed a connection: its session has ended, or nobody will accept it. -/
def isClosed (r : Rehearsal) (connection : ConnectionId) : Bool :=
  match r.service.conversation? connection with
  | some c => c.ending?.isSome
  | none => r.service.loop.hasReturned

def waitFor (r : Rehearsal) (connection : ConnectionId) : Wait :=
  if r.isClosed connection then .closed else .timedOut

/-- The client takes the first of the bytes that have arrived. -/
def takeArrived (r : Rehearsal) (connection : ConnectionId) (count : Nat) : Bytes × Rehearsal :=
  let bytes := (r.arrived connection).take count
  let c := r.client connection
  (bytes, r.setClient connection { c with taken := c.taken + bytes.length })

/-- The client inflates all that has arrived. -/
def inflateArrived (r : Rehearsal) (connection : ConnectionId) : Rehearsal :=
  let (bytes, r) := r.takeArrived connection (r.arrived connection).length
  let c := r.client connection
  let (plain, codec) := c.codec.decompress bytes
  r.setClient connection { c with codec, inflated := c.inflated ++ (plain.toOption.getD []) }

/-- The client sends what the server reads, if it still can. -/
def deliver (r : Rehearsal) (connection : ConnectionId) (reads : List Read) (silent : Bool) :
    Rehearsal :=
  let c := r.client connection
  if c.silent then r
  else settle (r.setClient connection { c with toRead := c.toRead ++ reads, silent })

/-- One step of a script, if the network lets it happen. -/
def step (network : Network) (r : Rehearsal) : ClientStep → Option (Answer × Rehearsal)
  | .connect name =>
    if r.service.loop.hasReturned then some (.refused, r)
    else if network.admits then
      let connection := r.service.loop.connected
      let r := { r.setClient connection {} with names := (name, connection) :: r.names }
      (r.service.step? (.loop .connect)).map fun service =>
        (.connected, settle { r with service })
    else none
  | .send name bytes =>
    let connection := r.connection name
    let open? := ¬ (r.client connection).silent ∧ ¬ r.isClosed connection
    some (.sent open?, r.deliver connection ((Echo.buffers bytes).map .chunk) false)
  | .receive name count false =>
    let connection := r.connection name
    let (bytes, r) := r.takeArrived connection count
    some (.got bytes (if bytes.length = count then .complete else r.waitFor connection), r)
  | .receive name count true =>
    let connection := r.connection name
    let r := r.inflateArrived connection
    let c := r.client connection
    let bytes := c.inflated.take count
    some (.got bytes (if bytes.length = count then .complete else r.waitFor connection),
      r.setClient connection { c with inflated := c.inflated.drop count })
  | .untilClosed name =>
    let connection := r.connection name
    let (bytes, r) := r.takeArrived connection (r.arrived connection).length
    some (.got bytes (r.waitFor connection), r)
  | .quiet name =>
    let connection := r.connection name
    some (.holds ((r.arrived connection).isEmpty && ! r.isClosed connection), r)
  | .halfClose name => some (.holds true, r.deliver (r.connection name) [.chunk []] true)
  | .close name => some (.closed, r.deliver (r.connection name) [.chunk []] true)
  | .shutdown =>
    (r.service.step? (.loop .requestShutdown)).map fun service =>
      (.requested, settle { r with service })
  | .running => some (.holds (! r.service.loop.hasReturned), r)
  | .join => some (.joined r.service.loop.hasReturned, r)

/-- The answers to a script, behind those given so far (last one first). -/
def playFrom (network : Network) (given : List Answer) (r : Rehearsal) :
    List ClientStep → Option (List Answer × Rehearsal)
  | [] => some (given.reverse, r)
  | s :: steps =>
    match r.step network s with
    | none => none
    | some (answer, r) => playFrom network (answer :: given) r steps

/-- **The answers to a script**, unless the network breaks it off. -/
def play (network : Network) (loop : Loop) (script : List ClientStep) :
    Option (List Answer × Rehearsal) :=
  playFrom network [] (settle { service := { loop } }) script

end Rehearsal

end DeflateEcho.Listener
