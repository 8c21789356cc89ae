import DeflateEcho.Listener.AcceptLoop
import DeflateEcho.Startup
import Std.Async.DNS
import Std.Async.Signal
import Std.Async.TCP

/-!
# Main — the program

The program asks the machine what `Startup.start` may want to know, lets it decide, and then runs
`Listener.Loop` on sockets: the loop says what may happen next, and one of the things that it waits
for, a connection, the end of a session or an interrupt, says what does.
-/

namespace DeflateEcho.Program

open Std.Async (Async Signal)
open Std.Async.TCP
open Listener (ConnectionId HostAddress HostTable Loop)
open Settings (Arguments FileError)

/-! ## The machine -/

/-- What is reported of a file that cannot be read. -/
def fileError : IO.Error → FileError
  | .noFileOrDirectory .. => .notFound
  | .inappropriateType _ 20 _ => .notDirectory
  | .inappropriateType _ 21 _ => .isDirectory
  | error => .other error.toString

/-- The bytes of the file at a path. -/
def readFile (path : String) : IO (Except FileError Bytes) := do
  try return .ok (← IO.FS.readBinFile path).toList
  catch error => return .error (fileError error)

/-- An address as sockets take it. -/
def systemAddress (address : Listener.SocketAddress) : Std.Net.SocketAddress :=
  let port := address.port.toUInt16
  match address.host with
  | .v4 a b c d => .v4 ⟨.ofParts a b c d, port⟩
  | .v6 groups _ =>
    let group (i : Nat) : UInt16 := (groups.getD i 0).toUInt16
    .v6 ⟨.ofParts (group 0) (group 1) (group 2) (group 3) (group 4) (group 5) (group 6) (group 7),
      port⟩

/-- An address of a host as the system gives it. -/
def hostAddress : Std.Net.IPAddr → HostAddress
  | .v4 address =>
    let octets := address.octets
    .v4 octets[0] octets[1] octets[2] octets[3]
  | .v6 address => .v6 (address.segments.toList.map UInt16.toNat) 0

/-- An address that a socket gives. -/
def addressText (address : Std.Net.SocketAddress) : String :=
  Listener.SocketAddress.text ⟨hostAddress address.ipAddr, address.port.toNat⟩

/-- The addresses that the system knows for the host in a setting, if it names one. -/
def hostsOf (listen : String) : IO HostTable := do
  match Listener.Target.parse listen with
  | .ok (.host name _) =>
    try
      let addresses ← (Std.Async.DNS.getAddrInfo name "").block
      return fun _ => .ok (addresses.toList.map hostAddress)
    catch error =>
      let reason := "failed to lookup address information: " ++ error.toString
      return fun _ => .error reason
  | _ => return Listener.ownHosts

/-- A socket that listens on an address, or why there is none. -/
def openSocket (address : Listener.SocketAddress) (backlog : Int) :
    IO (Except String Socket.Server) := do
  try
    let socket ← Socket.Server.mk
    socket.bind (systemAddress address)
    socket.listen backlog.toNat.toUInt32
    return .ok socket
  catch error => return .error error.toString

/-! ## Sessions -/

/-- Writes a record to the log, if the filter lets it. -/
def write (filter : LogFilter) (part : String) (record : LogRecord) : IO Unit := do
  if filter.writes part record.level then
    let output ← IO.getStdout
    output.putStrLn record.line
    output.flush

/-- A fault of a socket, in the words of the system. -/
def fault (error : IO.Error) : Echo.Fault :=
  { kind := .connectionReset, detail := some error.toString }

/-- What a read of a socket gives; at the end of the stream it is empty. -/
def readSocket (socket : Socket.Client) : Async Echo.Read := do
  try
    let bytes? ← socket.recv? Echo.bufferSize.toUInt64
    return .chunk ((bytes?.map ByteArray.toList).getD [])
  catch error => return .fault (fault error)

/-- Writes all these bytes, or says why they cannot be written. -/
def writeSocket (socket : Socket.Client) (bytes : Bytes) : Async (Option Echo.Fault) := do
  if bytes.isEmpty then return none
  try
    socket.send ⟨bytes.toArray⟩
    return none
  catch error => return some (fault error)

/-- A sink that does what a socket has done. -/
def sinkOf : Option Echo.Fault → Echo.Sink
  | none => .unlimited
  | some fault => .limited none (some 0) (.refused fault)

/-- Serves a session turn by turn.  What a turn sends goes to the socket first, and then the turn is
taken with a sink that did what the socket has done. -/
partial def converse (filter : LogFilter) (socket : Socket.Client) (session : Session) :
    Async Echo.Ending := do
  let read ← readSocket socket
  let intended := (Echo.turn .unlimited session () read).1
  let sink := sinkOf (← writeSocket socket intended.sent)
  let (turn, after) := Echo.turn sink session sink.start read
  for event in turn.log do write filter Startup.handlerPart event.record
  match after with
  | .goesOn session _ => converse filter socket session
  | .ends ending => return ending

/-! ## The accept loop -/

/-- What the accept loop may be told while it waits. -/
inductive Notice where
  | interrupted
  | accepted (socket : Socket.Client)
  | notAccepted (reason : String)
  | ended (connection : ConnectionId) (ending : Echo.Ending)

/-- The accept loop at work, with what it waits for. -/
structure Work where
  loop : Loop
  interrupt : Option (Task Notice)
  accepting : Option (Task Notice) := none
  sessions : List (ConnectionId × Task Notice) := []

/-- Begins something that ends with a notice. -/
def begin (action : Async Notice) : IO (Task Notice) := do
  let task ← action.toIO
  return Task.map
    (fun
      | .ok notice => notice
      | .error error => .notAccepted error.toString)
    task

/-- Serves a connection to its end. -/
def serve (filter : LogFilter) (connection : ConnectionId) (peer : String)
    (socket : Socket.Client) : Async Notice := do
  let ending ← converse filter socket {}
  write filter Startup.listenerPart (Startup.endedRecord peer ending)
  try socket.shutdown catch _ => pure ()
  return .ended connection ending

/-- What the loop does of its own accord, as far as it can. -/
def ownActions : List Listener.Action := [.look, .stop, .takeSlot]

/-- Runs the accept loop until it returns, with an error or without one. -/
partial def run (filter : LogFilter) (server : Socket.Server) (w : Work) :
    IO (Option Listener.ServerError) := do
  if let some loop := ownActions.findSome? w.loop.step? then
    return ← run filter server { w with loop }
  match w.loop.position, w.accepting with
  | .returned error?, _ => return error?
  | .awaitingConnection _, none =>
    let accepting ← begin (do return .accepted (← server.accept))
    run filter server { w with accepting := some accepting }
  | _, _ =>
    let tasks := w.interrupt.toList ++ w.accepting.toList ++ w.sessions.map Prod.snd
    if h : tasks.length > 0 then
      match ← IO.waitAny tasks h with
      | .interrupted =>
        write filter Startup.programPart Startup.interruptRecord
        run filter server { after w .requestShutdown with interrupt := none }
      | .notAccepted reason =>
        write filter Startup.listenerPart (Startup.notAcceptedRecord reason)
        run filter server { after w .acceptFails with accepting := none }
      | .accepted socket =>
        let peer := addressText (← socket.getPeerName)
        write filter Startup.listenerPart (Startup.acceptedRecord peer)
        let connection := w.loop.connected
        let session ← begin (serve filter connection peer socket)
        run filter server
          { after (after w .connect) .accept with
            accepting := none, sessions := (connection, session) :: w.sessions }
      | .ended connection ending =>
        run filter server
          { after w (.sessionEnds connection ending) with
            sessions := w.sessions.filter fun entry => entry.1 ≠ connection }
    else return none
where
  after (w : Work) (action : Listener.Action) : Work :=
    { w with loop := (w.loop.step? action).getD w.loop }

/-! ## The program -/

/-- Says why the program ends, and ends it. -/
def fail (failure : StartupFailure) : IO UInt32 := do
  match failure with
  | .load (.arguments error) =>
    if error.exitCode = 0 then IO.print error.message
    else IO.eprintln (error.message ++ "\n\nUsage: netclient-echo-server [OPTIONS]")
  | _ => IO.eprintln ("Error: " ++ failure.message)
  return failure.exitCode.toUInt32

/-- What comes of reading the file that the arguments name; none is read if they name none. -/
def fileOf (arguments : List String) : IO (String → Except FileError Bytes) := do
  match Arguments.parse arguments with
  | .ok { config := some path, .. } =>
    let contents ← readFile path
    return fun _ => contents
  | _ => return fun _ => .error .notFound

/-- **The program**: from the arguments to the exit code. -/
def program (arguments : List String) : IO UInt32 := do
  let file ← fileOf arguments
  match Config.load file arguments with
  | .error error => fail (.load error)
  | .ok config =>
    let directives? ← IO.getEnv "RUST_LOG"
    let filter := Startup.logFilter directives? config
    write filter Startup.programPart (Startup.startingRecord config)
    let hosts ← hostsOf config.listen
    let socket ← match Listener.resolve hosts config.listen with
      | .ok address => openSocket address config.backlog
      | .error error => pure (.error error.message)
    let refusal? := match socket with
      | .ok _ => none
      | .error reason => some reason
    match Startup.start { file, hosts, refusal? := fun _ => refusal?, directives? } arguments,
        socket with
    | .error failure, _ => fail failure
    | .ok _, .error _ => return 1
    | .ok ready, .ok server =>
      let mode := ready.bound.mode
      write filter Startup.listenerPart
        (Startup.listeningRecord mode (addressText (← server.getSockName)))
      let signal ← (← Signal.Waiter.mk .sigint false).wait
      let interrupt := Task.map (fun _ => Notice.interrupted) signal
      let loop := Loop.start mode ready.bound.slots false
      match ← run filter server { loop, interrupt := some interrupt } with
      | none =>
        write filter Startup.listenerPart Startup.shutDownRecord
        return 0
      | some error =>
        IO.eprintln ("Error: " ++ error.message)
        return 1

end DeflateEcho.Program

def main (arguments : List String) : IO UInt32 := DeflateEcho.Program.program arguments
