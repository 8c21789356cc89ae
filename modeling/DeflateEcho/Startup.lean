import DeflateEcho.Echo.Connection
import DeflateEcho.Listener.Bind
import DeflateEcho.Log

/-!
# Startup — from a command line to a listener, or to an exit code

The arguments, the file, its text, the address and the socket are gone through in this order, and
the first that fails decides how the program ends.
-/

namespace DeflateEcho

open Settings Listener

/-- Why the program ends before it listens. -/
inductive StartupFailure where
  | load (error : LoadError)
  | server (error : ServerError)
  | tooManySlots
  deriving Repr

namespace StartupFailure

/-- The exit code that goes with it. -/
def exitCode : StartupFailure → Nat
  | load (.arguments error) => error.exitCode
  | load _ => 1
  | server _ => 1
  | tooManySlots => 101

/-- What is said of it: the text of the error, without the place in a file where a value stands. -/
def message : StartupFailure → String
  | load (.arguments error) => error.message
  | load (.unreadable path error) => unreadableMessage path error.message
  | load (.malformed path) => parseLead path ++ "not a TOML document"
  | load (.illTyped path error) => parseLead path ++ error.message
  | server error => error.message
  | tooManySlots => "more slots for sessions than can be counted"

end StartupFailure

namespace Startup

/-- A server that is about to run. -/
structure Ready where
  config : Config
  bound : Bound
  deriving DecidableEq, Repr

/-- What the program asks of the machine that it runs on. -/
structure Machine where
  /-- The bytes of the file at a path. -/
  file : String → Except FileError Bytes
  /-- The addresses of a host by its name. -/
  hosts : HostTable := ownHosts
  /-- Why no socket can be bound to an address, if none can. -/
  refusal? : SocketAddress → Option String := SocketAddress.refusal?
  /-- Why a socket that is bound to an address cannot be taken over, if it cannot. -/
  fault? : SocketAddress → Option String := fun _ => none
  /-- The log directives in the environment, if there are any. -/
  directives? : Option String := none

/-- **Starts the server** with these arguments. -/
def start (machine : Machine) (arguments : List String) : Except StartupFailure Ready :=
  match Config.load machine.file arguments with
  | .error error => .error (.load error)
  | .ok config =>
    match bind machine.refusal? config machine.hosts machine.fault? with
    | .failed error => .error (.server error)
    | .tooManySlots => .error .tooManySlots
    | .bound bound => .ok ⟨config, bound⟩

/-! ## The log of a server

The parts of the program that its records come from are the program itself, its listener and the
handler of connections. -/

def programPart : String := "netclient_echo_server"

def listenerPart : String := "netclient_echo_server::server"

def handlerPart : String := "netclient_echo_server::protocols::echo::handler"

/-- What is logged before the address is bound. -/
def startingRecord (config : Config) : LogRecord :=
  ⟨.info, "Starting netclient-echo-server",
    [("listen", config.listen), ("mode", config.mode.name),
      ("max_sessions", toString config.maxSessions)]⟩

/-- What is logged when the accept loop begins; the address is the one that was bound. -/
def listeningRecord (mode : ServingMode) (address : String) : LogRecord :=
  ⟨.info, "Server listening", [("address", address), ("mode", mode.name)]⟩

def acceptedRecord (peer : String) : LogRecord := ⟨.debug, "New connection", [("peer", peer)]⟩

def notAcceptedRecord (reason : String) : LogRecord :=
  ⟨.error, "Failed to accept connection", [("error", reason)]⟩

/-- What is logged when a session has ended. -/
def endedRecord (peer : String) : Echo.Ending → LogRecord
  | .peerClosed => ⟨.debug, "Connection closed", [("peer", peer), ("end", "PeerClosed")]⟩
  | .disconnect => ⟨.debug, "Connection closed", [("peer", peer), ("end", "Disconnect")]⟩
  | .failed error => ⟨.debug, "Connection error", [("peer", peer), ("error", error.message)]⟩

def interruptRecord : LogRecord := ⟨.info, "Interrupt received", []⟩

def shutDownRecord : LogRecord := ⟨.info, "Server shutting down", []⟩

/-- **What is written of the log**: the directives in the environment decide, and the settings if
there are none, or one of them is wrong. -/
def logFilter (directives? : Option String) (config : Config) : LogFilter :=
  (directives?.bind LogFilter.parse?).getD (LogFilter.parse config.logLevel)

/-- The log of a server that is interrupted, as far as it is written. -/
def log (ready : Ready) (address : String) (directives? : Option String := none) :
    List LogRecord :=
  let filter := logFilter directives? ready.config
  ([(programPart, startingRecord ready.config),
      (listenerPart, listeningRecord ready.bound.mode address),
      (programPart, interruptRecord),
      (listenerPart, shutDownRecord)].filter fun entry =>
    filter.writes entry.1 entry.2.level).map Prod.snd

end Startup

end DeflateEcho
