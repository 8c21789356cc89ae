import DeflateEcho.Settings.Arguments
import DeflateEcho.Settings.Directory
import DeflateEcho.Settings.FileSettings
import DeflateEcho.Text.Utf8
import DeflateEcho.Toml.Syntax

/-!
# Settings/Config — the settings in force

The command line wins over the file, and the file over the defaults.  `Config.load` goes through
three stages, the arguments, the file if one is named, and its text, and stops at the first that
fails.
-/

namespace DeflateEcho

/-- How accepted connections are served. -/
inductive ServingMode where
  /-- One after the other. -/
  | serial
  /-- Many at a time. -/
  | concurrent
  deriving DecidableEq, Repr

def ServingMode.name : ServingMode → String
  | serial => "Serial"
  | concurrent => "Concurrent"

/-- The settings of a server. -/
structure Config where
  listen : String
  mode : ServingMode
  maxSessions : Nat
  backlog : Int
  logLevel : String
  deriving DecidableEq, Repr

namespace Settings

/-- Why there are no settings. -/
inductive LoadError where
  | arguments (error : ArgumentError)
  | unreadable (path : String) (error : FileError)
  /-- The file is not well-formed. -/
  | malformed (path : String)
  | illTyped (path : String) (error : TypeError)
  deriving Repr

/-- What an unreadable file is reported as. -/
def unreadableMessage (path source : String) : String :=
  "Failed to read config file '" ++ path ++ "': " ++ source

/-- What stands before the cause where a file cannot be understood. -/
def parseLead (path : String) : String := "Failed to parse config file '" ++ path ++ "': "

/-- The settings of a file, from its bytes. -/
def FileSettings.ofBytes (path : String) (bytes : Bytes) : Except LoadError FileSettings :=
  match Text.Utf8.decode? bytes with
  | none => .error (.unreadable path .notText)
  | some text =>
    match Toml.parse (String.ofList text) with
    | none => .error (.malformed path)
    | some entries => (FileSettings.ofTable entries).mapError (.illTyped path)

end Settings

namespace Config

open Settings

/-- The settings of a command line and a file.  At least one session and one waiting connection are
allowed. -/
def merge (a : Arguments) (f : FileSettings) : Config where
  listen := a.listen.getD f.server.listen
  mode := if a.concurrent || f.server.concurrent then .concurrent else .serial
  maxSessions := max 1 (a.maxSessions.getD f.server.maxSessions)
  backlog := max 1 f.server.backlog
  logLevel := a.logLevel.getD f.logging.level

/-- The settings where nothing is given. -/
def default : Config := merge {} {}

/-- **The settings in force** for these arguments, with a way to read files. -/
def load (readFile : String → Except FileError Bytes) (arguments : List String) :
    Except LoadError Config :=
  match Arguments.parse arguments with
  | .error error => .error (.arguments error)
  | .ok a =>
    match a.config with
    | none => .ok (merge a {})
    | some path =>
      match readFile path with
      | .error error => .error (.unreadable path error)
      | .ok bytes => (FileSettings.ofBytes path bytes).map (merge a)

end Config

end DeflateEcho
