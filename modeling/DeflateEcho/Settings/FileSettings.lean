import DeflateEcho.Number.Shortest
import DeflateEcho.Text.Quoted
import DeflateEcho.Toml.Value

/-!
# Settings/FileSettings — the settings that a configuration file gives

A file has a section for the server and one for logging.  A section is read **by key**, in the order
in which its keys stand in the table, or, given as an array, **by position**.  What is not given has
a default, unknown keys are passed over, and the first value that does not fit is an error.
-/

namespace DeflateEcho.Settings

open Toml (Value)

/-- What a place in a file wants. -/
inductive Expected where
  | string
  | boolean
  /-- A whole number from 0. -/
  | count
  /-- A whole number of 32 bits, with a sign. -/
  | signed32
  | serverSection
  | loggingSection
  deriving DecidableEq, Repr

def Expected.name : Expected → String
  | string => "a string"
  | boolean => "a boolean"
  | count => "usize"
  | signed32 => "i32"
  | serverSection => "struct ServerConfig"
  | loggingSection => "struct LoggingConfig"

/-- A value that does not fit. -/
inductive TypeError where
  /-- It is of another kind. -/
  | invalidType (found : Value) (expected : Expected)
  /-- It is a whole number out of range. -/
  | outOfRange (n : Int) (expected : Expected)
  deriving Repr

/-- A value as an error names it: its kind, and itself if it has no parts. -/
def describe : Value → String
  | .string text => "string " ++ Text.quote text
  | .integer n => "integer \x60" ++ toString n ++ "\x60"
  | .float x => "floating point \x60" ++ x.text ++ "\x60"
  | .boolean b => "boolean \x60" ++ (if b then "true" else "false") ++ "\x60"
  | .dateTime => "map"
  | .array _ => "sequence"
  | .table _ => "map"

def TypeError.message : TypeError → String
  | invalidType found expected =>
    "invalid type: " ++ describe found ++ ", expected " ++ expected.name
  | outOfRange n expected =>
    "invalid value: " ++ describe (.integer n) ++ ", expected " ++ expected.name

/-! ## Single values -/

def string (v : Value) : Except TypeError String :=
  match v with
  | .string text => .ok text
  | v => .error (.invalidType v .string)

def boolean (v : Value) : Except TypeError Bool :=
  match v with
  | .boolean b => .ok b
  | v => .error (.invalidType v .boolean)

/-- A whole number from 0; a file cannot hold one that is too large. -/
def count (v : Value) : Except TypeError Nat :=
  match v with
  | .integer n => if 0 ≤ n then .ok n.toNat else .error (.outOfRange n .count)
  | v => .error (.invalidType v .count)

def signed32 (v : Value) : Except TypeError Int :=
  match v with
  | .integer n =>
    if -0x80000000 ≤ n ∧ n < 0x80000000 then .ok n else .error (.outOfRange n .signed32)
  | v => .error (.invalidType v .signed32)

/-! ## Sections -/

/-- The server section of a file. -/
structure ServerSection where
  listen : String := "127.0.0.1:65000"
  concurrent : Bool := false
  maxSessions : Nat := 1024
  backlog : Int := 16
  deriving DecidableEq, Repr

/-- The logging section of a file. -/
structure LoggingSection where
  level : String := "info"
  deriving DecidableEq, Repr

namespace ServerSection

/-- Takes over the value of a key. -/
def set (s : ServerSection) (key : String) (v : Value) : Except TypeError ServerSection :=
  if key = "listen" then (string v).map fun listen => { s with listen }
  else if key = "concurrent" then (boolean v).map fun concurrent => { s with concurrent }
  else if key = "max_sessions" then (count v).map fun maxSessions => { s with maxSessions }
  else if key = "backlog" then (signed32 v).map fun backlog => { s with backlog }
  else .ok s

/-- The section by key. -/
def ofTable (entries : List (String × Value)) : Except TypeError ServerSection :=
  entries.foldlM (fun s (key, v) => s.set key v) {}

/-- The section by position: listen, concurrent, sessions, backlog.  What is missing at the end has
its default, and what comes after these is passed over. -/
def ofArray (items : List Value) : Except TypeError ServerSection := do
  let defaults : ServerSection := {}
  let (listen, items) ← next string defaults.listen items
  let (concurrent, items) ← next boolean defaults.concurrent items
  let (maxSessions, items) ← next count defaults.maxSessions items
  let (backlog, _) ← next signed32 defaults.backlog items
  return { listen, concurrent, maxSessions, backlog }
where
  /-- The first item, or a default if there is none. -/
  next {α : Type} (read : Value → Except TypeError α) (absent : α) :
      List Value → Except TypeError (α × List Value)
    | [] => .ok (absent, [])
    | v :: items => (read v).map fun a => (a, items)

def ofValue (v : Value) : Except TypeError ServerSection :=
  match v with
  | .table entries => ofTable entries
  | .array items => ofArray items
  | .dateTime => .ok {}
  | v => .error (.invalidType v .serverSection)

end ServerSection

namespace LoggingSection

/-- Takes over the value of a key. -/
def set (s : LoggingSection) (key : String) (v : Value) : Except TypeError LoggingSection :=
  if key = "level" then (string v).map fun level => { s with level } else .ok s

/-- The section by key. -/
def ofTable (entries : List (String × Value)) : Except TypeError LoggingSection :=
  entries.foldlM (fun s (key, v) => s.set key v) {}

/-- The section by position. -/
def ofArray : List Value → Except TypeError LoggingSection
  | [] => .ok {}
  | v :: _ => (string v).map fun level => { level }

def ofValue (v : Value) : Except TypeError LoggingSection :=
  match v with
  | .table entries => ofTable entries
  | .array items => ofArray items
  | .dateTime => .ok {}
  | v => .error (.invalidType v .loggingSection)

end LoggingSection

/-- The settings of a file. -/
structure FileSettings where
  server : ServerSection := {}
  logging : LoggingSection := {}
  deriving DecidableEq, Repr

namespace FileSettings

/-- Takes over a section. -/
def set (s : FileSettings) (key : String) (v : Value) : Except TypeError FileSettings :=
  if key = "server" then (ServerSection.ofValue v).map fun server => { s with server }
  else if key = "logging" then (LoggingSection.ofValue v).map fun logging => { s with logging }
  else .ok s

/-- **The settings in the table of a file.** -/
def ofTable (entries : List (String × Value)) : Except TypeError FileSettings :=
  entries.foldlM (fun s (key, v) => s.set key v) {}

end FileSettings

end DeflateEcho.Settings
