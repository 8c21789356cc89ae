/-!
# Settings/Arguments — the settings that a command line gives

Arguments are read from left to right, and the first problem wins.  An option's value stands in the
same argument, or in the next one; in that case the option is **open** until the next option that is
known, or the end, settles it.  So a value that stands apart is checked late, and an argument that
nobody knows is reported before the option in front of it.
-/

namespace DeflateEcho.Settings

/-- The options of the command line. -/
inductive CliOption where
  | config
  | listen
  | concurrent
  | maxSessions
  | logLevel
  | help
  | version
  deriving DecidableEq, Repr

namespace CliOption

def all : List CliOption := [config, listen, concurrent, maxSessions, logLevel, help, version]

/-- The name behind two dashes. -/
def long : CliOption → String
  | config => "config"
  | listen => "listen"
  | concurrent => "concurrent"
  | maxSessions => "max-sessions"
  | logLevel => "log-level"
  | help => "help"
  | version => "version"

/-- The letter behind one dash. -/
def short? : CliOption → Option Char
  | config => some 'c'
  | listen => some 'l'
  | maxSessions => some 'm'
  | help => some 'h'
  | version => some 'V'
  | concurrent | logLevel => none

/-- The name of its value, for an option that takes one. -/
def valueName? : CliOption → Option String
  | config => some "CONFIG"
  | listen => some "LISTEN"
  | maxSessions => some "MAX_SESSIONS"
  | logLevel => some "LOG_LEVEL"
  | concurrent | help | version => none

/-- An option as errors name it. -/
def shown (o : CliOption) : String :=
  "--" ++ o.long ++ (match o.valueName? with | some name => " <" ++ name ++ ">" | none => "")

/-- What the option is for. -/
def purpose : CliOption → String
  | config => "Path to TOML configuration file"
  | listen => "Address to bind to (e.g., 127.0.0.1:65000)"
  | concurrent => "Serve sessions concurrently instead of one at a time"
  | maxSessions => "Maximum sessions running at once in concurrent mode"
  | logLevel => "Log level (trace, debug, info, warn, error)"
  | help => "Print help"
  | version => "Print version"

/-- The option in a list of all. -/
def entry (o : CliOption) : String :=
  let letter := match o.short? with
    | some c => "-" ++ c.toString ++ ", "
    | none => "    "
  let name := letter ++ o.shown
  "  " ++ String.ofList (name.toList.rightpad 34 ' ') ++ o.purpose

def ofLong? (name : List Char) : Option CliOption := all.find? fun o => o.long.toList = name

def ofShort? (c : Char) : Option CliOption := all.find? fun o => o.short? = some c

end CliOption

/-- The settings of a command line; what is not given is absent. -/
structure Arguments where
  config : Option String := none
  listen : Option String := none
  concurrent : Bool := false
  maxSessions : Option Nat := none
  logLevel : Option String := none
  deriving DecidableEq, Repr

/-! ## Numbers -/

/-- Why a text is not a number. -/
inductive NumberError where
  | empty
  | invalidDigit
  | tooLarge
  deriving DecidableEq, Repr

def NumberError.message : NumberError → String
  | empty => "cannot parse integer from empty string"
  | invalidDigit => "invalid digit found in string"
  | tooLarge => "number too large to fit in target type"

/-- Decimal digits behind a number read so far, up to a bound.  The first character that is no digit
or takes the number to the bound decides. -/
def decimalBelow (bound : Nat) (n : Nat) : List Char → Except NumberError Nat
  | [] => .ok n
  | c :: rest =>
    if c.isDigit then
      let n := 10 * n + (c.toNat - '0'.toNat)
      if n < bound then decimalBelow bound n rest else .error .tooLarge
    else .error .invalidDigit

/-- A number below a bound, in decimal digits that a plus may precede. -/
def numberBelow (bound : Nat) (text : String) : Except NumberError Nat :=
  match text.toList with
  | [] => .error .empty
  | ['+'] => .error .invalidDigit
  | '+' :: digits => decimalBelow bound 0 digits
  | digits => decimalBelow bound 0 digits

/-! ## Errors -/

/-- Why a command line gives no settings. -/
inductive ArgumentError where
  /-- Nothing is known by this name, or a value stands where none is wanted. -/
  | unknown (shown : String)
  /-- An option is without the value it needs, or a path is empty. -/
  | missingValue (o : CliOption)
  | unneededValue (o : CliOption) (value : String)
  | repeated (o : CliOption)
  | invalidNumber (o : CliOption) (value : String) (cause : NumberError)
  | help
  | version
  deriving DecidableEq, Repr

/-- The name and version of the program. -/
def versionLine : String := "netclient-echo-server 0.1.0\n"

/-- What the program is for and how it is called. -/
def helpText : String :=
  "Echo test server with deflate renegotiation and server-side disconnect\n\n"
    ++ "Usage: netclient-echo-server [OPTIONS]\n\nOptions:\n"
    ++ String.intercalate "\n" (CliOption.all.map CliOption.entry) ++ "\n"

namespace ArgumentError

/-- The exit code that goes with it. -/
def exitCode : ArgumentError → Nat
  | help | version => 0
  | _ => 2

/-- What is written about it. -/
def message : ArgumentError → String
  | unknown shown => "error: unexpected argument '" ++ shown ++ "' found"
  | missingValue o => "error: a value is required for '" ++ o.shown ++ "' but none was supplied"
  | unneededValue o value =>
    "error: unexpected value '" ++ value ++ "' for '" ++ o.shown ++ "' found; no more were expected"
  | repeated o => "error: the argument '" ++ o.shown ++ "' cannot be used multiple times"
  | invalidNumber o value cause =>
    "error: invalid value '" ++ value ++ "' for '" ++ o.shown ++ "': " ++ cause.message
  | help => helpText
  | version => versionLine

end ArgumentError

/-! ## Taking over options -/

namespace Arguments

/-- Whether an option has been given already. -/
def has (a : Arguments) : CliOption → Bool
  | .config => a.config.isSome
  | .listen => a.listen.isSome
  | .concurrent => a.concurrent
  | .maxSessions => a.maxSessions.isSome
  | .logLevel => a.logLevel.isSome
  | .help | .version => false

/-- Takes over an option with its value, if it has one. -/
def take (a : Arguments) (o : CliOption) (value? : Option String) :
    Except ArgumentError Arguments :=
  match o, value? with
  | .help, _ => .error .help
  | .version, _ => .error .version
  | .concurrent, _ => if a.has o then .error (.repeated o) else .ok { a with concurrent := true }
  | o, none => .error (.missingValue o)
  | o, some value =>
    if a.has o then .error (.repeated o)
    else
      match o with
      | .config =>
        if value.isEmpty then .error (.missingValue o) else .ok { a with config := some value }
      | .listen => .ok { a with listen := some value }
      | .logLevel => .ok { a with logLevel := some value }
      | _ =>
        match numberBelow (1 <<< 64) value with
        | .ok n => .ok { a with maxSessions := some n }
        | .error cause => .error (.invalidNumber o value cause)

end Arguments

/-! ## Reading -/

/-- A command line that has been read up to some argument. -/
structure Progress where
  arguments : Arguments := {}
  /-- An option that is open, and its value once that has come. -/
  pending : Option (CliOption × Option String) := none
  /-- No more options may come. -/
  trailing : Bool := false
  deriving DecidableEq, Repr

namespace Progress

/-- Settles an option that is open. -/
def settle (p : Progress) : Except ArgumentError Progress :=
  match p.pending with
  | none => .ok p
  | some (o, value?) => do
    let arguments ← p.arguments.take o value?
    return { p with arguments, pending := none }

/-- An option that is known, with the value in its own argument if there is one. -/
def option (p : Progress) (o : CliOption) (attached? : Option String) :
    Except ArgumentError Progress := do
  let p ← p.settle
  match o.valueName?, attached? with
  | some _, none => return { p with pending := some (o, none) }
  | _, attached? =>
    let arguments ← p.arguments.take o attached?
    return { p with arguments }

/-- A value behind an option's letter; an equals sign before it does not belong to it. -/
def attachedValue? : List Char → Option String
  | [] => none
  | '=' :: value => some (String.ofList value)
  | value => some (String.ofList value)

/-- Letters behind one dash: flags, and at last an option that takes what is left for its value. -/
def letters (p : Progress) : List Char → Except ArgumentError Progress
  | [] => .ok p
  | c :: rest =>
    match CliOption.ofShort? c with
    | none => .error (.unknown (String.ofList ['-', c]))
    | some o =>
      match o.valueName? with
      | some _ => p.option o (attachedValue? rest)
      | none => do
        let p ← p.option o none
        p.letters rest

/-- A name behind two dashes, and what stands behind the first equals sign. -/
def longName (p : Progress) (text : List Char) : Except ArgumentError Progress :=
  let name := text.takeWhile (· ≠ '=')
  let attached? := match text.dropWhile (· ≠ '=') with
    | [] => none
    | _ :: value => some (String.ofList value)
  match CliOption.ofLong? name, attached? with
  | none, _ => .error (.unknown (String.ofList ('-' :: '-' :: name)))
  | some o, some value =>
    match o.valueName? with
    | some _ => p.option o (some value)
    | none => .error (.unneededValue o value)
  | some o, none => p.option o none

/-- An argument that names no option: the value of one that is open, or too much. -/
def plain (p : Progress) (argument : String) : Except ArgumentError Progress :=
  match p.pending with
  | some (o, none) => .ok { p with pending := some (o, some argument) }
  | _ => .error (.unknown argument)

/-- The next argument. -/
def next (p : Progress) (argument : String) : Except ArgumentError Progress :=
  if p.trailing then .error (.unknown argument)
  else
    match argument.toList with
    | ['-', '-'] => .ok { p with trailing := true }
    | '-' :: '-' :: name => p.longName name
    | '-' :: c :: rest => p.letters (c :: rest)
    | _ => p.plain argument

end Progress

/-- **The settings of a command line.** -/
def Arguments.parse (arguments : List String) : Except ArgumentError Arguments := do
  let p ← arguments.foldlM Progress.next {}
  let p ← p.settle
  return p.arguments

end DeflateEcho.Settings
