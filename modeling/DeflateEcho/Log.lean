/-!
# Log — records of a log, and which of them are written

A record has a level, a message and named fields, and comes from a part of the program.  Which
records are written is said by **directives** between commas: a level for all parts, or a part with
a level of its own.  The directive for the longest matching part decides.
-/

namespace DeflateEcho

/-- How important a log event is, the least important first. -/
inductive LogLevel where
  | trace
  | debug
  | info
  | warn
  | error
  deriving DecidableEq, Repr

namespace LogLevel

/-- The place of a level among all, the most important first. -/
def rank : LogLevel → Nat
  | error => 1
  | warn => 2
  | info => 3
  | debug => 4
  | trace => 5

def name : LogLevel → String
  | trace => "TRACE"
  | debug => "DEBUG"
  | info => "INFO"
  | warn => "WARN"
  | error => "ERROR"

end LogLevel

/-- A log event as it is written down. -/
structure LogRecord where
  level : LogLevel
  message : String
  fields : List (String × String)
  deriving DecidableEq, Repr

/-- A record as a line of text. -/
def LogRecord.line (r : LogRecord) : String :=
  String.intercalate " " (r.level.name :: r.message
    :: r.fields.map fun (name, value) => name ++ "=" ++ value)

/-! ## Directives -/

/-- A part of the program, empty for all of it, and the rank up to which its records are written. -/
structure LogDirective where
  part : String
  rank : Nat
  deriving DecidableEq, Repr

/-- The directives in force. -/
structure LogFilter where
  directives : List LogDirective
  deriving DecidableEq, Repr

namespace LogFilter

/-- The rank that a word or a digit stands for. -/
def rank? (text : String) : Option Nat :=
  match text.toLower with
  | "off" | "0" => some 0
  | "error" | "1" => some 1
  | "warn" | "2" => some 2
  | "info" | "3" => some 3
  | "debug" | "4" => some 4
  | "trace" | "5" => some 5
  | _ => none

/-- A character of the name of a part. -/
def isPartChar (c : Char) : Bool := c.isAlphanum || c = '_' || c = ':' || c = '-'

/-- One directive; what is none is passed over. -/
def directive? (text : String) : Option LogDirective :=
  match rank? text, text.splitOn "=" with
  | some rank, _ => some ⟨"", rank⟩
  | none, [part] => if part.toList.all isPartChar then some ⟨part, 5⟩ else none
  | none, [part, level] =>
    if part.toList.all isPartChar then
      if level.isEmpty then some ⟨part, 5⟩ else (rank? level).map fun rank => ⟨part, rank⟩
    else none
  | none, _ => none

/-- What stands between the commas of a text. -/
def parts (text : String) : List String := (text.splitOn ",").filter fun part => ! part.isEmpty

/-- The filter that a text gives; without any directive only errors are written. -/
def parse (text : String) : LogFilter :=
  let directives := (parts text).filterMap directive?
  ⟨if directives.isEmpty then [⟨"", 1⟩] else directives⟩

/-- The filter that a text gives if nothing but directives stands in it. -/
def parse? (text : String) : Option LogFilter :=
  if (parts text).all fun part => (directive? part).isSome then some (parse text) else none

/-- Whether a record of this level from this part is written. -/
def writes (f : LogFilter) (part : String) (level : LogLevel) : Bool :=
  let best := f.directives.foldl (fun (best : Option LogDirective) d =>
    if d.part.toList.isPrefixOf part.toList
        ∧ best.all (fun b => b.part.length ≤ d.part.length) then some d
    else best) none
  best.any fun d => level.rank ≤ d.rank

end LogFilter

end DeflateEcho
