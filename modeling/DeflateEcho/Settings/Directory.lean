import DeflateEcho.Bits

/-!
# Settings/Directory — reading a file by its path

A `Directory` is a working directory with the files and directories in it.  A path is followed
component by component, each of which has to stand in a directory, so what is reported is the first
thing that is wrong on the way.
-/

namespace DeflateEcho.Settings

/-- Why a file cannot be read. -/
inductive FileError where
  | notFound
  | notDirectory
  | isDirectory
  | nameTooLong
  /-- The path holds a character that ends names. -/
  | endedName
  | notText
  /-- Anything else, in the words of the system. -/
  | other (text : String)
  deriving DecidableEq, Repr

def FileError.message : FileError → String
  | notFound => "No such file or directory (os error 2)"
  | notDirectory => "Not a directory (os error 20)"
  | isDirectory => "Is a directory (os error 21)"
  | nameTooLong => "File name too long (os error 36)"
  | endedName => "file name contained an unexpected NUL byte"
  | notText => "stream did not contain valid UTF-8"
  | other text => text

/-- A working directory: the paths in it, each with the bytes of a file or as a directory. -/
structure Directory where
  entries : List (List String × Option Bytes) := []

namespace Directory

/-- What stands at a place in a working directory. -/
inductive Found where
  | file (bytes : Bytes)
  | directory
  | nothing

/-- Where following a path has come to. -/
inductive Location where
  /-- Below the working directory. -/
  | inside (path : List String)
  /-- Above the working directory, of which nothing is known. -/
  | above

/-- What stands at a path without dots. -/
def at? (d : Directory) (path : List String) : Found :=
  match d.entries.lookup path with
  | some (some bytes) => .file bytes
  | some none => .directory
  | none =>
    if path.isEmpty ∨ d.entries.any (fun entry => path.isPrefixOf entry.1) then .directory
    else .nothing

def found (d : Directory) : Location → Found
  | .inside path => d.at? path
  | .above => .directory

/-- The longest component of a path, and the longest path, in bytes. -/
def maxComponent : Nat := 255

def maxPath : Nat := 4095

/-- Follows one component. -/
def step (d : Directory) (location : Location) (component : String) :
    Except FileError Location :=
  match d.found location with
  | .nothing => .error .notFound
  | .file _ => .error .notDirectory
  | .directory =>
    if component = "" ∨ component = "." then .ok location
    else if maxComponent < component.utf8ByteSize then .error .nameTooLong
    else
      match location with
      | .above => if component = ".." then .ok .above else .error .notFound
      | .inside path =>
        if component ≠ ".." then .ok (.inside (path ++ [component]))
        else if path.isEmpty then .ok .above
        else .ok (.inside path.dropLast)

/-- **Reads the file at a path.** -/
def read (d : Directory) (path : String) : Except FileError Bytes := do
  if path.toList.contains '\x00' then throw .endedName
  if path.isEmpty then throw .notFound
  if maxPath < path.utf8ByteSize then throw .nameTooLong
  let start := if path.startsWith "/" then .above else .inside []
  let location ← (path.splitOn "/").foldlM d.step start
  match d.found location with
  | .file bytes => return bytes
  | .directory => throw .isDirectory
  | .nothing => throw .notFound

end Directory

end DeflateEcho.Settings
