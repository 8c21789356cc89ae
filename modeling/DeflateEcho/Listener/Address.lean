/-!
# Listener/Address — socket addresses and their text

An address is four numbers or eight groups, with a port.  `SocketAddress.parse?` reads the usual
forms, and `SocketAddress.text` writes the one of them in which the longest run of zero groups is
left out.
-/

namespace DeflateEcho.Listener

/-- An address of a host. -/
inductive HostAddress where
  | v4 (a b c d : UInt8)
  /-- Eight groups of 16 bits, and the number of a link if the address belongs to one. -/
  | v6 (groups : List Nat) (link : Nat)
  deriving DecidableEq, Repr

/-- An address and a port. -/
structure SocketAddress where
  host : HostAddress
  port : Nat
  deriving DecidableEq, Repr

/-! ## Reading -/

/-- Decimal digits as a number below a bound.  Leading zeros are fine if `zeros` says so. -/
def decimal? (zeros : Bool) (bound : Nat) (digits : List Char) : Option Nat :=
  if digits.isEmpty ∨ ¬ digits.all Char.isDigit then none
  else if ¬ zeros ∧ 1 < digits.length ∧ digits.head? = some '0' then none
  else
    let n := digits.foldl (fun n c => 10 * n + (c.toNat - '0'.toNat)) 0
    if n < bound then some n else none

/-- A port, in decimal digits. -/
def port? (text : List Char) : Option Nat := decimal? true 65536 text

/-- Parts of a text between points or colons. -/
def partsAt (separator : Char) (text : List Char) : List (List Char) := text.splitOn separator

/-- Four numbers between points. -/
def v4? (text : List Char) : Option (List Nat) :=
  let parts := partsAt '.' text
  if parts.length = 4 then parts.mapM (decimal? false 256) else none

/-- The number of a hexadecimal digit. -/
def hexValue? (c : Char) : Option Nat :=
  if c.isDigit then some (c.toNat - '0'.toNat)
  else if 'a' ≤ c ∧ c ≤ 'f' then some (c.toNat - 'a'.toNat + 10)
  else if 'A' ≤ c ∧ c ≤ 'F' then some (c.toNat - 'A'.toNat + 10)
  else none

/-- One group of up to four hexadecimal digits. -/
def group? (text : List Char) : Option Nat :=
  if text.isEmpty ∨ 4 < text.length then none
  else (text.mapM hexValue?).map fun digits => digits.foldl (fun n d => 16 * n + d) 0

/-- Groups between colons, of which the last two may be written as four numbers. -/
def groups? : List (List Char) → Option (List Nat)
  | [] => some []
  | [last] =>
    match v4? last with
    | some [a, b, c, d] => some [256 * a + b, 256 * c + d]
    | _ => (group? last).map fun g => [g]
  | part :: parts => do
    let g ← group? part
    let gs ← groups? parts
    some (g :: gs)

/-- The groups of one side of the place that stands for zeros. -/
def sideGroups? (text : List Char) : Option (List Nat) :=
  if text.isEmpty then some [] else groups? (partsAt ':' text)

/-- The two sides of the first double colon. -/
def splitAtGap : List Char → Option (List Char × List Char)
  | ':' :: ':' :: rest => some ([], rest)
  | c :: rest => (splitAtGap rest).map fun (left, right) => (c :: left, right)
  | [] => none

/-- Eight groups, a run of them that are zero left out at most once. -/
def v6? (text : List Char) : Option (List Nat) :=
  match splitAtGap text with
  | none => (groups? (partsAt ':' text)).filter fun groups => groups.length = 8
  | some (left, right) => do
    let before ← sideGroups? left
    let behind ← sideGroups? right
    if left.contains '.' ∨ 8 ≤ before.length + behind.length then none
    else some (before ++ List.replicate (8 - before.length - behind.length) 0 ++ behind)

/-- The parts of a text before and behind its last colon. -/
def splitAtLastColon (text : List Char) : Option (List Char × List Char) :=
  let behind := (text.reverse.takeWhile (· ≠ ':')).reverse
  if behind.length < text.length then some (text.take (text.length - behind.length - 1), behind)
  else none

/-- The number of a link behind a percent sign, zero if there is none. -/
def link? : List Char → Option Nat
  | [] => some 0
  | _ :: digits => decimal? true (1 <<< 32) digits

/-- Eight groups in brackets. -/
def bracketed? (text : List Char) : Option HostAddress :=
  match text.head?, text.getLast? with
  | some '[', some ']' => do
    let inner := (text.drop 1).dropLast
    let groups ← v6? (inner.takeWhile (· ≠ '%'))
    let link ← link? (inner.dropWhile (· ≠ '%'))
    some (.v6 groups link)
  | _, _ => none

/-- An address of a host, as it stands before a port. -/
def host? (text : List Char) : Option HostAddress :=
  match v4? text with
  | some [a, b, c, d] => some (.v4 a.toUInt8 b.toUInt8 c.toUInt8 d.toUInt8)
  | _ => bracketed? text

/-- **Reads an address with a port.** -/
def SocketAddress.parse? (text : String) : Option SocketAddress := do
  let (host, port) ← splitAtLastColon text.toList
  return ⟨← host? host, ← port? port⟩

/-! ## Writing -/

/-- The length of the run of zeros at the front. -/
def zeroRun (groups : List Nat) : Nat := (groups.takeWhile (· = 0)).length

/-- The longest run of zero groups, the first of several: where it begins and how long it is. -/
def longestGap (groups : List Nat) : Nat × Nat :=
  (List.range groups.length).foldl (fun best start =>
    let run := zeroRun (groups.drop start)
    if best.2 < run then (start, run) else best) (0, 0)

def groupText (g : Nat) : String := String.ofList (Nat.toDigits 16 g)

/-- Groups between colons. -/
def groupsText (groups : List Nat) : String := String.intercalate ":" (groups.map groupText)

/-- The text of eight groups. -/
def v6Text (groups : List Nat) : String :=
  match groups with
  | [0, 0, 0, 0, 0, 65535, g, h] =>
    "::ffff:" ++ String.intercalate "."
      ([g / 256, g % 256, h / 256, h % 256].map toString)
  | groups =>
    let (start, run) := longestGap groups
    if run < 2 then groupsText groups
    else groupsText (groups.take start) ++ "::" ++ groupsText (groups.drop (start + run))

/-- The text of an address without a port. -/
def HostAddress.text : HostAddress → String
  | v4 a b c d => String.intercalate "." ([a, b, c, d].map fun n => toString n.toNat)
  | v6 groups link => v6Text groups ++ (if link = 0 then "" else "%" ++ toString link)

/-- The text of an address with something in the place of its port. -/
def SocketAddress.textWith (address : SocketAddress) (port : String) : String :=
  match address.host with
  | .v4 .. => address.host.text ++ ":" ++ port
  | .v6 .. => "[" ++ address.host.text ++ "]:" ++ port

/-- **The text of an address with its port.** -/
def SocketAddress.text (address : SocketAddress) : String :=
  address.textWith (toString address.port)

end DeflateEcho.Listener
