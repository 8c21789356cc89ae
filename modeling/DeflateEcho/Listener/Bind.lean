import DeflateEcho.Listener.Address
import DeflateEcho.Settings.Config

/-!
# Listener/Bind — from the settings to a bound listener

The address to listen on is resolved, a socket is bound to it and taken over, and the slots for
sessions are set up; the first of these that fails decides.  More slots than the limiter can count
are no error that is reported, but the end of the program.

What a text to listen on says is decided here.  Which addresses a host has by its name, and what
becomes of a socket, is for the machine to say.
-/

namespace DeflateEcho.Listener

open Settings (numberBelow)

/-- Why a listener cannot start, or stops. -/
inductive ServerError where
  | resolve (listen source : String)
  /-- The host is known, but has no address. -/
  | noAddress (listen : String)
  | bind (address : SocketAddress) (source : String)
  | limiterClosed
  /-- A socket that is bound cannot be taken over. -/
  | stream (source : String)
  deriving DecidableEq, Repr

def ServerError.message : ServerError → String
  | resolve listen source => "invalid listen address '" ++ listen ++ "': " ++ source
  | noAddress listen =>
    "listen address '" ++ listen ++ "' did not resolve to any socket address"
  | bind address source => "failed to bind " ++ address.text ++ ": " ++ source
  | limiterClosed => "session limiter closed"
  | stream source => "I/O error: " ++ source

/-! ## Resolving -/

/-- What is listened on, as it is written: an address, or a host by its name. -/
inductive Target where
  | address (address : SocketAddress)
  | host (name : String) (port : Nat)
  deriving DecidableEq, Repr

/-- Reads what is listened on.  What is no address is a name and a port, with the last colon
between them. -/
def Target.parse (listen : String) : Except ServerError Target :=
  match SocketAddress.parse? listen with
  | some found => .ok (.address found)
  | none =>
    match splitAtLastColon listen.toList with
    | none => .error (.resolve listen "invalid socket address")
    | some (name, port) =>
      match numberBelow 65536 (String.ofList port) with
      | .error _ => .error (.resolve listen "invalid port value")
      | .ok port => .ok (.host (String.ofList name) port)

/-- The addresses that a machine knows for the name of a host, or why it knows none. -/
abbrev HostTable := String → Except String (List HostAddress)

/-- **The address to listen on**: of several addresses of a host it is the first. -/
def resolve (hosts : HostTable) (listen : String) : Except ServerError SocketAddress :=
  match Target.parse listen with
  | .error error => .error error
  | .ok (.address address) => .ok address
  | .ok (.host name port) =>
    match hosts name with
    | .error reason => .error (.resolve listen reason)
    | .ok [] => .error (.noAddress listen)
    | .ok (host :: _) => .ok ⟨host, port⟩

/-! ## A machine that knows only itself -/

/-- A part of a numeric host: decimal, or octal or hexadecimal behind its sign. -/
def hostPart? : List Char → Option Nat
  | [] => none
  | ['0'] => some 0
  | '0' :: x :: digits =>
    if x = 'x' ∨ x = 'X' then
      if digits.isEmpty then none
      else (digits.mapM hexValue?).map fun ds => ds.foldl (fun n d => 16 * n + d) 0
    else (decimal? true (1 <<< 64) (x :: digits)).bind fun _ =>
      if (x :: digits).all (· < '8') then
        some ((x :: digits).foldl (fun n c => 8 * n + (c.toNat - '0'.toNat)) 0)
      else none
  | digits => decimal? true (1 <<< 32) digits

/-- A host that is given as up to four numbers, the last of which fills what is left of the
address. -/
def numericHost? (host : List Char) : Option HostAddress := do
  let parts ← (partsAt '.' host).mapM hostPart?
  let whole ← match parts with
    | [a] => some a
    | [a, b] => if a < 256 ∧ b < 1 <<< 24 then some ((a <<< 24) + b) else none
    | [a, b, c] =>
      if a < 256 ∧ b < 256 ∧ c < 1 <<< 16 then some ((a <<< 24) + (b <<< 16) + c) else none
    | [a, b, c, d] =>
      if a < 256 ∧ b < 256 ∧ c < 256 ∧ d < 256 then
        some ((a <<< 24) + (b <<< 16) + (c <<< 8) + d)
      else none
    | _ => none
  if whole < 1 <<< 32 then
    some (.v4 (whole >>> 24).toUInt8 (whole >>> 16).toUInt8 (whole >>> 8).toUInt8
      whole.toUInt8)
  else none

/-- The hosts that such a machine knows: its own name, and numbers in any form. -/
def ownHosts : HostTable := fun name =>
  let address? :=
    if name = "localhost" then some (.v4 127 0 0 1)
    else (numericHost? name.toList).or ((v6? name.toList).map fun groups => .v6 groups 0)
  match address? with
  | some address => .ok [address]
  | none => .error "failed to lookup address information: Name or service not known"

/-- Whether it lets a socket be bound to this address: its own loopback addresses, any of its
addresses, and addresses that are shared. -/
def HostAddress.isBindable : HostAddress → Bool
  | v4 a b c d =>
    a = 127 || (a = 0 && b = 0 && c = 0 && d = 0) || (224 ≤ a && a < 240)
      || (a = 255 && b = 255 && c = 255 && d = 255)
  | v6 groups _ => groups.dropLast.all (· = 0) && groups.getLast?.all (· ≤ 1)

/-- What it says to a socket that is to be bound to an address, if it refuses. -/
def SocketAddress.refusal? (address : SocketAddress) : Option String :=
  if address.host.isBindable then none
  else some "Cannot assign requested address (os error 99)"

/-! ## Binding -/

/-- The greatest number of slots that the limiter can count. -/
def maxSlots : Nat := 2305843009213693951

/-- A listener that is bound and not running yet. -/
structure Bound where
  address : SocketAddress
  mode : ServingMode
  slots : Nat
  deriving DecidableEq, Repr

/-- What becomes of binding. -/
inductive BindOutcome where
  | bound (bound : Bound)
  | failed (error : ServerError)
  /-- The limiter cannot count so many slots. -/
  | tooManySlots
  deriving DecidableEq, Repr

/-- **Binds the listener** of these settings, on a machine that may refuse an address, or a socket
that is bound to it already, and say why. -/
def bind (refusal? : SocketAddress → Option String) (config : Config)
    (hosts : HostTable := ownHosts) (fault? : SocketAddress → Option String := fun _ => none) :
    BindOutcome :=
  match resolve hosts config.listen with
  | .error error => .failed error
  | .ok address =>
    match refusal? address with
    | some reason => .failed (.bind address reason)
    | none =>
      match fault? address with
      | some reason => .failed (.stream reason)
      | none =>
        if maxSlots < config.maxSessions then .tooManySlots
        else .bound { address, mode := config.mode, slots := config.maxSessions }

end DeflateEcho.Listener
