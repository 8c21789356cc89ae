import DeflateEcho.Bits

/-!
# Echo/Command — what a received payload asks for

There is no framing: each payload is looked at on its own.  It asks to disconnect if a token stands
anywhere in it, and otherwise for its echo, in which every `x` is written out long; if it begins
with another token, everything after that echo is compressed.
-/

namespace DeflateEcho.Echo

/-- The bytes of an ASCII text. -/
def ascii (text : String) : Bytes := text.toList.map fun c => UInt8.ofNat c.toNat

/-- The token that turns compression on, at the start of a payload. -/
def compressToken : Bytes := ascii "COMPRESS"

/-- The token that ends the connection, anywhere in a payload. -/
def disconnectToken : Bytes := ascii "DISCONNECT"

/-- The byte that is written out long. -/
def shortForm : UInt8 := 0x78

/-- What is written for it. -/
def longForm : Bytes := ascii "ThisIsLong"

/-- The reply to a payload: its parts between the short forms, joined by the long form. -/
def expand (payload : Bytes) : Bytes := longForm.intercalate (payload.splitOn shortForm)

/-- The room set aside for the reply to a payload before any of it is written: the payload's own,
and for each short form counted what the long form takes beyond it. -/
def replyRoom (payload : Bytes) : Nat :=
  payload.length + (payload.filter (· = shortForm)).length * (longForm.length - 1)

/-- Whether `needle` stands somewhere in `haystack`. -/
def hasInfix (needle : Bytes) : (haystack : Bytes) → Bool
  | [] => needle.isEmpty
  | b :: rest => needle.isPrefixOf (b :: rest) || hasInfix needle rest

/-- What a payload asks for. -/
inductive Command where
  | disconnect
  | echo (reply : Bytes) (enableCompression : Bool)
  deriving DecidableEq, Repr

/-- The request in a payload.  A token that is cut off by the end of the payload counts for
nothing. -/
def parse (payload : Bytes) : Command :=
  if hasInfix disconnectToken payload then .disconnect
  else .echo (expand payload) (compressToken.isPrefixOf payload)

end DeflateEcho.Echo
