import DeflateEcho.Codec

/-!
# Session — one connection's way from plaintext through compression to its end

A session starts in plaintext.  Once compression is on, both directions pass through the session's
codec until the connection closes; there is no way back.
-/

namespace DeflateEcho

/-- Where a session stands. -/
inductive Mode where
  | plaintext
  | compressed
  | closed
  deriving DecidableEq, Repr

def Mode.name : Mode → String
  | plaintext => "Plaintext"
  | compressed => "Compressed"
  | closed => "Closed"

/-- The state of one connection. -/
structure Session where
  mode : Mode := .plaintext
  codec : Codec := {}

namespace Session

/-- The payload of received bytes. -/
def decode (s : Session) (raw : Bytes) : Except CodecError Bytes × Session :=
  match s.mode with
  | .compressed =>
    let (payload, codec) := s.codec.decompress raw
    (payload, { s with codec })
  | _ => (.ok raw, s)

/-- The bytes to send for a reply. -/
def encode (s : Session) (reply : Bytes) : Bytes × Session :=
  match s.mode with
  | .compressed =>
    let (frame, codec) := s.codec.compress reply
    (frame, { s with codec })
  | _ => (reply, s)

/-- Turns compression on if the session is still in plaintext, and says whether it did. -/
def enableCompression (s : Session) : Bool × Session :=
  match s.mode with
  | .plaintext => (true, { s with mode := .compressed })
  | _ => (false, s)

/-- The session at its end. -/
def close (s : Session) : Session := { s with mode := .closed }

end Session

end DeflateEcho
