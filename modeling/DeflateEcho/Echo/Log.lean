import DeflateEcho.Log
import DeflateEcho.Session

/-!
# Echo/Log — what the handler of a connection logs

The events of a connection, and each as a record of the log.
-/

namespace DeflateEcho

namespace Echo

/-- What the handler of a connection logs. -/
inductive LogEvent where
  /-- A read gave so many bytes, and the session stood in this mode. -/
  | readChunk (bytes : Nat) (mode : Mode)
  | closedByClient
  /-- The text of a payload. -/
  | received (payload : String)
  | disconnectRequested
  /-- A reply of so many bytes was written completely. -/
  | sentReply (bytes : Nat)
  | compressionEnabled
  deriving DecidableEq, Repr

/-- An event as it is written down. -/
def LogEvent.record : LogEvent → LogRecord
  | readChunk bytes mode =>
    ⟨.trace, "Read chunk", [("bytes", toString bytes), ("state", mode.name)]⟩
  | closedByClient => ⟨.trace, "Connection closed by client", []⟩
  | received payload => ⟨.debug, "Received", [("payload", payload)]⟩
  | disconnectRequested => ⟨.debug, "Disconnect requested", []⟩
  | sentReply bytes => ⟨.trace, "Sent reply", [("bytes", toString bytes)]⟩
  | compressionEnabled => ⟨.debug, "Compression enabled", []⟩

end Echo

end DeflateEcho
