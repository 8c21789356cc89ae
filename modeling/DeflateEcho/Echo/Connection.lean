import DeflateEcho.Echo.Command
import DeflateEcho.Echo.Log
import DeflateEcho.Echo.Stream
import DeflateEcho.Text.Blank
import DeflateEcho.Text.Utf8

/-!
# Echo/Connection — serving one connection from its first read to its end

Every read is decoded, looked at and answered before the next one.  A **turn** is what happened
about one read: what was logged and what was sent.  A run is a list of turns and how it ended;
what an observer of the stream sees and what the log shows are two views of it.
-/

namespace DeflateEcho.Echo

/-- Why a session ends abnormally. -/
inductive SessionError where
  | stream (fault : Fault)
  | codec (error : CodecError)
  deriving DecidableEq, Repr

def SessionError.message : SessionError → String
  | stream fault => "I/O error: " ++ fault.text
  | codec error => "codec error: " ++ error.message

/-- How a session ends. -/
inductive Ending where
  /-- A payload was empty: the peer has closed, or sent nothing that can be decoded yet. -/
  | peerClosed
  | disconnect
  | failed (error : SessionError)
  deriving DecidableEq, Repr

/-- What to do about a read. -/
inductive Decision where
  | stop (ending : Ending)
  /-- Send these bytes, and turn compression on afterwards if asked to. -/
  | reply (wire : Bytes) (enableCompression : Bool)
  deriving DecidableEq, Repr

/-- The text of a payload in the log. -/
def payloadText (payload : Bytes) : String := String.ofList (Text.trim (Text.Utf8.lossy payload))

/-- **What a read leads to**, before anything is written, with what is logged on the way. -/
def receive (s : Session) : Read → Decision × Session × List LogEvent
  | .fault fault => (.stop (.failed (.stream fault)), s, [])
  | .chunk raw =>
    let arrived := LogEvent.readChunk raw.length s.mode
    match s.decode raw with
    | (.error error, s) => (.stop (.failed (.codec error)), s, [arrived])
    | (.ok payload, s) =>
      if payload.isEmpty then (.stop .peerClosed, s, [arrived, .closedByClient])
      else
        let received := LogEvent.received (payloadText payload)
        match parse payload with
        | .disconnect => (.stop .disconnect, s, [arrived, received, .disconnectRequested])
        | .echo reply enable =>
          let (wire, s) := s.encode reply
          (.reply wire enable, s, [arrived, received])

/-- What happened about one read. -/
structure Turn where
  read : Read
  sent : Bytes
  log : List LogEvent
  deriving DecidableEq, Repr

/-- A connection from its first read to its end. -/
structure Run where
  turns : List Turn
  ending : Ending
  deriving DecidableEq, Repr

/-- Turns compression on if asked to, and logs it if that changed something. -/
def settle (s : Session) (enable : Bool) : Session × List LogEvent :=
  if enable then
    match s.enableCompression with
    | (true, s) => (s, [.compressionEnabled])
    | (false, s) => (s, [])
  else (s, [])

/-- Where a session stands behind a turn. -/
inductive After (sink : Sink) where
  | goesOn (session : Session) (memory : sink.Memory)
  | ends (ending : Ending)

/-- **One turn**: a read is decoded, looked at and answered. -/
def turn (sink : Sink) (s : Session) (memory : sink.Memory) (read : Read) : Turn × After sink :=
  match receive s read with
  | (.stop ending, _, log) => (⟨read, [], log⟩, .ends ending)
  | (.reply wire enable, s, log) =>
    let written := sink.writeAll memory wire
    match written.fault with
    | some fault => (⟨read, written.sent, log⟩, .ends (.failed (.stream fault)))
    | none =>
      let (s, enabled) := settle s enable
      (⟨read, written.sent, log ++ .sentReply wire.length :: enabled⟩,
        .goesOn s written.memory)

/-- Serves a session over the reads to come.  Nothing is read after a read that ends it. -/
def serve (sink : Sink) (s : Session) (memory : sink.Memory) : List Read → Run
  | [] => ⟨[], .peerClosed⟩
  | read :: reads =>
    match turn sink s memory read with
    | (t, .ends ending) => ⟨[t], ending⟩
    | (t, .goesOn s memory) =>
      let rest := serve sink s memory reads
      ⟨t :: rest.turns, rest.ending⟩

/-- **Serves a connection** whose reads follow a script. -/
def handle (sink : Sink) (script : List Happening) : Run :=
  serve sink {} sink.start (readsOf script)

/-! ## Views of a run -/

/-- What an observer of the stream sees. -/
inductive StreamEvent where
  /-- A read gave so many bytes. -/
  | read (bytes : Nat)
  /-- Bytes were written since the read before; a client that inflates takes them for a frame. -/
  | sent (bytes : Bytes) (inflating : Bool)
  /-- The stream was released. -/
  | released
  deriving DecidableEq, Repr

/-- What is seen of a turn: faulty reads and empty writes leave no trace. -/
def Turn.events (inflating : Bool) (t : Turn) : List StreamEvent :=
  (match t.read with
    | .chunk bytes => [.read bytes.length]
    | .fault _ => [])
  ++ (if t.sent.isEmpty then [] else [.sent t.sent inflating])

/-- What is seen of a run, up to the release of the stream, by a client that inflates what it gets
after the first `plainReads` reads. -/
def Run.events (plainReads : Option Nat) (run : Run) : List StreamEvent :=
  (run.turns.zipIdx.flatMap fun (turn, i) =>
    turn.events (plainReads.any fun plain => plain ≤ i)) ++ [.released]

/-- The log of a run. -/
def Run.log (run : Run) : List LogEvent := run.turns.flatMap Turn.log

/-- All bytes sent in a run. -/
def Run.sent (run : Run) : Bytes := run.turns.flatMap Turn.sent

end DeflateEcho.Echo
