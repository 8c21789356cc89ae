import DeflateEcho.Listener.Rehearsal
import DeflateEcho.Main
import DeflateEcho.Proofs.Bits.Reader
import DeflateEcho.Proofs.Deflate.CanonicalWord
import DeflateEcho.Proofs.Deflate.Spelling
import DeflateEcho.Proofs.Deflate.Inflating
import DeflateEcho.Proofs.Deflate.Repetition
import DeflateEcho.Proofs.Deflate.SelfContained
import DeflateEcho.Proofs.Deflate.Resuming
import DeflateEcho.Proofs.Deflate.Grammar
import DeflateEcho.Proofs.Deflate.CodeSpace
import DeflateEcho.Proofs.Deflate.Symbols
import DeflateEcho.Proofs.Deflate.Stages
import DeflateEcho.Proofs.Deflate.Reading
import DeflateEcho.Proofs.Deflate.Parsing
import DeflateEcho.Proofs.Deflate.Blocks
import DeflateEcho.Proofs.Deflate.Derivations
import DeflateEcho.Proofs.Codec.Frames
import DeflateEcho.Proofs.Codec.Cuts
import DeflateEcho.Proofs.Codec.Format
import DeflateEcho.Proofs.Toml.Range
import DeflateEcho.Proofs.Settings.Sessions
import DeflateEcho.Proofs.Settings.Spelling
import DeflateEcho.Proofs.Startup
import DeflateEcho.Proofs.Echo.Payload
import DeflateEcho.Proofs.Echo.Turn
import DeflateEcho.Proofs.Echo.RunLaw
import DeflateEcho.Proofs.Echo.ModeSwitch
import DeflateEcho.Proofs.Echo.Renegotiation
import DeflateEcho.Proofs.Echo.Boundaries
import DeflateEcho.Proofs.Listener.Slots
import DeflateEcho.Proofs.Listener.Shutdown
import DeflateEcho.Proofs.Listener.Isolation
import DeflateEcho.Proofs.Codec.Requests
import DeflateEcho.Proofs.Codec.EndStates
import DeflateEcho.Proofs.Session.Phases
import DeflateEcho.Proofs.Echo.CutOff
import DeflateEcho.Proofs.Codec.Expansion
import DeflateEcho.Proofs.Echo.Expansion
import DeflateEcho.Proofs.Echo.Tokens
import DeflateEcho.Proofs.Echo.Log
import DeflateEcho.Proofs.Settings.CommandLine
import DeflateEcho.Proofs.Startup.Stages
import DeflateEcho.Proofs.Settings.Positions
import DeflateEcho.Proofs.Settings.Offences
import DeflateEcho.Proofs.Codec.Buffers
import DeflateEcho.Proofs.Echo.PayloadText
