import DeflateEcho.Proofs.Codec.Cuts
import DeflateEcho.Proofs.Echo.Conversation
import DeflateEcho.Proofs.Echo.Renegotiation

/-!
# Proofs/Echo/Boundaries — where reads end does not show in the replies

As long as no token is found, a connection does to each read what it does to all of them together:
expansion goes part by part (`expand_flatten`), and so does decompressing (`decompressAll_of_ok`).
What differs in compression is how many frames the replies make up, so it is in what a client gets
from them that nothing of the boundaries shows.
-/

namespace DeflateEcho.Echo

open Codec

variable {sink : Sink} {script : List Happening} {chunks : List Bytes}

/-! ## Deliveries -/

/-- A script delivers these chunks, one by each read, and then nothing more: the peer closes, or a
read fails. -/
def Delivers (script : List Happening) (chunks : List Bytes) : Prop :=
  ∃ last more, readsOf script = chunks.map .chunk ++ last :: more
    ∧ ∀ bytes, last = .chunk bytes → bytes = []

/-- What fits the buffer is delivered as it comes in. -/
theorem delivers_data (h : ∀ chunk ∈ chunks, chunk ≠ [] ∧ chunk.length ≤ bufferSize) :
    Delivers (chunks.map .data) chunks := by
  have hreads := readsOf_data_append h []
  rw [List.append_nil] at hreads
  exact ⟨.chunk [], [], hreads, fun bytes heq => (Read.chunk.inj heq).symm⟩

/-- A read that gives nothing ends the connection, with nothing sent. -/
theorem turn_last (st : Standing sink) {last : Read} (h : ∀ bytes, last = .chunk bytes → bytes = []) :
    ∃ ending log, turn sink st.session st.memory last = (⟨last, [], log⟩, .ends ending) := by
  cases last with
  | chunk bytes =>
    obtain rfl := h bytes rfl
    exact turn_nil st
  | fault fault => exact ⟨_, _, turn_of_stop rfl⟩

/-- Where the chunks of a delivery are answered, these replies are all that is sent. -/
theorem sent_of_serves {next : Standing sink} {replies : List Bytes}
    (h : Serves {} next chunks replies) (hscript : Delivers script chunks) :
    (handle sink script).turns.map Turn.sent = replies ++ [[]] := by
  obtain ⟨turns, -, hsent, hserve⟩ := h
  obtain ⟨last, more, hreads, hlast⟩ := hscript
  obtain ⟨ending, log, hturn⟩ := turn_last next hlast
  have hrest := serve_of_ends hturn more
  have hhandle := hserve (last :: more)
  rw [hrest] at hhandle
  have hrun : handle sink script = ⟨turns ++ [⟨last, [], log⟩], ending⟩ := by
    rw [handle, hreads]
    exact hhandle
  rw [hrun, List.map_append, hsent]
  rfl

/-! ## In plaintext -/

/-- A chunk in which no token is found. -/
def Quiet (chunk : Bytes) : Prop :=
  chunk ≠ [] ∧ ¬ disconnectToken <:+: chunk ∧ ¬ compressToken <+: chunk

instance : DecidablePred Quiet := fun _ => instDecidableAnd

/-- **In plaintext, the replies to quiet chunks make up the expansion of what these make up.** -/
theorem sent_of_plaintext (hsink : sink.TakesAll) (hscript : Delivers script chunks)
    (hquiet : ∀ chunk ∈ chunks, Quiet chunk) :
    (handle sink script).sent = expand chunks.flatten := by
  have hnew : ({} : Standing sink).session = {} := rfl
  obtain ⟨next, hserves, -⟩ := serves_plains hsink hnew hquiet
  rw [Run.sent, List.flatMap_def, sent_of_serves hserves hscript, List.flatten_append, expand_flatten]
  exact List.append_nil _

/-! ## In compression -/

/-- **Pieces of a compressed stream are answered with one frame each**, wherever they end, as long as
each decodes to something.  One codec stands for each direction. -/
theorem serves_pieces (hsink : sink.TakesAll) {st : Standing sink} {c d : Codec}
    (hmode : st.session.mode = .compressed)
    (hcompressed : st.session.codec.compressed = c.compressed)
    (hinflater : st.session.codec.inflater = d.inflater) {pieces payloads : List Bytes}
    (hdecoded : (d.decompressAll pieces).1 = payloads.map .ok)
    (hpayloads : ∀ payload ∈ payloads, payload ≠ [] ∧ ¬ disconnectToken <:+: payload) :
    ∃ next, Serves st next pieces (c.compressAll (payloads.map expand)).1 := by
  -- the session's codec compresses as `c` does and decompresses as `d` does, piece after piece
  induction pieces generalizing st c d payloads with
  | nil =>
    obtain rfl := List.map_eq_nil_iff.mp hdecoded.symm
    exact ⟨st, .nil st⟩
  | cons piece pieces ih =>
    rw [decompressAll_cons] at hdecoded
    obtain ⟨payload, rest, rfl, hpayload, hrest⟩ := List.map_eq_cons_iff.mp hdecoded.symm
    obtain ⟨⟨hne, hstays⟩, hothers⟩ := List.forall_mem_cons.mp hpayloads
    obtain ⟨hplain, hinflated⟩ := decompress_congr hinflater piece
    obtain ⟨middle, hserved, hmiddle⟩ :=
      serves_piece hsink hmode (hplain.trans hpayload.symm) hne hstays
    have hcount : (st.session.codec.decompress piece).2.compressed = c.compressed := by
      rw [decompress_eq]
      exact hcompressed
    rw [(compress_congr hcount _).1] at hserved
    obtain ⟨next, hserves⟩ := ih (c := (c.compress (expand payload)).2) (by rw [hmiddle])
      (by rw [hmiddle, compress_eq, compress_eq, hcount])
      (by rw [hmiddle, compress_eq]; exact hinflated) hrest.symm hothers
    exact ⟨next, hserved.append hserves⟩

/-- Every chunk that is answered has one reply. -/
theorem Serves.length_eq {st next : Standing sink} {replies : List Bytes}
    (h : Serves st next chunks replies) : replies.length = chunks.length := by
  obtain ⟨turns, hreads, hsent, -⟩ := h
  have hlength := congrArg List.length hreads
  rw [List.length_map, List.length_map] at hlength
  rw [← hsent, List.length_map, hlength]

/-- However the frames of messages are cut, a new codec gets from them what the messages make up. -/
theorem decompressAll_cuts {messages cuts : List Bytes}
    (h : cuts.flatten = (({} : Codec).compressAll messages).1.flatten) :
    ∃ outputs : List Bytes, (({} : Codec).decompressAll cuts).1 = outputs.map .ok
      ∧ outputs.flatten = messages.flatten := by
  have hframes := decompressAll_conveyed (c := {}) Deflate.Inflater.between_new
    (conveys_compressAll {} messages)
  have hwhole := decompress_flatten not_refuses_new hframes
  rw [← h] at hwhole
  obtain ⟨outputs, hall, hflatten⟩ := decompressAll_of_ok (Prod.ext hwhole rfl)
  exact ⟨outputs, by rw [hall], hflatten⟩

/-- **Behind an activation, the replies to the pieces of a compressed stream give a client the
expansion of what the stream holds.** -/
theorem sent_of_compressed (hsink : sink.TakesAll) {activating plaintext : Bytes}
    {pieces : List Bytes} (hscript : Delivers script (chunks ++ [activating] ++ pieces))
    (hquiet : ∀ chunk ∈ chunks, Quiet chunk)
    (hactivating : compressToken <+: activating ∧ ¬ disconnectToken <:+: activating)
    (hplaintext : (({} : Codec).decompress pieces.flatten).1 = .ok plaintext)
    (hpayloads : ∀ payload, .ok payload ∈ (({} : Codec).decompressAll pieces).1 →
      payload ≠ [] ∧ ¬ disconnectToken <:+: payload) :
    ∃ replies : List Bytes,
      (handle sink script).turns.map Turn.sent
          = chunks.map expand ++ [expand activating] ++ replies ++ [[]]
        ∧ replies.length = pieces.length
        ∧ ∀ cuts : List Bytes, cuts.flatten = replies.flatten →
          ∃ outputs : List Bytes, (({} : Codec).decompressAll cuts).1 = outputs.map .ok
            ∧ outputs.flatten = expand plaintext := by
  obtain ⟨payloads, hall, rfl⟩ := decompressAll_of_ok (Prod.ext hplaintext rfl)
  have hdecoded := congrArg Prod.fst hall
  have hmembers : ∀ payload ∈ payloads, payload ≠ [] ∧ ¬ disconnectToken <:+: payload :=
    fun payload hmem => hpayloads payload (hdecoded ▸ List.mem_map_of_mem hmem)
  have hnew : ({} : Standing sink).session = {} := rfl
  obtain ⟨plain, hplain, hsession⟩ := serves_plains hsink hnew hquiet
  obtain ⟨switched, hswitched, hsession'⟩ :=
    serves_plain hsink hsession (ne_nil_of_asks hactivating.1) hactivating.2
  rw [if_pos hactivating.1] at hsession'
  obtain ⟨next, hserves⟩ := serves_pieces hsink (c := {}) (d := {}) (by rw [hsession'])
    (by rw [hsession']) (by rw [hsession']) hdecoded hmembers
  refine ⟨_, sent_of_serves ((hplain.append hswitched).append hserves) hscript, hserves.length_eq,
    fun cuts hcuts => ?_⟩
  rw [← expand_flatten]
  exact decompressAll_cuts hcuts

/-! ## In both modes -/

/-- **Where reads end does not show in the replies**, where writes do not fail.  In plaintext, quiet
chunks are answered with the expansion of what they make up, however that is cut into chunks.  Behind
an activation, so are pieces that all decode to something: what a client gets from the replies,
wherever its own reads end, is the expansion of what all pieces hold. -/
theorem replies_independent_of_boundaries {sink' : Sink} (hsink : sink.TakesAll)
    (hsink' : sink'.TakesAll) :
    (∀ script chunks, Delivers script chunks → (∀ chunk ∈ chunks, Quiet chunk) →
        (handle sink script).sent = expand chunks.flatten)
      ∧ (∀ script script' chunks chunks', Delivers script chunks → Delivers script' chunks' →
        (∀ chunk ∈ chunks, Quiet chunk) → (∀ chunk ∈ chunks', Quiet chunk) →
        chunks.flatten = chunks'.flatten → (handle sink script).sent = (handle sink' script').sent)
      ∧ ∀ script chunks activating pieces plaintext,
        Delivers script (chunks ++ [activating] ++ pieces) → (∀ chunk ∈ chunks, Quiet chunk) →
        (compressToken <+: activating ∧ ¬ disconnectToken <:+: activating) →
        (({} : Codec).decompress pieces.flatten).1 = .ok plaintext →
        (∀ payload, .ok payload ∈ (({} : Codec).decompressAll pieces).1 →
          payload ≠ [] ∧ ¬ disconnectToken <:+: payload) →
        ∃ replies : List Bytes,
          (handle sink script).turns.map Turn.sent
              = chunks.map expand ++ [expand activating] ++ replies ++ [[]]
            ∧ replies.length = pieces.length
            ∧ ∀ cuts : List Bytes, cuts.flatten = replies.flatten →
              ∃ outputs : List Bytes, (({} : Codec).decompressAll cuts).1 = outputs.map .ok
                ∧ outputs.flatten = expand plaintext := by
  refine ⟨fun script chunks hscript hquiet => sent_of_plaintext hsink hscript hquiet,
    fun script script' chunks chunks' hscript hscript' hquiet hquiet' hsame => ?_,
    fun script chunks activating pieces plaintext hscript hquiet hactivating hplaintext hpayloads =>
      sent_of_compressed hsink hscript hquiet hactivating hplaintext hpayloads⟩
  rw [sent_of_plaintext hsink hscript hquiet, sent_of_plaintext hsink' hscript' hquiet', hsame]

/-- Two ways to send the same bytes, and a frame behind an activation. -/
theorem replies_independent_of_boundaries_short :
    (handle Sink.unlimited ([ascii "hx", ascii "xi"].map .data)).sent
        = (handle Sink.unlimited ([ascii "h", ascii "xxi"].map .data)).sent
      ∧ ∃ replies : List Bytes,
        (handle Sink.unlimited
            (([compressToken] ++ [(({} : Codec).compress [shortForm]).1]).map .data)).turns.map
              Turn.sent
          = [expand compressToken] ++ replies ++ [[]]
        ∧ ∀ cuts : List Bytes, cuts.flatten = replies.flatten →
          ∃ outputs : List Bytes, (({} : Codec).decompressAll cuts).1 = outputs.map .ok
            ∧ outputs.flatten = expand [shortForm] := by
  have hunlimited := Sink.takesAll_unlimited
  obtain ⟨-, hplain, hcompressed⟩ := replies_independent_of_boundaries hunlimited hunlimited
  constructor
  · exact hplain _ _ _ _ (delivers_data (by decide)) (delivers_data (by decide)) (by decide)
      (by decide) rfl
  · have hpieces : (({} : Codec).decompressAll [(({} : Codec).compress [shortForm]).1]).1
        = [[shortForm]].map .ok :=
      decompressAll_conveyed Deflate.Inflater.between_new (.cons (conveys_compress {} _) .nil)
    have hfits : ∀ chunk ∈ [compressToken] ++ [(({} : Codec).compress [shortForm]).1],
        chunk ≠ [] ∧ chunk.length ≤ bufferSize := by
      rw [compress_shortForm]
      decide
    obtain ⟨replies, hsent, -, hcuts⟩ := hcompressed _ [] compressToken _ _ (delivers_data hfits)
      (by decide) ⟨List.prefix_rfl, by decide⟩ (decompress_flatten not_refuses_new hpieces)
      (fun payload hmem => by
        rw [hpieces, List.map_singleton, List.mem_singleton] at hmem
        obtain rfl := Except.ok.inj hmem
        decide)
    exact ⟨replies, hsent, hcuts⟩

end DeflateEcho.Echo
