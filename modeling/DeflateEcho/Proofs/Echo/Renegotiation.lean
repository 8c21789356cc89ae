import DeflateEcho.Proofs.Echo.ModeSwitch

/-!
# Proofs/Echo/Renegotiation — a conversation that goes over to compression

Two streams of frames run through a connection, one in each direction, and the two sides stay in
step: whatever the client's frames convey is decoded, and the frames of the replies are those of a
codec that is new when compression is turned on.  `serves_frames` carries this along any number of
frames; its invariant is that the inflater stands between two blocks and that the count of
compressed bytes is that of the replies.
-/

namespace DeflateEcho.Echo

open Codec

variable {sink : Sink}

/-! ## Chunks that are answered -/

/-- These chunks are answered with these replies, one each, and the run goes on from `next`. -/
def Serves (st next : Standing sink) (chunks replies : List Bytes) : Prop :=
  ∃ turns : List Turn, turns.map Turn.read = chunks.map .chunk ∧ turns.map Turn.sent = replies
    ∧ ∀ reads, serve sink st.session st.memory (chunks.map .chunk ++ reads)
      = ⟨turns ++ (serve sink next.session next.memory reads).turns,
          (serve sink next.session next.memory reads).ending⟩

theorem Serves.nil (st : Standing sink) : Serves st st [] [] :=
  ⟨[], rfl, rfl, fun _ => rfl⟩

theorem Serves.append {st middle next : Standing sink}
    {chunks replies chunks' replies' : List Bytes} (h : Serves st middle chunks replies)
    (h' : Serves middle next chunks' replies') :
    Serves st next (chunks ++ chunks') (replies ++ replies') := by
  obtain ⟨turns, hreads, hsent, hserve⟩ := h
  obtain ⟨turns', hreads', hsent', hserve'⟩ := h'
  refine ⟨turns ++ turns', ?_, ?_, fun reads => ?_⟩
  · rw [List.map_append, List.map_append, hreads, hreads']
  · rw [List.map_append, hsent, hsent']
  · rw [List.map_append, List.append_assoc, hserve, hserve', List.append_assoc]

/-- Served chunks that come in one by one are the beginning of a run. -/
theorem Serves.handle {next : Standing sink} {chunks replies : List Bytes}
    (h : Serves {} next chunks replies)
    (hfits : ∀ chunk ∈ chunks, chunk ≠ [] ∧ chunk.length ≤ bufferSize) :
    ∃ turns : List Turn, turns.map Turn.read = chunks.map .chunk ∧ turns.map Turn.sent = replies
      ∧ ∀ rest, handle sink (chunks.map .data ++ rest)
        = ⟨turns ++ (serve sink next.session next.memory (readsOf rest)).turns,
            (serve sink next.session next.memory (readsOf rest)).ending⟩ := by
  obtain ⟨turns, hreads, hsent, hserve⟩ := h
  refine ⟨turns, hreads, hsent, fun rest => ?_⟩
  rw [Echo.handle, readsOf_data_append hfits]
  exact hserve _

/-- What decodes to a payload that is not empty and stays is answered, where all writes succeed. -/
theorem serves_payload (hsink : sink.TakesAll) {st : Standing sink} {raw payload : Bytes}
    (hdecoded : (st.session.decode raw).1 = .ok payload) (hne : payload ≠ [])
    (hstays : ¬ disconnectToken <:+: payload) :
    ∃ next, Answers st raw payload (st.encoded raw (expand payload)) next
      ∧ Serves st next [raw] [st.encoded raw (expand payload)] := by
  obtain ⟨raw', payload', sent, next, log, hread, h, hturn⟩ | ⟨ending, part, log, hstops, -⟩ :=
    turn_cases st (.chunk raw)
  · obtain rfl := Read.chunk.inj hread
    obtain rfl := Except.ok.inj (hdecoded.symm.trans h.decoded)
    obtain rfl := h.encoded
    exact ⟨next, h, [_], rfl, rfl, serve_of_goesOn hturn⟩
  · have hwritten := hsink.fault_eq_none st.memory (st.encoded raw (expand payload))
    exact absurd hstops (not_stops hdecoded hne hstays hwritten ending part)

/-- **In plaintext, a chunk is answered with its expansion**, and leaves a new session, in
compression if the chunk asks for it. -/
theorem serves_plain (hsink : sink.TakesAll) {st : Standing sink} (hst : st.session = {})
    {chunk : Bytes} (hne : chunk ≠ []) (hstays : ¬ disconnectToken <:+: chunk) :
    ∃ next, Serves st next [chunk] [expand chunk]
      ∧ next.session = if compressToken <+: chunk then { mode := .compressed } else {} := by
  have hmode : st.session.mode = .plaintext := by rw [hst]
  have hdecoded : (st.session.decode chunk).1 = .ok chunk := by
    rw [Session.decode_of_plaintext hmode]
  obtain ⟨next, hanswers, hserves⟩ := serves_payload hsink hdecoded hne hstays
  rw [Standing.encoded_of_plaintext hmode] at hserves
  exact ⟨next, hserves, hanswers.session_of_plaintext hst⟩

/-- Chunks that ask for nothing are answered one by one. -/
theorem serves_plains (hsink : sink.TakesAll) {st : Standing sink} (hst : st.session = {})
    {chunks : List Bytes} (hchunks : ∀ chunk ∈ chunks,
      chunk ≠ [] ∧ ¬ disconnectToken <:+: chunk ∧ ¬ compressToken <+: chunk) :
    ∃ next, Serves st next chunks (chunks.map expand) ∧ next.session = {} := by
  induction chunks generalizing st with
  | nil => exact ⟨st, .nil st, hst⟩
  | cons chunk chunks ih =>
    obtain ⟨⟨hne, hstays, hplain⟩, hrest⟩ := List.forall_mem_cons.mp hchunks
    obtain ⟨middle, hchunk, hmiddle⟩ := serves_plain hsink hst hne hstays
    rw [if_neg hplain] at hmiddle
    obtain ⟨next, hserves, hnext⟩ := ih hmiddle hrest
    exact ⟨next, hchunk.append hserves, hnext⟩

/-! ## Pieces of a compressed stream that are answered -/

/-- **In compression, a piece is answered with one frame**, and both have gone through the codec. -/
theorem serves_piece (hsink : sink.TakesAll) {st : Standing sink}
    (hmode : st.session.mode = .compressed) {piece payload : Bytes}
    (hdecoded : (st.session.codec.decompress piece).1 = .ok payload) (hne : payload ≠ [])
    (hstays : ¬ disconnectToken <:+: payload) :
    ∃ next,
      Serves st next [piece] [((st.session.codec.decompress piece).2.compress (expand payload)).1]
      ∧ next.session = {
          mode := .compressed
          codec := ((st.session.codec.decompress piece).2.compress (expand payload)).2 } := by
  have hpayload : (st.session.decode piece).1 = .ok payload := by
    rw [Session.decode_of_compressed hmode, hdecoded]
  obtain ⟨next, hanswers, hserves⟩ := serves_payload hsink hpayload hne hstays
  rw [Standing.encoded_of_compressed hmode] at hserves
  exact ⟨next, hserves, hanswers.session_of_compressed hmode⟩

/-! ## Frames that are answered -/

/-- A standing in compression in which the inflater stands between two blocks and so many bytes
have been compressed. -/
structure Standing.InStep (st : Standing sink) (compressed : Nat) : Prop where
  mode : st.session.mode = .compressed
  inflater : ∃ before, st.session.codec.inflater.Between before
  compressed : st.session.codec.compressed = compressed

/-- **In compression, a frame is answered with one frame**, and the two sides stay in step. -/
theorem serves_frame (hsink : sink.TakesAll) {st : Standing sink} {c : Codec}
    (hst : st.InStep c.compressed) {frame message : Bytes} (hframe : Conveys frame message)
    (hne : message ≠ []) (hstays : ¬ disconnectToken <:+: message) :
    ∃ next, Serves st next [frame] [(c.compress (expand message)).1]
      ∧ next.InStep (c.compress (expand message)).2.compressed := by
  obtain ⟨before, hbetween⟩ := hst.inflater
  obtain ⟨hplain, hbetween'⟩ := decompress_conveyed hbetween hframe
  obtain ⟨next, hserves, hsession⟩ := serves_piece hsink hst.mode hplain hne hstays
  have hcompressed : (st.session.codec.decompress frame).2.compressed = c.compressed :=
    hst.compressed
  refine ⟨next, ?_, ?_, ⟨before ++ message, ?_⟩, ?_⟩
  · rwa [(compress_congr hcompressed _).1] at hserves
  · rw [hsession]
  · rw [hsession, compress_eq]
    exact hbetween'
  · rw [hsession, compress_eq, compress_eq, hcompressed]

/-- **Any number of frames are answered with one frame each**, those of one codec. -/
theorem serves_frames (hsink : sink.TakesAll) {st : Standing sink} {c : Codec}
    (hst : st.InStep c.compressed) {frames messages : List Bytes}
    (hframes : List.Forall₂ Conveys frames messages)
    (hmessages : ∀ message ∈ messages, message ≠ [] ∧ ¬ disconnectToken <:+: message) :
    ∃ next, Serves st next frames (c.compressAll (messages.map expand)).1
      ∧ ∃ compressed, next.InStep compressed := by
  induction hframes generalizing st c with
  | nil => exact ⟨st, .nil st, _, hst⟩
  | cons hframe _ ih =>
    obtain ⟨⟨hne, hstays⟩, hrest⟩ := List.forall_mem_cons.mp hmessages
    obtain ⟨middle, hserved, hmiddle⟩ := serves_frame hsink hst hframe hne hstays
    obtain ⟨next, hserves, hnext⟩ := ih hmiddle hrest
    exact ⟨next, hserved.append hserves, hnext⟩

/-- A frame that conveys a request to disconnect ends the run, with nothing sent. -/
theorem serve_disconnect {st : Standing sink} {compressed : Nat} (hst : st.InStep compressed)
    {frame message : Bytes} (hframe : Conveys frame message)
    (htoken : disconnectToken <:+: message) (reads : List Read) :
    ∃ log, serve sink st.session st.memory (.chunk frame :: reads)
      = ⟨[⟨.chunk frame, [], log⟩], .disconnect⟩ := by
  obtain ⟨before, hbetween⟩ := hst.inflater
  obtain ⟨hplain, -⟩ := decompress_conveyed hbetween hframe
  have hdecoded : (st.session.decode frame).1 = .ok message := by
    rw [Session.decode_of_compressed hst.mode, hplain]
  obtain ⟨log, hturn⟩ := turn_of_disconnect hdecoded htoken
  exact ⟨log, serve_of_ends hturn reads⟩

/-! ## A whole conversation -/

/-- A chunk for one read that does not end the connection. -/
structure Staying (chunk : Bytes) : Prop where
  fits : chunk.length ≤ bufferSize
  stays : ¬ disconnectToken <:+: chunk

theorem ne_nil_of_asks {payload : Bytes} (h : compressToken <+: payload) :
    payload ≠ [] := by
  rintro rfl
  exact absurd (List.prefix_nil.mp h) (by decide)

/-- Chunks in plaintext, one that asks for compression, frames: all are answered. -/
theorem serves_conversation (hsink : sink.TakesAll) {chunks : List Bytes} {activating : Bytes}
    {frames messages : List Bytes}
    (hchunks : ∀ chunk ∈ chunks, chunk ≠ [] ∧ Staying chunk ∧ ¬ compressToken <+: chunk)
    (hactivating : Staying activating ∧ compressToken <+: activating)
    (hframes : List.Forall₂ Conveys frames messages)
    (hmessages : ∀ message ∈ messages, message ≠ [] ∧ ¬ disconnectToken <:+: message) :
    ∃ next : Standing sink,
      Serves {} next (chunks ++ [activating] ++ frames)
        (chunks.map expand ++ [expand activating]
          ++ (({} : Codec).compressAll (messages.map expand)).1)
      ∧ ∃ compressed, next.InStep compressed := by
  have hnew : ({} : Standing sink).session = {} := rfl
  obtain ⟨plain, hplain, hsession⟩ := serves_plains hsink hnew fun chunk h =>
    ⟨(hchunks chunk h).1, (hchunks chunk h).2.1.stays, (hchunks chunk h).2.2⟩
  obtain ⟨hstaying, htoken⟩ := hactivating
  obtain ⟨switched, hswitched, hsession'⟩ :=
    serves_plain hsink hsession (ne_nil_of_asks htoken) hstaying.stays
  rw [if_pos htoken] at hsession'
  have hstep : switched.InStep ({} : Codec).compressed := by
    refine ⟨?_, ⟨[], ?_⟩, ?_⟩
    · rw [hsession']
    · rw [hsession']
      exact Deflate.Inflater.between_new
    · rw [hsession']
  obtain ⟨next, hserves, hnext⟩ := serves_frames hsink hstep hframes hmessages
  exact ⟨next, (hplain.append hswitched).append hserves, hnext⟩

/-- A frame for something is not empty. -/
theorem ne_nil_of_conveys {frame message : Bytes} (h : Conveys frame message)
    (hne : message ≠ []) : frame ≠ [] := by
  rintro rfl
  have hplain : (({} : Codec).decompress []).1 = .ok message :=
    (decompress_conveyed Deflate.Inflater.between_new h).1
  obtain hnil | ⟨error, herror⟩ := ({} : Codec).decompress_nil
  · exact hne (Except.ok.inj (hplain.symm.trans hnil))
  · cases hplain.symm.trans herror

theorem forall_ne_nil_of_conveys {frames messages : List Bytes}
    (h : List.Forall₂ Conveys frames messages) (hne : ∀ message ∈ messages, message ≠ []) :
    ∀ frame ∈ frames, frame ≠ [] := by
  induction h with
  | nil => simp
  | cons hframe _ ih =>
    obtain ⟨hmessage, hrest⟩ := List.forall_mem_cons.mp hne
    exact List.forall_mem_cons.mpr ⟨ne_nil_of_conveys hframe hmessage, ih hrest⟩

/-- **A conversation that goes over to compression**, where all writes succeed: chunks that ask for
nothing and one that asks for compression are answered in plaintext with their expansions, and then
every frame is answered with one frame.  The client's frames may be written by any encoder, as long
as they convey its messages; those of a codec do.  A client that begins to inflate at the activation
gets the expansions of its messages from the replies.  The connection is then still being served, up
to a frame that asks to disconnect, which is not answered. -/
theorem renegotiated_conversation (hsink : sink.TakesAll) {chunks frames messages : List Bytes}
    {activating : Bytes}
    (hchunks : ∀ chunk ∈ chunks, chunk ≠ [] ∧ Staying chunk ∧ ¬ compressToken <+: chunk)
    (hactivating : Staying activating ∧ compressToken <+: activating)
    (hmessages : ∀ message ∈ messages, message ≠ [] ∧ ¬ disconnectToken <:+: message)
    (hconveys : List.Forall₂ Conveys frames messages)
    (hframes : ∀ frame ∈ frames, frame.length ≤ bufferSize) :
    let script := (chunks ++ [activating] ++ frames).map Happening.data
    let replies := (({} : Codec).compressAll (messages.map expand)).1
    (∀ client : Codec, List.Forall₂ Conveys (client.compressAll messages).1 messages
        ∧ ∀ last, Conveys ((client.compressAll messages).2.compress last).1 last)
      ∧ ∃ (turns : List Turn) (st : Standing sink),
        turns.map Turn.read = (chunks ++ [activating] ++ frames).map .chunk
          ∧ turns.map Turn.sent = chunks.map expand ++ [expand activating] ++ replies
          ∧ replies.length = messages.length
          ∧ (({} : Codec).decompressAll replies).1 = messages.map (fun m => .ok (expand m))
          ∧ (∀ rest, handle sink (script ++ rest)
            = ⟨turns ++ (serve sink st.session st.memory (readsOf rest)).turns,
                (serve sink st.session st.memory (readsOf rest)).ending⟩)
          ∧ ∀ last frame, disconnectToken <:+: last → Conveys frame last →
            frame.length ≤ bufferSize → ∀ rest, ∃ log,
              handle sink (script ++ .data frame :: rest)
                = ⟨turns ++ [⟨.chunk frame, [], log⟩], .disconnect⟩ := by
  intro script replies
  refine ⟨fun client => ⟨conveys_compressAll client messages,
    fun last => conveys_compress _ last⟩, ?_⟩
  obtain ⟨next, hserves, _, hstep⟩ :=
    serves_conversation hsink hchunks hactivating hconveys hmessages
  have hwritten := forall_ne_nil_of_conveys hconveys fun message h => (hmessages message h).1
  have hfits : ∀ chunk ∈ chunks ++ [activating] ++ frames,
      chunk ≠ [] ∧ chunk.length ≤ bufferSize := by
    rw [List.forall_mem_append, List.forall_mem_append, List.forall_mem_singleton]
    exact ⟨⟨fun chunk h => ⟨(hchunks chunk h).1, (hchunks chunk h).2.1.fits⟩,
      ne_nil_of_asks hactivating.2, hactivating.1.fits⟩,
      fun frame h => ⟨hwritten frame h, hframes frame h⟩⟩
  obtain ⟨turns, hreads, hsent, hhandle⟩ := hserves.handle hfits
  have hconveyed := conveys_compressAll {} (messages.map expand)
  refine ⟨turns, next, hreads, hsent, ?_, ?_, hhandle, ?_⟩
  · rw [hconveyed.length_eq, List.length_map]
  · rw [decompressAll_conveyed (c := {}) Deflate.Inflater.between_new hconveyed, List.map_map]
    rfl
  · intro last frame hlast hframe hfits rest
    have hne : last ≠ [] := by
      rintro rfl
      exact absurd (List.infix_nil.mp hlast) (by decide)
    have hread := readsOf_data_append
      (List.forall_mem_singleton.mpr ⟨ne_nil_of_conveys hframe hne, hfits⟩) rest
    rw [List.map_singleton, List.map_singleton, List.singleton_append, List.singleton_append]
      at hread
    obtain ⟨log, hserve⟩ := serve_disconnect hstep hframe hlast (readsOf rest)
    exact ⟨log, by rw [hhandle, hread, hserve]⟩

/-- The frame of a message of one byte. -/
theorem compress_shortForm :
    (({} : Codec).compress [shortForm]).1 = [0xaa, 0x00, 0x00, 0x00, 0x00, 0xff, 0xff] := by
  have hparts : Deflate.Frame.parts [shortForm] = [[shortForm]] := by cbv
  have htokens : Deflate.Matching.tokens 0 [shortForm] = [.literal shortForm] := by cbv
  have hpart : Deflate.Frame.partBits 0 0 [shortForm]
      = (Deflate.Block.fixed [.literal shortForm]).bits false := by
    simp only [Deflate.Frame.partBits, htokens]
    exact if_neg (by decide)
  have hbody : Deflate.Frame.partsBits 0 [shortForm]
      = ((Deflate.Block.fixed [.literal shortForm]).bits false, 1) := by
    rw [Deflate.Frame.partsBits, hparts, List.foldl_cons, List.foldl_nil]
    dsimp only [List.length_nil, List.nil_append]
    rw [hpart]
    rfl
  rw [compress_eq, Deflate.Frame.encode, Deflate.Frame.bits, hbody]
  decide +kernel

theorem renegotiated_conversation_short :
    let frames := (({} : Codec).compressAll [[shortForm]]).1
    let replies := (({} : Codec).compressAll ([[shortForm]].map expand)).1
    ∃ (turns : List Turn) (st : Standing Sink.unlimited),
      turns.map Turn.sent = [ascii "hi"].map expand ++ [expand compressToken] ++ replies
        ∧ ∀ rest, handle Sink.unlimited
            (([ascii "hi"] ++ [compressToken] ++ frames).map .data ++ rest)
          = ⟨turns ++ (serve Sink.unlimited st.session st.memory (readsOf rest)).turns,
              (serve Sink.unlimited st.session st.memory (readsOf rest)).ending⟩ := by
  have hchunks : ∀ chunk ∈ [ascii "hi"],
      chunk ≠ [] ∧ Staying chunk ∧ ¬ compressToken <+: chunk :=
    List.forall_mem_singleton.mpr ⟨by decide, ⟨by decide, by decide⟩, by decide⟩
  have hstays : ¬ disconnectToken <:+: compressToken := by
    rw [← hasInfix_iff]
    decide
  have hactivating : Staying compressToken ∧ compressToken <+: compressToken :=
    ⟨⟨by decide, hstays⟩, List.prefix_rfl⟩
  have hmessages : ∀ message ∈ [[shortForm]], message ≠ [] ∧ ¬ disconnectToken <:+: message := by
    decide
  have hframes : ∀ frame ∈ (({} : Codec).compressAll [[shortForm]]).1,
      frame.length ≤ bufferSize := by
    rw [compressAll_singleton, compress_shortForm]
    decide
  obtain ⟨-, turns, st, -, hsent, -, -, hhandle, -⟩ := renegotiated_conversation
    Sink.takesAll_unlimited hchunks hactivating hmessages
    (conveys_compressAll {} [[shortForm]]) hframes
  exact ⟨turns, st, hsent, hhandle⟩

end DeflateEcho.Echo
