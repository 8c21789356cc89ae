import DeflateEcho.Proofs.Codec.Expansion
import DeflateEcho.Proofs.Echo.RunLaw
import DeflateEcho.Proofs.Session.Phases

/-!
# Proofs/Echo/Expansion — what a read of a connection can grow to

A read is one buffer long at most, and finds the session as some operations have left it
(`exists_operations`).  So whatever bounds the growth of a piece behind any requests bounds what the
read is decoded to, in either mode.
-/

namespace DeflateEcho.Echo

variable {sink : Sink}

/-! ## Reads fit a buffer -/

theorem length_le_of_mem_buffers {bytes part : Bytes} (h : part ∈ buffers bytes) :
    part.length ≤ bufferSize := by
  fun_induction buffers bytes with
  | case1 => cases h
  | case2 bytes hne ih =>
    rcases List.mem_cons.mp h with rfl | hrest
    · exact List.length_take_le _ _
    · exact ih hrest

/-- Every read of a script fits the buffer. -/
theorem fitsBuffer_of_mem_readsOf {script : List Happening} {read : Read}
    (h : read ∈ readsOf script) : read.FitsBuffer := by
  rcases List.mem_append.mp h with hscript | hend
  · obtain ⟨happening, -, hread⟩ := List.mem_flatMap.mp hscript
    cases happening with
    | data bytes =>
      obtain ⟨part, hpart, rfl⟩ := List.mem_map.mp hread
      exact length_le_of_mem_buffers hpart
    | fault fault =>
      obtain rfl := List.mem_singleton.mp hread
      exact trivial
    | endOfData =>
      obtain rfl := List.mem_singleton.mp hread
      exact Nat.zero_le _
    | _ => cases hread
  · obtain rfl := List.mem_singleton.mp hend
    exact Nat.zero_le _

/-! ## Sessions that reads find -/

/-- A turn that answers its read leaves the session behind some operations. -/
theorem Answers.exists_operations {st next : Standing sink} {raw payload sent : Bytes}
    (h : Answers st raw payload sent next) :
    ∃ operations, next.session = (st.session.performAll operations).2 := by
  by_cases htoken : compressToken <+: payload
  · refine ⟨[.decode raw, .encode (expand payload), .enableCompression], ?_⟩
    rw [h.session, if_pos htoken]
    rfl
  · refine ⟨[.decode raw, .encode (expand payload)], ?_⟩
    rw [h.session, if_neg htoken]
    rfl

/-- **Every read finds the session behind some operations.** -/
theorem exists_operations {st : Standing sink} {reads : List Read} {v : Visit sink}
    (h : v ∈ visits st reads) :
    ∃ operations, v.standing.session = (st.session.performAll operations).2 := by
  induction reads generalizing st with
  | nil => cases h
  | cons read reads ih =>
    obtain ⟨raw, payload, sent, next, log, -, hanswers, hturn⟩ | ⟨ending, part, log, -, hturn⟩ :=
      turn_cases st read
    · rw [visits_of_goesOn hturn] at h
      rcases List.mem_cons.mp h with rfl | hrest
      · exact ⟨[], rfl⟩
      · obtain ⟨first, hfirst⟩ := hanswers.exists_operations
        obtain ⟨others, hothers⟩ := ih hrest
        refine ⟨first ++ others, ?_⟩
        rw [hothers, hfirst, Session.performAll_append]
    · rw [visits_of_ends hturn] at h
      obtain rfl := List.mem_singleton.mp h
      exact ⟨[], rfl⟩

/-! ## What reads grow to -/

section Growth

variable {script : List Happening} {v : Visit sink}
  (hv : v ∈ visits ({} : Standing sink) (readsOf script)) {raw payload : Bytes}
include hv

/-- What is read fits the buffer. -/
theorem length_raw_le (hread : v.turn.read = .chunk raw) : raw.length ≤ bufferSize := by
  have hfront := reads_prefix ({} : Standing sink) (readsOf script)
  have hfits := fitsBuffer_of_mem_readsOf (hfront.subset (List.mem_map_of_mem hv))
  rwa [hread] at hfits

/-- **How much a read can grow**, in either mode. -/
theorem length_payload_le (hdecode : (v.standing.session.decode raw).1 = .ok payload) :
    (raw = [] → payload = [])
      ∧ payload.length ≤ 1032 * raw.length + 1
      ∧ (v.standing.session.codec.BehindElements → payload.length ≤ 1032 * raw.length) := by
  by_cases hmode : v.standing.session.mode = .compressed
  · obtain ⟨operations, hsession⟩ := exists_operations hv
    have hcodec := (Session.answers_performAll {} operations).2
    rw [Session.decode_of_compressed hmode] at hdecode
    rw [hsession, hcodec] at hdecode ⊢
    obtain ⟨hempty, hlength⟩ := Codec.length_decompress_le hdecode
    exact ⟨hempty, hlength, fun hbehind => Codec.length_decompress_le_of_behind hbehind hdecode⟩
  · rw [Session.decode_of_ne_compressed hmode] at hdecode
    obtain rfl := Except.ok.inj hdecode
    have hlength : raw.length ≤ 1032 * raw.length := Nat.le_mul_of_pos_left _ (by decide)
    exact ⟨id, hlength.trans (Nat.le_succ _), fun _ => hlength⟩

end Growth

/-- **A read cannot grow without bound.**  What a codec gives for a piece, behind any requests, is
nothing for no bytes, and otherwise at most 1032 times as long and one byte more; where what came in
before ends with an element, it is at most 1032 times as long.  So every read of a connection, of a
buffer at most, becomes a payload with the same bounds in either mode, and the payload becomes a reply
that is ten times as long at most. -/
theorem growth_bounded :
    (∀ (requests : List Codec.Request) (piece bytes : Bytes),
      let codec := (({} : Codec).answerAll requests).2
      (codec.decompress piece).1 = .ok bytes →
        (piece = [] → bytes = [])
          ∧ bytes.length ≤ 1032 * piece.length + 1
          ∧ (codec.BehindElements → bytes.length ≤ 1032 * piece.length))
      ∧ ∀ (sink : Sink) (script : List Happening),
        ∀ v ∈ visits ({} : Standing sink) (readsOf script), ∀ raw payload,
          v.turn.read = .chunk raw → (v.standing.session.decode raw).1 = .ok payload →
            raw.length ≤ bufferSize
              ∧ (raw = [] → payload = [])
              ∧ payload.length ≤ 1032 * raw.length + 1
              ∧ (v.standing.session.codec.BehindElements → payload.length ≤ 1032 * raw.length)
              ∧ (expand payload).length ≤ 10 * payload.length := by
  refine ⟨?_, fun sink script v hv raw payload hread hdecode => ?_⟩
  · intro requests piece bytes codec h
    obtain ⟨hempty, hlength⟩ := Codec.length_decompress_le h
    exact ⟨hempty, hlength, fun hbehind => Codec.length_decompress_le_of_behind hbehind h⟩
  · obtain ⟨hempty, hlength, hbehind⟩ := length_payload_le hv hdecode
    exact ⟨length_raw_le hv hread, hempty, hlength, hbehind, length_expand_le payload⟩

/-- A piece that grows as much as it can, behind the beginning of a repetition. -/
theorem growth_bounded_openRepetition :
    ∃ bytes, ((({} : Codec).answerAll [.decompress Codec.openRepetition]).2.decompress [0x2a]).1
        = .ok bytes
      ∧ bytes.length = 1033 ∧ bytes.length ≤ 1032 * [(0x2a : UInt8)].length + 1 := by
  obtain ⟨bytes, hpiece, hlength⟩ := Codec.length_behind_openRepetition
  have hbounded := growth_bounded.1 [.decompress Codec.openRepetition] [0x2a] bytes hpiece
  exact ⟨bytes, hpiece, hlength, hbounded.2.1⟩

end DeflateEcho.Echo
