import DeflateEcho.Proofs.Codec.Cuts

/-!
# Proofs/Codec/Requests — the two directions of a codec do not see each other

A codec is asked to compress and to decompress in any order.  `results_answerAll` and
`frames_answerAll` take the two directions apart: what comes in is decompressed as if nothing had
gone out, and what goes out is compressed as if nothing had come in.  So whatever is known of pieces
alone, or of messages alone, holds of them between each other as well.
-/

namespace DeflateEcho.Codec

/-! ## Requests -/

/-- What a codec is asked for. -/
inductive Request where
  /-- A message goes out. -/
  | compress (message : Bytes)
  /-- A piece of the stream comes in. -/
  | decompress (piece : Bytes)

/-- What a codec gives for a request. -/
inductive Answer where
  | frame (bytes : Bytes)
  | result (plain : Except CodecError Bytes)

/-- The messages among some requests. -/
def messages (requests : List Request) : List Bytes :=
  requests.filterMap fun
    | .compress message => some message
    | .decompress _ => none

/-- The pieces among some requests. -/
def pieces (requests : List Request) : List Bytes :=
  requests.filterMap fun
    | .compress _ => none
    | .decompress piece => some piece

/-- The frames among some answers. -/
def frames (answers : List Answer) : List Bytes :=
  answers.filterMap fun
    | .frame bytes => some bytes
    | .result _ => none

/-- What was given for the pieces, among some answers. -/
def results (answers : List Answer) : List (Except CodecError Bytes) :=
  answers.filterMap fun
    | .frame _ => none
    | .result plain => some plain

/-- What a codec gives for a request, and how it then stands. -/
def answer (c : Codec) : Request → Answer × Codec
  | .compress message => (.frame (c.compress message).1, (c.compress message).2)
  | .decompress piece => (.result (c.decompress piece).1, (c.decompress piece).2)

/-- What a codec gives for requests that come one after the other, and how it then stands. -/
def answerAll (c : Codec) : List Request → List Answer × Codec
  | [] => ([], c)
  | request :: requests =>
    ((c.answer request).1 :: ((c.answer request).2.answerAll requests).1,
      ((c.answer request).2.answerAll requests).2)

theorem answerAll_append (c : Codec) (first second : List Request) :
    c.answerAll (first ++ second)
      = ((c.answerAll first).1 ++ ((c.answerAll first).2.answerAll second).1,
          ((c.answerAll first).2.answerAll second).2) := by
  induction first generalizing c with
  | nil => rfl
  | cons request first ih => simp [answerAll, ih]

/-! ## One direction at a time -/

/-- **Pieces are decompressed as if nothing had been compressed between them.** -/
theorem results_answerAll {c d : Codec} (h : c.inflater = d.inflater) (requests : List Request) :
    results (c.answerAll requests).1 = (d.decompressAll (pieces requests)).1
      ∧ (c.answerAll requests).2.inflater = (d.decompressAll (pieces requests)).2.inflater := by
  induction requests generalizing c d with
  | nil => exact ⟨rfl, h⟩
  | cons request requests ih =>
    cases request with
    | compress message =>
      have hkept : (c.compress message).2.inflater = d.inflater := h
      exact ih hkept
    | decompress piece =>
      obtain ⟨hplain, hinflater⟩ := decompress_congr h piece
      obtain ⟨hresults, hfinal⟩ := ih hinflater
      exact ⟨congrArg₂ List.cons hplain hresults, hfinal⟩

/-- **Messages are compressed as if nothing had been decompressed between them.** -/
theorem frames_answerAll {c d : Codec} (h : c.compressed = d.compressed)
    (requests : List Request) :
    frames (c.answerAll requests).1 = (d.compressAll (messages requests)).1
      ∧ (c.answerAll requests).2.compressed = (d.compressAll (messages requests)).2.compressed := by
  induction requests generalizing c d with
  | nil => exact ⟨rfl, h⟩
  | cons request requests ih =>
    cases request with
    | compress message =>
      obtain ⟨hframe, hcompressed⟩ := compress_congr h message
      obtain ⟨hframes, hfinal⟩ := ih hcompressed
      exact ⟨congrArg₂ List.cons hframe hframes, hfinal⟩
    | decompress piece =>
      have hkept : (c.decompress piece).2.compressed = d.compressed := h
      exact ih hkept

/-- All bytes of the messages are counted. -/
theorem compressed_compressAll (c : Codec) (messages : List Bytes) :
    (c.compressAll messages).2.compressed = c.compressed + messages.flatten.length := by
  induction messages generalizing c with
  | nil => rfl
  | cons message messages ih =>
    have hfirst : (c.compress message).2.compressed = c.compressed + message.length := by
      rw [compress_eq]
    change ((c.compress message).2.compressAll messages).2.compressed = _
    rw [ih, hfirst, List.flatten_cons, List.length_append, Nat.add_assoc]

end DeflateEcho.Codec
