import DeflateEcho.Session

/-!
# Proofs/Session — what a session does in plaintext and in compression

Outside compression the bytes pass as they are and the codec is left alone; in compression they go
through the codec, each direction through its own half of it.
-/

namespace DeflateEcho

namespace Codec

/-- No bytes decode to no bytes, or not at all. -/
theorem decompress_nil (c : Codec) :
    (c.decompress []).1 = .ok [] ∨ ∃ error, (c.decompress []).1 = .error error := by
  rw [decompress_eq]
  cases hscanner : c.inflater.scanner with
  | failed => exact .inr ⟨.malformed, by simp [Deflate.Inflater.inflate, hscanner]⟩
  | _ => exact .inl (by simp [Deflate.Inflater.inflate, hscanner])

end Codec

namespace Session

variable {s : Session}

theorem decode_of_ne_compressed (h : s.mode ≠ .compressed) (raw : Bytes) :
    s.decode raw = (.ok raw, s) := by
  rw [decode]
  split
  · contradiction
  · rfl

theorem encode_of_ne_compressed (h : s.mode ≠ .compressed) (reply : Bytes) :
    s.encode reply = (reply, s) := by
  rw [encode]
  split
  · contradiction
  · rfl

theorem decode_of_plaintext (h : s.mode = .plaintext) (raw : Bytes) :
    s.decode raw = (.ok raw, s) :=
  decode_of_ne_compressed (by simp [h]) raw

theorem encode_of_plaintext (h : s.mode = .plaintext) (reply : Bytes) :
    s.encode reply = (reply, s) :=
  encode_of_ne_compressed (by simp [h]) reply

theorem decode_of_compressed (h : s.mode = .compressed) (raw : Bytes) :
    s.decode raw
      = ((s.codec.decompress raw).1, { s with codec := (s.codec.decompress raw).2 }) := by
  rw [decode, h]

theorem encode_of_compressed (h : s.mode = .compressed) (reply : Bytes) :
    s.encode reply
      = ((s.codec.compress reply).1, { s with codec := (s.codec.compress reply).2 }) := by
  rw [encode, h]

theorem enableCompression_of_plaintext (h : s.mode = .plaintext) :
    s.enableCompression = (true, { mode := .compressed, codec := s.codec }) := by
  rw [enableCompression, h]

theorem enableCompression_of_ne_plaintext (h : s.mode ≠ .plaintext) :
    s.enableCompression = (false, s) := by
  rw [enableCompression]
  split
  · contradiction
  · rfl

theorem enableCompression_of_compressed (h : s.mode = .compressed) :
    s.enableCompression = (false, s) :=
  enableCompression_of_ne_plaintext (by simp [h])

/-- In whatever mode, no bytes decode to no payload, or not at all. -/
theorem decode_nil (s : Session) :
    (s.decode []).1 = .ok [] ∨ ∃ error, (s.decode []).1 = .error error := by
  unfold decode
  split
  · exact s.codec.decompress_nil
  · exact .inl rfl

end Session

end DeflateEcho
