import DeflateEcho.Echo.Stream

/-!
# Proofs/Echo/Stream — which reads a script gives, and what becomes of what is written

Bytes that fit a buffer are one read each, and waiting gives none.  Writing either gets through to
the last byte or is cut off before it, and a sink that always takes something never cuts it off.
-/

namespace DeflateEcho.Echo

/-! ## Reading -/

/-- What fits a buffer is read at once. -/
theorem buffers_of_length_le {bytes : Bytes} (hne : bytes ≠ []) (h : bytes.length ≤ bufferSize) :
    buffers bytes = [bytes] := by
  have hlength : bytes.length ≠ 0 := by simpa using hne
  rw [buffers, if_neg hlength, List.take_of_length_le h, List.drop_of_length_le h, buffers]
  rfl

/-- Data that come in buffer by buffer are read as they come. -/
theorem readsOf_data_append {chunks : List Bytes}
    (h : ∀ bytes ∈ chunks, bytes ≠ [] ∧ bytes.length ≤ bufferSize) (script : List Happening) :
    readsOf (chunks.map .data ++ script) = chunks.map .chunk ++ readsOf script := by
  induction chunks with
  | nil => rfl
  | cons bytes chunks ih =>
    obtain ⟨⟨hne, hle⟩, hchunks⟩ := List.forall_mem_cons.mp h
    have hreads : Happening.reads (.data bytes) = [.chunk bytes] := by
      rw [Happening.reads, buffers_of_length_le hne hle]
      rfl
    rw [List.map_cons, List.map_cons, List.cons_append, List.cons_append, ← ih hchunks]
    rw [readsOf, List.flatMap_cons, hreads]
    rfl

/-- What the stream waits for gives no read. -/
theorem readsOf_filter_notReady (script : List Happening) :
    readsOf (script.filter (· ≠ .notReady)) = readsOf script := by
  unfold readsOf
  congr 1
  induction script with
  | nil => rfl
  | cons happening script ih =>
    rw [List.filter_cons, List.flatMap_cons, ← ih]
    cases happening <;> simp [Happening.reads]

/-! ## Writing -/

namespace Sink

variable {sink : Sink}

/-- Writing without a fault gets everything through. -/
theorem sent_of_fault_eq_none {memory : sink.Memory} {bytes : Bytes}
    (h : (sink.writeAll memory bytes).fault = none) :
    (sink.writeAll memory bytes).sent = bytes := by
  fun_induction writeAll sink memory bytes with
  | case1 memory bytes hempty => exact (List.length_eq_zero_iff.mp hempty).symm
  | case2 => simp at h
  | case3 => simp at h
  | case4 memory bytes hne count memory' hwrite hcount rest ih =>
    simp only at h ⊢
    rw [ih h, List.take_append_drop]

theorem writeAll_eq_of_fault_eq_none {memory : sink.Memory} {bytes : Bytes}
    (h : (sink.writeAll memory bytes).fault = none) :
    sink.writeAll memory bytes = ⟨bytes, none, (sink.writeAll memory bytes).memory⟩ := by
  have hsent := sent_of_fault_eq_none h
  rcases hwritten : sink.writeAll memory bytes with ⟨sent, fault, memory'⟩
  rw [hwritten] at h hsent
  obtain rfl : sent = bytes := hsent
  obtain rfl : fault = none := h
  rfl

/-- A fault cuts the bytes off before their end. -/
theorem sent_of_fault_eq_some {memory : sink.Memory} {bytes : Bytes} {fault : Fault}
    (h : (sink.writeAll memory bytes).fault = some fault) :
    (sink.writeAll memory bytes).sent <+: bytes ∧ (sink.writeAll memory bytes).sent ≠ bytes := by
  fun_induction writeAll sink memory bytes with
  | case1 => simp at h
  | case2 memory bytes hne => exact ⟨List.nil_prefix, fun h => hne (by simp [← h])⟩
  | case3 memory bytes hne => exact ⟨List.nil_prefix, fun h => hne (by simp [← h])⟩
  | case4 memory bytes hne count memory' hwrite hcount rest ih =>
    obtain ⟨hpre, hshort⟩ := ih h
    have hsplit := List.take_append_drop count bytes
    have hcut := (List.prefix_append_right_inj (bytes.take count)).mpr hpre
    rw [hsplit] at hcut
    exact ⟨hcut, fun hall => hshort (List.append_cancel_left (hall.trans hsplit.symm))⟩

/-- A sink that takes something of whatever it is offered. -/
def TakesAll (sink : Sink) : Prop :=
  ∀ memory offered, 0 < offered →
    ∃ count memory', 0 < count ∧ sink.write memory offered = (.accepted count, memory')

theorem takesAll_unlimited : unlimited.TakesAll :=
  fun _ offered h => ⟨offered, (), h, rfl⟩

/-- Such a sink gets everything written. -/
theorem TakesAll.fault_eq_none (h : sink.TakesAll) (memory : sink.Memory) (bytes : Bytes) :
    (sink.writeAll memory bytes).fault = none := by
  fun_induction writeAll sink memory bytes with
  | case1 => rfl
  | case2 memory bytes hne fault memory' hwrite =>
    obtain ⟨count, memory'', -, haccepted⟩ := h memory bytes.length (by omega)
    simp [hwrite] at haccepted
  | case3 memory bytes hne memory' hwrite =>
    obtain ⟨count, memory'', hpos, haccepted⟩ := h memory bytes.length (by omega)
    simp [hwrite] at haccepted
    omega
  | case4 memory bytes hne count memory' hwrite hcount rest ih => exact ih

end Sink

end DeflateEcho.Echo
