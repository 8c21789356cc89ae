import DeflateEcho.Echo.Command

/-!
# Proofs/Echo/Payload — tokens and expansion, said without splitting and searching

`hasInfix_iff` says what the search for a token finds, and `expand_cons` what expansion does byte
by byte, so that it may be done part by part (`expand_flatten`).  `expansion_laws` says of it all
that the laws of a whole connection rest on.
-/

namespace DeflateEcho.Echo

/-- The search finds a token exactly if it stands somewhere in the payload. -/
theorem hasInfix_iff (needle haystack : Bytes) :
    hasInfix needle haystack = true ↔ needle <:+: haystack := by
  induction haystack with
  | nil => simp [hasInfix]
  | cons b rest ih => simp [hasInfix, List.infix_cons_iff, ih]

/-- Expansion goes byte by byte. -/
theorem expand_cons (b : UInt8) (payload : Bytes) :
    expand (b :: payload) = (if b = shortForm then longForm else [b]) ++ expand payload := by
  have hne := List.splitOn_ne_nil shortForm payload
  rw [expand, expand, List.splitOn_cons_eq_if_modifyHead]
  split
  · next h => rw [if_pos (by simpa using h), List.intercalate_cons_of_ne_nil hne, List.nil_append]
  · next h =>
    obtain ⟨part, parts, hparts⟩ := List.exists_cons_of_ne_nil hne
    rw [if_neg (by simpa using h), hparts, List.modifyHead_cons, List.intercalate_cons_cons_left]
    rfl

/-- What two payloads expand to is what both do together. -/
theorem expand_append (first second : Bytes) :
    expand (first ++ second) = expand first ++ expand second := by
  induction first with
  | nil => rfl
  | cons b first ih => rw [List.cons_append, expand_cons, expand_cons, ih, List.append_assoc]

theorem expand_flatten (payloads : List Bytes) :
    (payloads.map expand).flatten = expand payloads.flatten := by
  induction payloads with
  | nil => rfl
  | cons payload payloads ih =>
    rw [List.map_cons, List.flatten_cons, List.flatten_cons, expand_append, ih]

theorem expand_ne_nil {payload : Bytes} (h : payload ≠ []) : expand payload ≠ [] := by
  obtain ⟨b, rest, rfl⟩ := List.exists_cons_of_ne_nil h
  rw [expand_cons]
  split
  · simp [longForm, ascii]
  · simp

/-! ## Expansion as a substitution -/

/-- **Expansion substitutes byte by byte**: cutting a payload at its short forms and joining the
parts leaves every other byte where it was. -/
theorem expand_eq_flatMap (payload : Bytes) :
    expand payload = payload.flatMap fun b => if b = shortForm then longForm else [b] := by
  induction payload with
  | nil => rfl
  | cons b payload ih => rw [expand_cons, List.flatMap_cons, ih]

theorem length_expand (payload : Bytes) :
    (expand payload).length = payload.length + 9 * payload.count shortForm := by
  induction payload with
  | nil => rfl
  | cons b payload ih =>
    have hlong : longForm.length = 10 := rfl
    rw [expand_cons, List.length_append, ih, List.length_cons, List.count_cons]
    by_cases h : b = shortForm
    · rw [if_pos h, hlong, if_pos (beq_iff_eq.mpr h)]
      omega
    · rw [if_neg h, List.length_singleton, if_neg (mt beq_iff_eq.mp h)]
      omega

/-- The room set aside for a reply is what the reply takes. -/
theorem replyRoom_eq (payload : Bytes) : replyRoom payload = (expand payload).length := by
  have hlong : longForm.length - 1 = 9 := rfl
  rw [length_expand, replyRoom, hlong, Nat.mul_comm, List.count_eq_length_filter]
  rfl

/-- Every byte of a payload becomes ten bytes at most. -/
theorem length_expand_le (payload : Bytes) : (expand payload).length ≤ 10 * payload.length := by
  have hcount : payload.count shortForm ≤ payload.length := List.count_le_length
  rw [length_expand]
  omega

theorem shortForm_notMem_expand (payload : Bytes) : shortForm ∉ expand payload := by
  intro h
  rw [expand_eq_flatMap] at h
  obtain ⟨b, -, hb⟩ := List.mem_flatMap.mp h
  split at hb
  · exact absurd hb (by decide)
  · next hne => exact hne (List.mem_singleton.mp hb).symm

/-- Where no short form stands, expansion changes nothing. -/
theorem expand_eq_self {payload : Bytes} (h : shortForm ∉ payload) : expand payload = payload := by
  induction payload with
  | nil => rfl
  | cons b payload ih =>
    have hb : b ≠ shortForm := fun hb => h (hb ▸ List.mem_cons_self)
    rw [expand_cons, if_neg hb, ih (mt (List.mem_cons_of_mem b) h), List.singleton_append]

theorem expand_eq_nil_iff {payload : Bytes} : expand payload = [] ↔ payload = [] :=
  ⟨fun h => Decidable.byContradiction fun hne => expand_ne_nil hne h, fun h => by rw [h]; rfl⟩

/-- **The laws of expansion**: it substitutes byte by byte, fills the room set aside for it, may be
done part by part, and leaves nothing that a second expansion would change. -/
theorem expansion_laws (payload : Bytes) :
    expand payload = (payload.flatMap fun b => if b = shortForm then longForm else [b])
      ∧ (expand payload).length = payload.length + 9 * payload.count shortForm
      ∧ (expand payload).length = replyRoom payload
      ∧ (∀ more, expand (payload ++ more) = expand payload ++ expand more)
      ∧ shortForm ∉ expand payload
      ∧ expand (expand payload) = expand payload
      ∧ (expand payload = [] ↔ payload = []) :=
  ⟨expand_eq_flatMap payload, length_expand payload, (replyRoom_eq payload).symm,
    expand_append payload, shortForm_notMem_expand payload,
    expand_eq_self (shortForm_notMem_expand payload), expand_eq_nil_iff⟩

end DeflateEcho.Echo
