import DeflateEcho.Proofs.Echo.Payload

/-!
# Proofs/Echo/Tokens — what is found in a payload, in its expansion, and in its parts

The tokens are looked for in the payload itself.  `tokens_found` says what that finds, and compares
it with two other places to look:

* in the **expansion**, where a token may gain a letter, since the long form begins with one: of
  `DISCONNECT` the last letter, of `COMPRESS` none;
* in the **parts** of a payload that comes in two reads, where a token across the seam is lost.
-/

namespace DeflateEcho.Echo

/-! ## Tokens in two parts -/

/-- **A token in two parts put together** stands in one of them, or the seam cuts it in two. -/
theorem infix_append_iff {token first second : Bytes} :
    token <:+: first ++ second ↔ token <:+: first ∨ token <:+: second
      ∨ ∃ front back, front ≠ [] ∧ back ≠ [] ∧ token = front ++ back
        ∧ front <:+ first ∧ back <+: second := by
  constructor
  · rintro ⟨before, after, h⟩
    rw [List.append_assoc, List.append_eq_append_iff] at h
    obtain ⟨rest, rfl, h⟩ | ⟨rest, rfl, rfl⟩ := h
    · rw [List.append_eq_append_iff] at h
      obtain ⟨rest', rfl, rfl⟩ | ⟨back, rfl, rfl⟩ := h
      · exact .inl ⟨before, rest', by simp⟩
      rcases rest with _ | ⟨b, front⟩
      · exact .inr (.inl ⟨[], after, by simp⟩)
      rcases back with _ | ⟨c, back⟩
      · exact .inl ⟨before, [], by simp⟩
      · exact .inr (.inr ⟨_, _, List.cons_ne_nil _ _, List.cons_ne_nil _ _, rfl,
          List.suffix_append _ _, List.prefix_append _ _⟩)
    · exact .inr (.inl ⟨rest, after, by simp⟩)
  · rintro (⟨before, after, rfl⟩ | ⟨before, after, rfl⟩ | ⟨front, back, -, -, rfl, ⟨before, rfl⟩,
      ⟨after, rfl⟩⟩)
    · exact ⟨before, after ++ second, by simp⟩
    · exact ⟨first ++ before, after, by simp⟩
    · exact ⟨before, after, by simp⟩

/-! ## Tokens in an expansion -/

/-- The byte with which the long form begins. -/
def longFirst : UInt8 := 0x54

/-- A byte that expansion neither takes away nor brings to the front. -/
def Passes (b : UInt8) : Prop := b ≠ shortForm ∧ b ≠ longFirst

instance : DecidablePred Passes := fun b =>
  inferInstanceAs (Decidable (b ≠ shortForm ∧ b ≠ longFirst))

theorem expand_shortForm (payload : Bytes) :
    expand (shortForm :: payload) = longForm ++ expand payload := by
  rw [expand_cons, if_pos rfl]

theorem expand_of_ne {b : UInt8} (h : b ≠ shortForm) (payload : Bytes) :
    expand (b :: payload) = b :: expand payload := by
  rw [expand_cons, if_neg h, List.singleton_append]

/-- Bytes that pass stand at the front of an expansion if they stand at the front of the payload. -/
theorem prefix_expand_iff {front rest : Bytes} (hfront : ∀ b ∈ front, Passes b)
    {payload : Bytes} :
    front ++ rest <+: expand payload
      ↔ ∃ behind, payload = front ++ behind ∧ rest <+: expand behind := by
  induction front generalizing payload with
  | nil => simp
  | cons b front ih =>
    obtain ⟨⟨hshort, hlong⟩, hfront⟩ := List.forall_mem_cons.mp hfront
    cases payload with
    | nil => simp [expand]
    | cons c payload =>
      by_cases hc : c = shortForm
      · subst hc
        have hfirst : longForm = longFirst :: longForm.tail := rfl
        rw [expand_shortForm, hfirst]
        simp [hlong, hshort.symm]
      · rw [expand_of_ne hc, List.cons_append, List.cons_prefix_cons, ih hfront]
        simp [eq_comm, and_assoc]

/-- The first byte of the long form stands at the front of an expansion if it stands there in the
payload, or the short form does. -/
theorem longFirst_prefix_expand_iff {payload : Bytes} :
    [longFirst] <+: expand payload
      ↔ [longFirst] <+: payload ∨ [shortForm] <+: payload := by
  cases payload with
  | nil => simp [expand]
  | cons b payload =>
    by_cases hb : b = shortForm
    · subst hb
      have hfirst : longForm = longFirst :: longForm.tail := rfl
      rw [expand_shortForm, hfirst]
      simp
    · have hne : ¬ shortForm = b := Ne.symm hb
      rw [expand_of_ne hb]
      simp [hne]

/-- Looking for a token of bytes that pass, it does not matter whether the payload is expanded. -/
theorem compressToken_prefix_expand_iff {payload : Bytes} :
    compressToken <+: expand payload ↔ compressToken <+: payload := by
  have h : compressToken ++ [] <+: expand payload
      ↔ ∃ behind, payload = compressToken ++ behind ∧ [] <+: expand behind :=
    prefix_expand_iff (by decide +kernel)
  simpa [List.IsPrefix, eq_comm] using h

/-- The token that ends the connection, with a short form in place of its last letter. -/
def disconnectShort : Bytes := ascii "DISCONNECx"

/-- **At the front of an expansion** the token stands if it stands at the front of the payload, or
if the long form brings its last letter. -/
theorem disconnectToken_prefix_expand_iff {payload : Bytes} :
    disconnectToken <+: expand payload
      ↔ disconnectToken <+: payload ∨ disconnectShort <+: payload := by
  have htoken : disconnectToken = ascii "DISCONNEC" ++ [longFirst] := rfl
  have hshort : disconnectShort = ascii "DISCONNEC" ++ [shortForm] := rfl
  rw [htoken, prefix_expand_iff (by decide +kernel), hshort]
  simp only [longFirst_prefix_expand_iff]
  constructor
  · rintro ⟨behind, rfl, h | h⟩
    · exact .inl ((List.prefix_append_right_inj _).mpr h)
    · exact .inr ((List.prefix_append_right_inj _).mpr h)
  · rintro (⟨after, rfl⟩ | ⟨after, rfl⟩)
    · exact ⟨longFirst :: after, by simp, .inl ⟨after, rfl⟩⟩
    · exact ⟨shortForm :: after, by simp, .inr ⟨after, rfl⟩⟩

/-- What stands before a token but does not hold its first byte has no part in it. -/
theorem infix_append_of_notMem {b : UInt8} {token before payload : Bytes} (h : b ∉ before) :
    b :: token <:+: before ++ payload ↔ b :: token <:+: payload := by
  induction before with
  | nil => rfl
  | cons c before ih =>
    have hc : b ≠ c := fun hc => h (hc ▸ List.mem_cons_self)
    rw [List.cons_append, List.infix_cons_iff, ih (mt (List.mem_cons_of_mem c) h),
      List.cons_prefix_cons]
    simp [hc]

/-- **In an expansion** the token stands if it stands in the payload, or the payload holds the one
spelling of it that expansion completes. -/
theorem disconnectToken_infix_expand_iff {payload : Bytes} :
    disconnectToken <:+: expand payload
      ↔ disconnectToken <:+: payload ∨ disconnectShort <:+: payload := by
  induction payload with
  | nil => decide
  | cons b payload ih =>
    rw [List.infix_cons_iff, List.infix_cons_iff]
    by_cases hb : b = shortForm
    · subst hb
      -- neither spelling begins with a short form, and no part of the long form begins the token
      have hlong : disconnectToken <:+: longForm ++ expand payload
          ↔ disconnectToken <:+: expand payload :=
        infix_append_of_notMem (show (0x44 : UInt8) ∉ longForm by decide)
      have hne : ∀ token : Bytes, ¬ 0x44 :: token <+: shortForm :: payload := fun token h =>
        absurd (List.cons_prefix_cons.mp h).1 (by decide)
      have htoken : ¬ disconnectToken <+: shortForm :: payload := hne disconnectToken.tail
      have hshort : ¬ disconnectShort <+: shortForm :: payload := hne disconnectShort.tail
      rw [expand_shortForm, or_iff_right htoken, or_iff_right hshort, hlong, ih]
    · rw [expand_of_ne hb, List.infix_cons_iff, ih, ← expand_of_ne hb,
        disconnectToken_prefix_expand_iff]
      exact or_or_or_comm

/-! ## What is found -/

theorem parse_eq_disconnect_iff {payload : Bytes} :
    parse payload = .disconnect ↔ disconnectToken <:+: payload := by
  rw [← hasInfix_iff, parse]
  split <;> simp_all

/-- **What is found in a payload**, in its expansion, and in any two parts of it: expansion would
complete one further spelling of the token that ends the connection and none of the other, and a cut
hides that token exactly if it goes through it. -/
theorem tokens_found (payload : Bytes) :
    (parse payload = .disconnect ↔ ∃ before after, payload = before ++ disconnectToken ++ after)
      ∧ (parse payload = .disconnect
        ∨ parse payload = .echo (expand payload) (decide (compressToken <+: payload)))
      ∧ (disconnectToken <:+: expand payload
        ↔ disconnectToken <:+: payload ∨ ascii "DISCONNECx" <:+: payload)
      ∧ (compressToken <+: expand payload ↔ compressToken <+: payload)
      ∧ ∀ first second, (parse (first ++ second) = .disconnect
        ↔ parse first = .disconnect ∨ parse second = .disconnect
          ∨ ∃ front back, front ≠ [] ∧ back ≠ [] ∧ disconnectToken = front ++ back
            ∧ front <:+ first ∧ back <+: second) := by
  refine ⟨?_, ?_, disconnectToken_infix_expand_iff, compressToken_prefix_expand_iff, ?_⟩
  · rw [parse_eq_disconnect_iff]
    simp only [List.IsInfix, eq_comm]
  · rw [parse]
    split
    · exact .inl rfl
    · right
      have hflag : compressToken.isPrefixOf payload = decide (compressToken <+: payload) := by
        rw [Bool.eq_iff_iff, decide_eq_true_iff, List.isPrefixOf_iff_prefix]
      rw [hflag]
  · intro first second
    simp only [parse_eq_disconnect_iff]
    exact infix_append_iff

end DeflateEcho.Echo
