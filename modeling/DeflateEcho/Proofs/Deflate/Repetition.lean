import DeflateEcho.Deflate.Matching
import DeflateEcho.Proofs.Deflate.Spelling

/-!
# Proofs/Deflate/Repetition — chosen tokens stand for the bytes they were chosen for

Whatever places are proposed, a repetition is taken only for as long as the bytes agree
(`Candidate.Fits`), and `ofPair` writes its two numbers in legal slots (`legal_ofPair`).  So the
tokens of a part stand for that part behind any output at all (`tells_tokens`): none reaches back
beyond where the part began.
-/

namespace DeflateEcho.Deflate

/-! ## Slots -/

namespace Slot

/-- The slot named for a value holds it. -/
def Covers (slots : Array Slot) (value : Nat) : Prop :=
  ∃ slot, slots[indexOf slots value]? = some slot
    ∧ slot.base ≤ value ∧ value < slot.base + 2 ^ slot.extra

/-- How many values slots with these extra bits hold. -/
def span (extras : List Nat) : Nat := (extras.map fun extra => 2 ^ extra).sum

theorem base_le_of_mem_consecutive {base : Nat} {extras : List Nat} {slot : Slot}
    (h : slot ∈ consecutive base extras) : base ≤ slot.base := by
  induction extras generalizing base with
  | nil => simp [consecutive] at h
  | cons extra extras ih =>
    rw [consecutive] at h
    rcases List.mem_cons.mp h with rfl | hrest
    · exact Nat.le_refl _
    · exact Nat.le_trans (Nat.le_add_right _ _) (ih hrest)

/-- Among slots that leave no gap, the last one not above a value holds it. -/
theorem consecutive_covers {base value : Nat} {extras : List Nat} (h : base ≤ value)
    (hspan : value < base + span extras) :
    ∃ index slot, ((consecutive base extras).filter fun slot => slot.base ≤ value).length
        = index + 1
      ∧ (consecutive base extras)[index]? = some slot
      ∧ slot.base ≤ value ∧ value < slot.base + 2 ^ slot.extra := by
  induction extras generalizing base with
  | nil => simp [span] at hspan; omega
  | cons extra extras ih =>
    simp only [span, List.map_cons, List.sum_cons] at hspan
    by_cases hlt : value < base + 2 ^ extra
    · have hrest : ((consecutive (base + 1 <<< extra) extras).filter
          fun slot => slot.base ≤ value) = [] := by
        refine List.filter_eq_nil_iff.mpr fun slot hslot => ?_
        have := base_le_of_mem_consecutive hslot
        rw [Nat.one_shiftLeft] at this
        simp
        omega
      refine ⟨0, ⟨base, extra⟩, ?_, rfl, h, hlt⟩
      simp [consecutive, h, hrest]
    · rw [Nat.not_lt, ← Nat.one_shiftLeft] at hlt
      obtain ⟨index, slot, hcount, hslot, hbase, hvalue⟩ :=
        ih hlt (by rw [span, Nat.one_shiftLeft]; omega)
      refine ⟨index + 1, slot, ?_, ?_, hbase, hvalue⟩
      · simp [consecutive, h, hcount]
      · simpa [consecutive] using hslot

end Slot

theorem distanceSlots_cover {distance : Nat} (h1 : 1 ≤ distance) (hmax : distance ≤ 32768) :
    Slot.Covers distanceSlots distance := by
  obtain ⟨index, slot, hcount, hslot, hbounds⟩ := Slot.consecutive_covers h1
    (show distance < 1 + Slot.span [0, 0, 0, 0, 1, 1, 2, 2, 3, 3, 4, 4, 5, 5, 6, 6, 7, 7, 8, 8, 9,
      9, 10, 10, 11, 11, 12, 12, 13, 13] by simp [Slot.span]; omega)
  refine ⟨slot, ?_, hbounds⟩
  simp only [Slot.indexOf, distanceSlots, hcount, Nat.add_sub_cancel, List.getElem?_toArray]
  exact hslot

theorem lengthSlots_cover {length : Nat} (h3 : 3 ≤ length) (hmax : length ≤ 258) :
    Slot.Covers lengthSlots length := by
  by_cases hlast : length = 258
  · -- the greatest length has a slot of its own
    subst hlast
    exact ⟨⟨258, 0⟩, by decide, by decide, by decide⟩
  · obtain ⟨index, slot, hcount, hslot, hbounds⟩ := Slot.consecutive_covers h3
      (show length < 3 + Slot.span [0, 0, 0, 0, 0, 0, 0, 0, 1, 1, 1, 1, 2, 2, 2, 2, 3, 3, 3, 3, 4,
        4, 4, 4, 5, 5, 5, 5] by simp [Slot.span]; omega)
    refine ⟨slot, ?_, hbounds⟩
    have hnone : ¬ 258 ≤ length := by omega
    simp only [Slot.indexOf, lengthSlots, List.filter_append, List.length_append, hcount,
      List.getElem?_toArray]
    rw [List.getElem?_append_left]
    · simpa [hnone] using hslot
    · have := (List.getElem?_eq_some_iff.mp hslot).1
      simpa [hnone] using this

/-- **A repetition within the bounds of the format has its two numbers in legal slots.** -/
theorem legal_ofPair {length distance : Nat} (h3 : 3 ≤ length) (hlength : length ≤ 258)
    (h1 : 1 ≤ distance) (hdistance : distance ≤ 32768) :
    (Backref.ofPair length distance).Legal
      ∧ (Backref.ofPair length distance).length = length
      ∧ (Backref.ofPair length distance).distance = distance := by
  obtain ⟨l, hl, hlbase, hlextra⟩ := lengthSlots_cover h3 hlength
  obtain ⟨d, hd, hdbase, hdextra⟩ := distanceSlots_cover h1 hdistance
  refine ⟨⟨⟨l, hl, ?_⟩, ⟨d, hd, ?_⟩⟩, ?_, ?_⟩
  · simp only [Backref.ofPair, hl, Option.getD_some]
    omega
  · simp only [Backref.ofPair, hd, Option.getD_some]
    omega
  · simp only [Backref.length, Backref.ofPair, hl, Option.getD_some]
    omega
  · simp only [Backref.distance, Backref.ofPair, hd, Option.getD_some]
    omega

/-! ## What tokens stand for -/

/-- A literal, or a legal repetition. -/
def Token.Legal : Token → Prop
  | .literal _ => True
  | .backref ref => ref.Legal

/-- Tokens stand for some bytes: behind any output they add exactly these. -/
structure Tells (tokens : List Token) (bytes : Bytes) : Prop where
  legal : ∀ token ∈ tokens, token.Legal
  extend : ∀ before, tokens.foldl Token.extend before = before ++ bytes

theorem Tells.nil : Tells [] [] where
  legal := by simp
  extend := by simp

/-- One more token, which may repeat what the tokens before it stand for. -/
theorem Tells.concat {tokens : List Token} {bytes more : Bytes} {token : Token}
    (h : Tells tokens bytes) (hlegal : token.Legal)
    (hextend : ∀ before, token.extend (before ++ bytes) = before ++ more) :
    Tells (tokens ++ [token]) more where
  legal := by
    intro t ht
    rcases List.mem_append.mp ht with hold | hnew
    · exact h.legal t hold
    · rwa [List.mem_singleton.mp hnew]
  extend before := by rw [List.foldl_append, h.extend, List.foldl_cons, hextend, List.foldl_nil]

/-! ## Repeating bytes that agree -/

/-- Looking back inside the data that an output ends with. -/
theorem lookBack_take (before data : Bytes) {distance start : Nat} (h1 : 1 ≤ distance)
    (hinside : distance ≤ start) (hstart : start ≤ data.length) :
    lookBack (before ++ data.take start) distance = data[start - distance]?.getD 0 := by
  have hlen : (data.take start).length = start := by simp [hstart]
  unfold lookBack
  rw [List.getElem?_reverse (by simp; omega), List.getElem?_append_right (by simp; omega),
    List.getElem?_take_of_lt (by simp; omega)]
  congr 2
  simp
  omega

/-- **Repeating bytes that agree continues the data.** -/
theorem repeatBack_take (before data : Bytes) {distance start length : Nat} (h1 : 1 ≤ distance)
    (hinside : distance ≤ start)
    (hagree : ∀ k < length, start + k < data.length
      ∧ data[start - distance + k]? = data[start + k]?) :
    repeatBack (before ++ data.take start) distance length
      = before ++ data.take (start + length) := by
  induction length generalizing start with
  | zero => rfl
  | succ length ih =>
    obtain ⟨hlt, hfirst⟩ := hagree 0 (by omega)
    simp only [Nat.add_zero] at hlt hfirst
    have hbyte : lookBack (before ++ data.take start) distance = data[start] := by
      rw [lookBack_take before data h1 hinside (by omega), hfirst, List.getElem?_eq_getElem hlt]
      rfl
    have hgrown : before ++ data.take start ++ [data[start]] = before ++ data.take (start + 1) := by
      rw [List.append_assoc, List.take_append_getElem]
    have hrest : ∀ k < length, start + 1 + k < data.length
        ∧ data[start + 1 - distance + k]? = data[start + 1 + k]? := by
      intro k hk
      obtain ⟨hlt', hget⟩ := hagree (k + 1) (by omega)
      have hl : start + 1 - distance + k = start - distance + (k + 1) := by omega
      have hr : start + 1 + k = start + (k + 1) := by omega
      rw [hl, hr]
      exact ⟨hlt', hget⟩
    rw [repeatBack, hbyte, hgrown, ih (by omega) hrest, Nat.add_right_comm, Nat.add_assoc]

namespace Matching

/-- A candidate is right for a position: its bytes are there again. -/
structure Candidate.Fits (data : Array UInt8) (start : Nat) (c : Candidate) : Prop where
  length_le : c.length ≤ maxLength
  distance_pos : 1 ≤ c.distance
  distance_le : c.distance ≤ maxDistance
  inside : c.distance ≤ start
  agrees : ∀ k < c.length, start + k < data.size
    ∧ data[start - c.distance + k]? = data[start + k]?

theorem Candidate.Fits.legal {data : Array UInt8} {start : Nat} {c : Candidate}
    (h : c.Fits data start) : c.token.Legal :=
  (legal_ofPair c.long h.length_le h.distance_pos h.distance_le).1

theorem Candidate.Fits.extend {data : Array UInt8} {start : Nat} {c : Candidate}
    (h : c.Fits data start) (before : Bytes) :
    c.token.extend (before ++ data.toList.take start)
      = before ++ data.toList.take (start + c.length) := by
  obtain ⟨-, hlength, hdistance⟩ :=
    legal_ofPair c.long h.length_le h.distance_pos h.distance_le
  rw [token, Token.extend, hlength, hdistance]
  exact repeatBack_take before data.toList h.distance_pos h.inside (by simpa using h.agrees)

/-! ## Choosing -/

theorem agreement_le (data : Array UInt8) (there here limit : Nat) :
    agreement data there here limit ≤ limit := by
  induction limit generalizing there here with
  | zero => exact Nat.le_refl _
  | succ limit ih =>
    rw [agreement]
    split
    · exact Nat.succ_le_succ (ih _ _)
    · exact Nat.zero_le _

theorem agreement_agrees (data : Array UInt8) (there here limit : Nat) :
    ∀ k < agreement data there here limit, here + k < data.size
      ∧ data[there + k]? = data[here + k]? := by
  induction limit generalizing there here with
  | zero => intro k hk; simp [agreement] at hk
  | succ limit ih =>
    intro k hk
    rw [agreement] at hk
    split at hk
    · next hsame =>
      cases k with
      | zero => exact hsame
      | succ k =>
        have := ih (there + 1) (here + 1) k (by omega)
        simpa [Nat.add_assoc, Nat.add_comm 1] using this
    · omega

/-- What the best repetition so far is while places are looked at: the bound to beat, or the
agreement with a place within reach. -/
def Found (data : Array UInt8) (here bound : Nat) (best : Nat × Nat) : Prop :=
  best.1 ≤ bound ∨ ∃ there < here, here - there ≤ maxDistance
    ∧ best = (agreement data there here maxLength, here - there)

/-- Looking at one more place keeps the best repetition so far right. -/
theorem Found.step {data : Array UInt8} {here bound : Nat} {best : Nat × Nat}
    (h : Found data here bound best) (there : Nat) :
    Found data here bound (if there < here ∧ here - there ≤ maxDistance then
        let length := agreement data there here maxLength
        if best.1 < length then (length, here - there) else best
      else best) := by
  split
  · next hnear =>
    dsimp only
    split
    · exact Or.inr ⟨there, hnear.1, hnear.2, rfl⟩
    · exact h
  · exact h

/-- What beats the bound and is long enough to be a repetition is one that fits. -/
theorem Found.fits {data : Array UInt8} {here bound length distance : Nat}
    (h : Found data here bound (length, distance)) (hbound : bound < length) (hlong : 3 ≤ length) :
    Candidate.Fits data here ⟨length, distance, hlong⟩ := by
  rcases h with hle | ⟨there, hthere, hnear, hbest⟩
  · exact absurd hbound (Nat.not_lt.mpr hle)
  · obtain ⟨rfl, rfl⟩ := Prod.mk.inj hbest
    have hback : here - (here - there) = there := by omega
    refine ⟨agreement_le _ _ _ _, Nat.sub_pos_of_lt hthere, hnear, Nat.sub_le _ _, ?_⟩
    rw [hback]
    exact agreement_agrees data there here maxLength

/-- **The longest repetition found fits.** -/
theorem fits_longest? {data : Array UInt8} {here bound : Nat} {places : List Nat} {c : Candidate}
    (h : longest? data here bound places = some c) : c.Fits data here := by
  unfold longest? at h
  have hfound := List.foldlRecOn places _ (motive := Found data here bound)
    (Or.inl (Nat.le_refl bound) : Found data here bound (bound, 0))
    fun _ hbest there _ => hbest.step there
  generalize places.foldl _ _ = best at h hfound
  obtain ⟨length, distance⟩ := best
  simp only at h
  split at h
  · next hlong =>
    split at h
    · simp at h
    · next hlonger =>
      obtain rfl : Candidate.mk length distance hlong = c := by simpa using h
      exact hfound.fits (by omega) hlong
  · simp at h

/-- Where the choice of tokens stands: those chosen stand for all before the next position, or,
while a repetition is held, for all before the position where that begins. -/
def Chosen (data : Array UInt8) (here : Nat) (held : Option Candidate) (chosen : Array Token) :
    Prop :=
  match held with
  | none => Tells chosen.toList (data.toList.take here)
  | some h => ∃ start, here = start + 1 ∧ h.Fits data start
      ∧ Tells chosen.toList (data.toList.take start)

theorem Chosen.literal {data : Array UInt8} {here : Nat} {chosen : Array Token}
    (hlt : here < data.size) (h : Tells chosen.toList (data.toList.take here)) :
    Tells (chosen.push (.literal (data[here]?.getD 0))).toList (data.toList.take (here + 1)) := by
  rw [Array.toList_push]
  refine h.concat trivial fun before => ?_
  have hlt' : here < data.toList.length := by simpa using hlt
  rw [Token.extend, List.append_assoc, Array.getElem?_eq_getElem hlt, Option.getD_some,
    ← Array.getElem_toList hlt', List.take_append_getElem hlt']

theorem Chosen.candidate {data : Array UInt8} {here : Nat} {chosen : Array Token} {c : Candidate}
    (hfits : c.Fits data here) (h : Tells chosen.toList (data.toList.take here)) :
    Tells (chosen.push c.token).toList (data.toList.take (here + c.length)) := by
  rw [Array.toList_push]
  exact h.concat hfits.legal hfits.extend

/-- A repetition that fits ends inside the data. -/
theorem Candidate.Fits.end_le {data : Array UInt8} {start : Nat} {c : Candidate}
    (h : c.Fits data start) : start + c.length ≤ data.size := by
  have hlong := c.long
  have := (h.agrees (c.length - 1) (by omega)).1
  omega

/-- **Every step of the choice keeps to the data.** -/
theorem tells_tokensFrom (data : Array UInt8) (places : Array (List Nat)) (here : Nat)
    (held : Option Candidate) (chosen : Array Token) (h : Chosen data here held chosen) :
    Tells (tokensFrom data places here held chosen).toList data.toList := by
  fun_induction tokensFrom data places here held chosen with
  | case1 here chosen hlt found hfound ih => exact ih (Chosen.literal hlt h)
  | case2 here chosen hlt found c hfound hlong ih =>
    exact ih (Chosen.candidate (fits_longest? hfound) h)
  | case3 here chosen hlt found c hfound hshort ih =>
    exact ih ⟨here, rfl, fits_longest? hfound, h⟩
  | case4 here chosen hlt found held hfound ih =>
    -- the repetition held stays the longest: it is taken from where it began
    obtain ⟨start, rfl, hfits, htells⟩ := h
    have hend : start + 1 + (held.length - 1) = start + held.length := by
      have := held.long
      omega
    refine ih ?_
    rw [hend]
    exact Chosen.candidate hfits htells
  | case5 here chosen hlt found held c hfound chosen' hlong ih =>
    obtain ⟨start, rfl, -, htells⟩ := h
    exact ih (Chosen.candidate (fits_longest? hfound) (Chosen.literal (by omega) htells))
  | case6 here chosen hlt found held c hfound chosen' hshort ih =>
    obtain ⟨start, rfl, -, htells⟩ := h
    exact ih ⟨start + 1, rfl, fits_longest? hfound, Chosen.literal (by omega) htells⟩
  | case7 here chosen hend =>
    have hall : data.toList.take here = data.toList := List.take_of_length_le (by simpa using hend)
    rw [← hall]
    exact h
  | case8 here chosen hend held =>
    obtain ⟨start, rfl, hfits, -⟩ := h
    have := hfits.end_le
    have := held.long
    omega

/-- **The tokens chosen for a message stand for it**, wherever in a stream it lies. -/
theorem tells_tokens (offset : Nat) (data : Bytes) : Tells (tokens offset data) data :=
  tells_tokensFrom data.toArray _ 0 none #[] Tells.nil

end Matching

end DeflateEcho.Deflate
