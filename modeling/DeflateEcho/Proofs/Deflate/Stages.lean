import Mathlib
import DeflateEcho.Proofs.Deflate.Symbols

/-!
# Proofs/Deflate/Stages — stages of the format, as places of a scanner

A stage knows a code by its lengths, a place by its table (`Stage.place`).  `Stage.Sound` is what
elements keep on the way: no list of lengths gets out of hand that a table was made from
(`Stage.Leads.sound`).  At sound stages an element that is written as the format says leads where the
scanner goes (`Stage.Leads.next`), and breaks a rule where the scanner stops (`Stage.Breaks.next`); it
always does one of the two (`leads_or_breaks`).
-/

namespace DeflateEcho.Deflate

open Bits
open PrefixCode (codeword maxLength Oversubscribed Incomplete Unusable Readable)

/-! ## Places -/

namespace Stage

/-- The place at which a scanner stands, with the tables of the codes. -/
def place : Stage → Place
  | header => .header
  | storedLength last => .storedLength last
  | stored last left => .stored last left
  | counts last => .counts last
  | lengthCode last announced => .lengthCode last announced
  | lengths last announced sent known =>
    .lengths last announced (PrefixCode.table (arrange sent)) known
  | tokens last literals distances =>
    .tokens last (PrefixCode.table literals) (PrefixCode.table distances)
  | finished => .finished

@[simp] theorem place_afterBlock (last : Bool) :
    (afterBlock last).place = .afterBlock last := by
  cases last <;> rfl

@[simp] theorem place_inStored (last : Bool) (left : Nat) :
    (inStored last left).place = .inStored last left := by
  unfold inStored Place.inStored
  split
  · exact place_afterBlock last
  · rfl

theorem place_eq_finished_iff {stage : Stage} : stage.place = .finished ↔ stage = finished := by
  cases stage <;> simp [place]

end Stage

/-! ## Lengths in bounds -/

theorem length_arrange (sent : List Nat) : (arrange sent).length = 19 := by
  simp [arrange, transmissionOrder]

theorem arrange_le {sent : List Nat} (h : ∀ length ∈ sent, length < 8) :
    ∀ length ∈ arrange sent, length ≤ maxLength := by
  intro length hlength
  obtain ⟨symbol, -, rfl⟩ := List.mem_map.mp hlength
  rcases hget : sent[transmissionOrder.idxOf symbol]? with _ | sentLength
  · exact Nat.zero_le _
  · have := h sentLength (List.mem_of_getElem? hget)
    simp only [Option.getD_some, maxLength]
    omega

/-- The steps of length tables spell no length that is too long. -/
theorem LengthRun.lengths_le {sent : List Nat} {known : Array Nat} {run : LengthRun}
    {bits : List Bool} (hrun : run.Written sent bits)
    (hknown : ∀ length ∈ known.toList, length ≤ maxLength) :
    ∀ length ∈ run.lengths known, length ≤ maxLength := by
  intro length hlength
  cases hrun with
  | @plain written _ hbound _ =>
    obtain rfl : length = written := by simpa [lengths] using hlength
    exact Nat.le_of_lt_succ hbound
  | again =>
    obtain rfl := List.eq_of_mem_replicate hlength
    rcases hback : known.back? with _ | back
    · exact Nat.zero_le _
    · exact hknown back (by simpa using Array.mem_of_back? hback)
  | fewZeros =>
    obtain rfl := List.eq_of_mem_replicate hlength
    exact Nat.zero_le _
  | manyZeros =>
    obtain rfl := List.eq_of_mem_replicate hlength
    exact Nat.zero_le _

theorem LengthRun.known_le {sent : List Nat} {known : Array Nat} {run : LengthRun}
    {bits : List Bool} (hrun : run.Written sent bits)
    (hknown : ∀ length ∈ known.toList, length ≤ maxLength) :
    ∀ length ∈ (known ++ run.lengths known).toList, length ≤ maxLength := by
  intro length hlength
  rw [Array.toList_appendList] at hlength
  rcases List.mem_append.mp hlength with h | h
  · exact hknown length h
  · exact LengthRun.lengths_le hrun hknown length h

theorem readable_fixedLiteralLengths : Readable fixedLiteralLengths where
  bounded length hlength := by
    simp only [fixedLiteralLengths, List.mem_append, List.mem_replicate] at hlength
    simp only [maxLength]
    omega
  usable := PrefixCode.not_unusable_of_complete PrefixCode.complete_fixedLiteralLengths

theorem readable_fixedDistanceLengths : Readable fixedDistanceLengths where
  bounded length hlength := by
    have : length = 5 := List.eq_of_mem_replicate hlength
    simp only [maxLength]
    omega
  usable := PrefixCode.not_unusable_of_complete PrefixCode.complete_fixedDistanceLengths

/-! ## Sound stages -/

namespace Stage

/-- What holds at the stages that elements in grammatical order lead to. -/
def Sound : Stage → Prop
  | stored _ left => 0 < left
  | lengthCode _ announced => announced.Fits
  | lengths _ _ sent known => (∀ length ∈ sent, length < 8)
      ∧ ¬ Oversubscribed (arrange sent) ∧ ¬ Incomplete (arrange sent)
      ∧ ∀ length ∈ known.toList, length ≤ maxLength
  | tokens _ literals distances => Readable literals ∧ Readable distances
  | _ => True

theorem sound_afterBlock (last : Bool) : (afterBlock last).Sound := by
  cases last <;> trivial

theorem sound_inStored (last : Bool) (left : Nat) : (inStored last left).Sound := by
  unfold inStored
  split
  · exact sound_afterBlock last
  · next hne => exact Nat.pos_of_ne_zero hne

theorem sound_ofKind (last : Bool) (kind : BlockKind) : (ofKind last kind).Sound := by
  cases kind with
  | stored => trivial
  | fixed => exact ⟨readable_fixedLiteralLengths, readable_fixedDistanceLengths⟩
  | dynamic => trivial

theorem Sound.readable_arrange {last : Bool} {announced : Counts} {sent : List Nat}
    {known : Array Nat} (h : (lengths last announced sent known).Sound) :
    Readable (arrange sent) :=
  ⟨arrange_le h.1, PrefixCode.not_unusable_of_complete ⟨h.2.1, h.2.2.1⟩⟩

variable {stage final : Stage} {offset : Nat} {element : Element} {bits : List Bool}

/-- **Elements lead from sound stages to sound ones.** -/
theorem Leads.sound (h : stage.Leads element final) (hsound : stage.Sound)
    (hwritten : element.Written offset stage bits) : final.Sound := by
  cases h with
  | header last kind => exact sound_ofKind last kind
  | storedLength => exact sound_inStored _ _
  | storedByte => exact sound_inStored _ _
  | counts =>
    cases hwritten with
    | counts hfits => exact hfits
  | lengthCode hover hincomplete =>
    cases hwritten with
    | lengthCode _ hsent => exact ⟨hsent, hover, hincomplete, by simp⟩
  | run =>
    obtain ⟨hsent, hover, hincomplete, hknown⟩ := hsound
    cases hwritten with
    | run hrun => exact ⟨hsent, hover, hincomplete, LengthRun.known_le hrun hknown⟩
  | lastRun _ hliterals hdistances =>
    cases hwritten with
    | run hrun =>
      have hknown := LengthRun.known_le hrun hsound.2.2.2
      exact ⟨⟨fun length hl => hknown length (List.mem_of_mem_take hl), hliterals⟩,
        ⟨fun length hl => hknown length (List.mem_of_mem_drop hl), hdistances⟩⟩
  | literal => exact hsound
  | backref => exact hsound
  | endOfBlock => exact sound_afterBlock _

/-! ## Where elements lead -/

/-- The tables of a dynamic block lead on if neither code is unusable. -/
theorem inDynamic_eq {last : Bool} {announced : Counts} {known : List Nat}
    (hknown : ∀ length ∈ known, length ≤ maxLength) :
    Place.inDynamic last announced known
      = if Unusable (known.take announced.literals) ∨ Unusable (known.drop announced.literals)
        then none
        else some (.tokens last (PrefixCode.table (known.take announced.literals))
          (PrefixCode.table (known.drop announced.literals))) := by
  have hliterals := @PrefixCode.usable?_eq (known.take announced.literals)
    fun length hl => hknown length (List.mem_of_mem_take hl)
  have hdistances := @PrefixCode.usable?_eq (known.drop announced.literals)
    fun length hl => hknown length (List.mem_of_mem_drop hl)
  unfold Place.inDynamic
  rw [hliterals, hdistances]
  by_cases hl : Unusable (known.take announced.literals)
  · simp [hl]
  · by_cases hd : Unusable (known.drop announced.literals) <;> simp [hl, hd]

/-- A step in the word lengths goes on to the next one, or to the tokens behind the last one. -/
theorem next_run {last : Bool} {announced : Counts} {sent : List Nat} {known : Array Nat}
    {run : LengthRun} (hsound : (lengths last announced sent known).Sound)
    (hrun : run.Written sent bits) :
    (lengths last announced sent known).place.next (.run run)
      = if (known ++ run.lengths known).size < announced.total then
          some (lengths last announced sent (known ++ run.lengths known)).place
        else if (known ++ run.lengths known).size = announced.total then
          if Unusable ((known ++ run.lengths known).toList.take announced.literals)
              ∨ Unusable ((known ++ run.lengths known).toList.drop announced.literals)
          then none
          else some (ofLengths last announced (known ++ run.lengths known)).place
        else none := by
  have hdynamic := @inDynamic_eq last announced _
    (LengthRun.known_le hrun hsound.2.2.2)
  simp only [place, Place.next, hdynamic]
  rfl

/-- **An element leads where the scanner goes.** -/
theorem Leads.next (h : stage.Leads element final) (hsound : stage.Sound)
    (hwritten : element.Written offset stage bits) :
    stage.place.next element = some final.place := by
  cases h with
  | header last kind => cases kind <;> rfl
  | storedLength hsum =>
    rw [place_inStored]
    exact if_pos hsum
  | storedByte =>
    rw [place_inStored]
    rfl
  | counts hliterals hdistances => simp [place, Place.next, Counts.allowed, hliterals, hdistances]
  | lengthCode hover hincomplete =>
    cases hwritten with
    | lengthCode _ hsent =>
      simp [place, Place.next, PrefixCode.complete?_eq (arrange_le hsent), hover, hincomplete]
  | run hmore =>
    cases hwritten with
    | run hrun => rw [next_run hsound hrun, if_pos hmore]
  | lastRun hall hliterals hdistances =>
    cases hwritten with
    | run hrun =>
      rw [next_run hsound hrun, if_neg (Nat.not_lt_of_ge hall.ge), if_pos hall,
        if_neg (not_or.mpr ⟨hliterals, hdistances⟩)]
  | literal => rfl
  | backref => rfl
  | endOfBlock =>
    rw [place_afterBlock]
    rfl

/-- **The scanner goes nowhere with an element that breaks a rule.** -/
theorem Breaks.next (h : stage.Breaks element) (hsound : stage.Sound)
    (hwritten : element.Written offset stage bits) : stage.place.next element = none := by
  cases h with
  | complement hsum => exact if_neg hsum
  | tooManySymbols hmany =>
    refine if_neg ?_
    simp only [Counts.allowed, Bool.and_eq_true, decide_eq_true_eq]
    omega
  | lengthCode hbad =>
    cases hwritten with
    | lengthCode _ hsent =>
      simp [place, Place.next, PrefixCode.complete?_eq (arrange_le hsent), hbad]
  | overrun hover =>
    cases hwritten with
    | run hrun =>
      rw [next_run hsound hrun, if_neg (Nat.not_lt_of_gt hover), if_neg (Nat.ne_of_gt hover)]
  | unusable hall hbad =>
    cases hwritten with
    | run hrun =>
      rw [next_run hsound hrun, if_neg (Nat.not_lt_of_ge hall.ge), if_pos hall, if_pos hbad]

/-- **An element keeps the rules or breaks one.** -/
theorem leads_or_breaks (hsound : stage.Sound) (hwritten : element.Written offset stage bits) :
    (∃ final, stage.Leads element final) ∨ stage.Breaks element := by
  cases hwritten with
  | header last kind => exact .inl ⟨_, .header last kind⟩
  | @storedLength _ _ length complement =>
    by_cases hsum : length + complement = Block.maxStored
    · exact .inl ⟨_, .storedLength hsum⟩
    · exact .inr (.complement hsum)
  | @storedByte _ left value =>
    obtain ⟨left, rfl⟩ := Nat.exists_eq_succ_of_ne_zero (Nat.pos_iff_ne_zero.mp hsound)
    exact .inl ⟨_, .storedByte⟩
  | @counts _ announced =>
    by_cases hmany : 286 < announced.literals ∨ 30 < announced.distances
    · exact .inr (.tooManySymbols hmany)
    · rw [not_or, Nat.not_lt, Nat.not_lt] at hmany
      exact .inl ⟨_, .counts hmany.1 hmany.2⟩
  | @lengthCode _ _ sent =>
    by_cases hbad : Oversubscribed (arrange sent) ∨ Incomplete (arrange sent)
    · exact .inr (.lengthCode hbad)
    · rw [not_or] at hbad
      exact .inl ⟨_, .lengthCode hbad.1 hbad.2⟩
  | @run _ announced _ known run =>
    rcases Nat.lt_trichotomy (known ++ run.lengths known).size announced.total
      with hmore | hall | hover
    · exact .inl ⟨_, .run hmore⟩
    · by_cases hbad : Unusable ((known ++ run.lengths known).toList.take announced.literals)
        ∨ Unusable ((known ++ run.lengths known).toList.drop announced.literals)
      · exact .inr (.unusable hall hbad)
      · rw [not_or] at hbad
        exact .inl ⟨_, .lastRun hall hbad.1 hbad.2⟩
    · exact .inr (.overrun hover)
  | literal => exact .inl ⟨_, .literal⟩
  | backref => exact .inl ⟨_, .backref⟩
  | endOfBlock => exact .inl ⟨_, .endOfBlock⟩

end Stage

end DeflateEcho.Deflate
