import Mathlib
import DeflateEcho.Proofs.Deflate.CanonicalWord
import DeflateEcho.Proofs.Deflate.Grammar

/-!
# Proofs/Deflate/CodeSpace — which lengths make a code

Whether a tree has places for all words, and whether it has holes, is seen from the room that the
words take (`build_eq_nil_iff`, `isFull_build_iff`), so the tests of lengths agree with the rules of
the format (`complete?_eq`, `usable?_eq`).  The words in order are a rearrangement of all of them, and
what is said about a grown tree follows its growth (`grow_induction`).
-/

namespace DeflateEcho.Deflate.PrefixCode

open Bits

/-! ## The order of the words, as a rearrangement -/

theorem perm_filter_or (p q : Nat × Nat → Bool) (entries : List (Nat × Nat))
    (h : ∀ entry ∈ entries, p entry = true → q entry = false) :
    (entries.filter fun entry => p entry || q entry).Perm
      (entries.filter p ++ entries.filter q) := by
  induction entries with
  | nil => exact .nil
  | cons entry entries ih =>
    have hrest := ih fun e he => h e (List.mem_cons_of_mem _ he)
    have hfirst := h entry List.mem_cons_self
    cases hp : p entry
    · cases hq : q entry
      · simpa [hp, hq] using hrest
      · simpa [hp, hq] using (hrest.cons entry).trans List.perm_middle.symm
    · simpa [hp, hfirst hp] using hrest.cons entry

/-- The words of at most `n` bits, one length after the other, are all of them. -/
theorem perm_flatMap_ofLength (entries : List (Nat × Nat)) (n : Nat) :
    ((List.range' 1 n).flatMap (ofLength entries)).Perm
      (entries.filter fun entry => 0 < entry.1 && entry.1 ≤ n) := by
  induction n with
  | zero =>
    have hnone : (entries.filter fun entry => decide (0 < entry.1) && decide (entry.1 ≤ 0)) = [] :=
      List.filter_eq_nil_iff.mpr fun entry _ => by
        simp only [Bool.and_eq_true, decide_eq_true_eq]
        omega
    rw [hnone]
    exact .nil
  | succ n ih =>
    have hsplit : (entries.filter fun entry => decide (0 < entry.1) && decide (entry.1 ≤ n + 1))
        = entries.filter fun entry =>
          (decide (0 < entry.1) && decide (entry.1 ≤ n)) || entry.1 == n + 1 := by
      refine congrArg (fun p => entries.filter p) (funext fun entry => ?_)
      rw [Bool.eq_iff_iff]
      simp only [Bool.and_eq_true, decide_eq_true_eq, Bool.or_eq_true, beq_iff_eq]
      omega
    rw [List.range'_1_concat, List.flatMap_append, hsplit]
    refine (ih.append_right _).trans ?_
    have hlast : [1 + n].flatMap (ofLength entries)
        = entries.filter fun entry => entry.1 == n + 1 := by
      simp [ofLength, Nat.add_comm 1 n]
    rw [hlast]
    refine (perm_filter_or _ _ entries fun entry _ hle => ?_).symm
    simp only [Bool.and_eq_true, decide_eq_true_eq] at hle
    simp only [beq_eq_false_iff_ne]
    omega

theorem space_filter_pos (entries : List (Nat × Nat)) :
    space (entries.filter fun entry => 0 < entry.1) = space entries := by
  induction entries with
  | nil => rfl
  | cons entry entries ih =>
    rcases Nat.eq_zero_or_pos entry.1 with h | h
    · simpa [h, room] using ih
    · simpa [h] using ih

section Lengths

variable {lengths : List Nat} (hmax : ∀ length ∈ lengths, length ≤ maxLength)
include hmax

/-- The words in order are those of all symbols that have one. -/
theorem ordered_perm :
    (ordered lengths).Perm (lengths.zipIdx.filter fun entry => 0 < entry.1) := by
  have hall : (lengths.zipIdx.filter fun entry => 0 < entry.1)
      = lengths.zipIdx.filter fun entry => 0 < entry.1 && entry.1 ≤ maxLength := by
    refine List.filter_congr fun entry he => ?_
    have hle := hmax entry.1 (List.fst_mem_of_mem_zipIdx he)
    simp [hle]
  rw [hall]
  exact perm_flatMap_ofLength lengths.zipIdx maxLength

theorem space_ordered : space (ordered lengths) = occupied lengths := by
  have hsum : space (ordered lengths) = space (lengths.zipIdx.filter fun entry => 0 < entry.1) :=
    ((ordered_perm hmax).map _).sum_eq
  rw [hsum, space_filter_pos, space, occupied]
  conv_rhs => rw [← List.zipIdx_map_fst 0 lengths]
  rw [List.map_map]
  rfl

/-- The lengths of the words in order are those that are not zero. -/
theorem ordered_map_fst_perm :
    ((ordered lengths).map Prod.fst).Perm (lengths.filter (0 < ·)) := by
  have hperm := (ordered_perm hmax).map Prod.fst
  have hfst : (lengths.zipIdx.filter fun entry => 0 < entry.1).map Prod.fst
      = lengths.filter (0 < ·) := by
    conv_rhs => rw [← List.zipIdx_map_fst 0 lengths, List.filter_map]
    rfl
  rwa [hfst] at hperm

/-- A symbol stands in order with the length that it was given. -/
theorem mem_ordered_iff {length symbol : Nat} :
    (length, symbol) ∈ ordered lengths ↔ lengths[symbol]? = some length ∧ 0 < length := by
  rw [(ordered_perm hmax).mem_iff, List.mem_filter, List.mem_zipIdx_iff_getElem?]
  simp

theorem nodup_ordered : ((ordered lengths).map Prod.snd).Nodup := by
  rw [((ordered_perm hmax).map Prod.snd).nodup_iff]
  have hsub : ((lengths.zipIdx.filter fun entry => 0 < entry.1).map Prod.snd).Sublist
      (lengths.zipIdx.map Prod.snd) := List.filter_sublist.map _
  refine List.Nodup.sublist hsub ?_
  rw [List.zipIdx_map_snd]
  exact List.nodup_range' 

end Lengths

/-! ## The room in a tree -/

theorem room_pos {length : Nat} (h : 0 < length) : 0 < room length := by
  rw [room_eq_pow h]
  exact Nat.two_pow_pos _

theorem Fits.space_pos {levels : Nat} {entries : List (Nat × Nat)} (h : Fits levels entries)
    (hne : entries ≠ []) : 0 < space entries := by
  obtain ⟨entry, rest, rfl⟩ := List.exists_cons_of_ne_nil hne
  have := room_pos (h.bounds entry List.mem_cons_self).1
  rw [space_cons]
  omega

/-- **A tree has a place for every word** if these do not take more room than it has. -/
theorem grow_snd_eq_nil_iff {levels : Nat} {entries : List (Nat × Nat)}
    (hfits : Fits levels entries) :
    (grow levels entries).2 = [] ↔ space entries ≤ 2 ^ levels := by
  obtain ⟨placed, hgrown⟩ := grown_grow levels entries hfits
  have hsplit := hgrown.split
  constructor
  · intro hnil
    rw [hnil, List.append_nil] at hsplit
    exact hsplit ▸ hgrown.space_le
  · intro hle
    by_contra hne
    have hrest := (hsplit ▸ hfits).of_append.space_pos hne
    have hplaced := hgrown.full hne
    rw [hsplit, space_append] at hle
    omega

/-- **Growing a tree, step by step**: from nothing comes a hole, from a word that ends here a leaf,
and from longer words a node, of two trees that are grown one after the other. -/
theorem grow_induction {motive : Nat → List (Nat × Nat) → PrefixCode → Prop}
    (hhole : ∀ levels, motive levels [] hole)
    (hleaf : ∀ levels entry rest, Fits levels (entry :: rest) → entry.1 + levels = maxLength →
      motive levels (entry :: rest) (leaf entry.2))
    (hnode : ∀ levels entry rest, Fits levels (entry :: rest) →
      motive levels (entry :: rest) (grow levels (entry :: rest)).1 →
      motive levels (grow levels (entry :: rest)).2
        (grow levels (grow levels (entry :: rest)).2).1 →
      motive (levels + 1) (entry :: rest)
        (node (grow levels (entry :: rest)).1 (grow levels (grow levels (entry :: rest)).2).1))
    {levels : Nat} {entries : List (Nat × Nat)} (hfits : Fits levels entries) :
    motive levels entries (grow levels entries).1 := by
  induction levels generalizing entries with
  | zero =>
    cases entries with
    | nil => exact hhole 0
    | cons entry rest =>
      have hbounds := hfits.bounds entry List.mem_cons_self
      have hlen : entry.1 = maxLength := by omega
      rw [grow, if_pos hlen]
      exact hleaf 0 entry rest hfits hlen
  | succ levels ih =>
    cases entries with
    | nil => exact hhole (levels + 1)
    | cons entry rest =>
      by_cases hlen : entry.1 + (levels + 1) = maxLength
      · rw [grow, if_pos hlen]
        exact hleaf (levels + 1) entry rest hfits hlen
      · have hdown := hfits.descend hlen
        obtain ⟨left, hzero⟩ := grown_grow levels _ hdown
        have hmiddle := (hzero.split ▸ hdown).of_append
        rw [grow, if_neg hlen]
        exact hnode levels entry rest hdown (ih hdown) (ih hmiddle)

/-- **A tree has no holes** if the words take all the room that it has. -/
theorem isFull_grow_iff {levels : Nat} {entries : List (Nat × Nat)}
    (hfits : Fits levels entries) :
    (grow levels entries).1.isFull = true ↔ 2 ^ levels ≤ space entries := by
  refine grow_induction (motive := fun levels entries code =>
    code.isFull = true ↔ 2 ^ levels ≤ space entries) ?_ ?_ ?_ hfits
  · intro levels
    simp [isFull]
  · intro levels entry rest hfits hlen
    have hroom : room entry.1 = 2 ^ levels := by
      rw [room_eq_pow (hfits.bounds entry List.mem_cons_self).1]
      congr 1
      omega
    simp [isFull, hroom]
  · intro levels entry rest hdown hzero hone
    obtain ⟨left, hgrown⟩ := grown_grow levels _ hdown
    have hleft := hgrown.space_le
    have hspace := congrArg space hgrown.split
    rw [space_append] at hspace
    simp only [isFull, Bool.and_eq_true, hzero, hone, Nat.pow_succ]
    by_cases hnil : (grow levels (entry :: rest)).2 = []
    · have := Nat.two_pow_pos levels
      rw [hnil, space_nil] at hspace ⊢
      omega
    · have := hgrown.full hnil
      omega

/-! ## The symbols of a tree -/

/-- The symbols of a tree, from left to right. -/
def symbols : PrefixCode → List Nat
  | hole => []
  | leaf symbol => [symbol]
  | node zero one => zero.symbols ++ one.symbols

/-- A tree holds the symbols that it was grown from, but those left over, in their order. -/
theorem symbols_grow (levels : Nat) (entries : List (Nat × Nat)) :
    (grow levels entries).1.symbols ++ (grow levels entries).2.map Prod.snd
      = entries.map Prod.snd := by
  induction levels generalizing entries with
  | zero =>
    cases entries with
    | nil => simp [grow, symbols]
    | cons entry rest =>
      rw [grow]
      split <;> simp [symbols]
  | succ levels ih =>
    cases entries with
    | nil => simp [grow, symbols]
    | cons entry rest =>
      rw [grow]
      split
      · simp [symbols]
      · simp only [symbols, List.append_assoc, ih]

/-! ## Codes -/

section Codes

variable {lengths : List Nat} (hmax : ∀ length ∈ lengths, length ≤ maxLength)
include hmax

/-- **No symbol is left over** if the words do not take more room than there is. -/
theorem build_eq_nil_iff : (build lengths).2 = [] ↔ ¬ Oversubscribed lengths := by
  rw [build, grow_snd_eq_nil_iff (fits_ordered lengths), space_ordered hmax, Oversubscribed,
    capacity, Nat.not_lt]

/-- **Every bit pattern leads to a symbol** if the words take all the room that there is. -/
theorem isFull_build_iff : (build lengths).1.isFull = true ↔ ¬ Incomplete lengths := by
  rw [build, isFull_grow_iff (fits_ordered lengths), space_ordered hmax, Incomplete, capacity,
    Nat.not_lt]

/-- **A code is complete** if it is neither oversubscribed nor incomplete. -/
theorem isComplete_iff :
    isComplete lengths = true ↔ ¬ Oversubscribed lengths ∧ ¬ Incomplete lengths := by
  rw [isComplete, Bool.and_eq_true, isFull_build_iff hmax, List.isEmpty_iff, build_eq_nil_iff hmax]

/-- **A code that has to be complete is one** that is neither oversubscribed nor incomplete. -/
theorem complete?_eq :
    complete? lengths
      = if Oversubscribed lengths ∨ Incomplete lengths then none else some (table lengths) := by
  simp only [complete?, isComplete_iff hmax, ← not_or, ite_not]

/-- A code is sparse if its words in order are not more than one. -/
theorem sparse_iff : Sparse lengths ↔ (ordered lengths).length ≤ 1 := by
  rw [Sparse, ← (ordered_map_fst_perm hmax).length_eq, List.length_map]

omit hmax in
/-- Words of length zero take no room. -/
theorem occupied_filter (lengths : List Nat) :
    occupied (lengths.filter (0 < ·)) = occupied lengths := by
  induction lengths with
  | nil => rfl
  | cons length lengths ih =>
    rcases Nat.eq_zero_or_pos length with h | h
    · simpa [h, occupied, room] using ih
    · simpa [h, occupied] using ih

omit hmax in
/-- A single word leaves at least half of the room. -/
theorem incomplete_of_sparse (h : Sparse lengths) : Incomplete lengths := by
  rw [Incomplete, ← occupied_filter, capacity]
  have hpos : ∀ length ∈ lengths.filter (0 < ·), 0 < length := by simp
  rw [Sparse] at h
  generalize lengths.filter (0 < ·) = words at h hpos
  match words with
  | [] => exact Nat.two_pow_pos _
  | [length] =>
    have hlength := hpos length List.mem_cons_self
    have hroom : room length ≤ 2 ^ (maxLength - 1) := by
      rw [room_eq_pow hlength]
      exact Nat.pow_le_pow_right Nat.two_pos (by omega)
    rw [occupied, List.map_singleton, List.sum_singleton]
    exact hroom.trans_lt (by decide)
  | length :: next :: others => simp at h

/-- **A code of literals or distances may be used** unless it is oversubscribed, or incomplete and
not sparse. -/
theorem usable?_eq :
    usable? lengths = if Unusable lengths then none else some (table lengths) := by
  have husable : (isComplete lengths || (ordered lengths).length ≤ 1) = true
      ↔ ¬ Unusable lengths := by
    have hroom : Sparse lengths → ¬ Oversubscribed lengths := fun h =>
      Nat.lt_asymm (incomplete_of_sparse h)
    rw [Bool.or_eq_true, isComplete_iff hmax, decide_eq_true_eq, ← sparse_iff hmax, Unusable]
    tauto
  simp only [usable?, husable, ite_not]

/-! ## Tables -/

omit hmax in
@[simp] theorem zeroFilled_leaf (depth symbol : Nat) :
    (leaf symbol).zeroFilled depth = leaf symbol := rfl

omit hmax in
@[simp] theorem zeroFilled_node (depth : Nat) (zero one : PrefixCode) :
    (node zero one).zeroFilled depth
      = node (zero.zeroFilled (depth + 1)) (one.zeroFilled (depth + 1)) := rfl

omit hmax in
theorem zeroFilled_of_isFull {code : PrefixCode} (h : code.isFull = true) (depth : Nat) :
    code.zeroFilled depth = code := by
  induction code generalizing depth with
  | hole => simp [isFull] at h
  | leaf symbol => rfl
  | node zero one ihz iho =>
    obtain ⟨hzero, hone⟩ := Bool.and_eq_true_iff.mp h
    rw [zeroFilled_node, ihz hzero, iho hone]

/-- The table of a code without holes is its tree. -/
theorem table_of_complete (h : ¬ Incomplete lengths) : table lengths = (build lengths).1 :=
  zeroFilled_of_isFull ((isFull_build_iff hmax).mpr h) 0

omit hmax in
/-- There are no strays in a complete code. -/
theorem fitsTable_of_complete (h : ¬ Incomplete lengths) : FitsTable lengths := by
  intro length honly
  exact absurd (incomplete_of_sparse (by simp [Sparse, honly])) h

omit hmax in
/-- Without strays there are the canonical words only. -/
theorem isWord_iff_of_fitsTable (h : FitsTable lengths) {symbol : Nat} {word : List Bool} :
    IsWord lengths symbol word ↔ codeword lengths symbol = some word := by
  refine ⟨fun hword => ?_, .canonical⟩
  cases hword with
  | canonical hword => exact hword
  | stray honly htable hzeros =>
    have := h _ honly
    omega

end Codes

/-- A complete code may be used. -/
theorem not_unusable_of_complete {lengths : List Nat}
    (h : ¬ Oversubscribed lengths ∧ ¬ Incomplete lengths) : ¬ Unusable lengths :=
  not_or.mpr ⟨h.1, fun hsparse => h.2 hsparse.1⟩

theorem complete_fixedLiteralLengths :
    ¬ Oversubscribed fixedLiteralLengths ∧ ¬ Incomplete fixedLiteralLengths := by decide +kernel

theorem complete_fixedDistanceLengths :
    ¬ Oversubscribed fixedDistanceLengths ∧ ¬ Incomplete fixedDistanceLengths := by decide +kernel

end DeflateEcho.Deflate.PrefixCode
