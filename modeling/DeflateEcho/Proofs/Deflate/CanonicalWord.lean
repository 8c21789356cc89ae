import Mathlib
import DeflateEcho.Deflate.PrefixCode

/-!
# Proofs/Deflate/CanonicalWord — the word written for a symbol is the one that leads to it

A prefix code is given twice: `codeword` computes the word of a symbol from the room that the words
before it take, and `build` grows the tree that words are read with.  `follow_codeword` says that
the two agree wherever no symbol was left over, and `feed_reader` that a word is then read back.

The middle term is the **order of the words**: `ordered` lists the symbols as the tree is filled,
and `space_before` measures what stands before a symbol in it.
-/

namespace DeflateEcho.Deflate.PrefixCode

open Bits

/-! ## Words, most significant bit first -/

theorem ofNat_succ (width n : Nat) :
    Bits.ofNat (width + 1) n = Bits.ofNat width n ++ [n / 2 ^ width % 2 == 1] := by
  induction width generalizing n with
  | zero => simp [Bits.ofNat]
  | succ width ih =>
    rw [Bits.ofNat, ih, Bits.ofNat, List.cons_append, Nat.div_div_eq_div_mul, Nat.pow_succ,
      Nat.mul_comm 2]

theorem wordBits_succ (width n : Nat) :
    wordBits (width + 1) n = (n / 2 ^ width % 2 == 1) :: wordBits width n := by
  simp [wordBits, ofNat_succ]

@[simp] theorem length_wordBits (width n : Nat) : (wordBits width n).length = width := by
  simp [wordBits]

/-- A number that fits into one bit less is written with a zero in front. -/
theorem wordBits_of_lt {width n : Nat} (h : n < 2 ^ width) :
    wordBits (width + 1) n = false :: wordBits width n := by
  rw [wordBits_succ, Nat.div_eq_of_lt h]
  rfl

theorem ofNat_add_pow (width n : Nat) : Bits.ofNat width (2 ^ width + n) = Bits.ofNat width n := by
  induction width generalizing n with
  | zero => rfl
  | succ width ih =>
    have hm : (2 ^ (width + 1) + n) % 2 = n % 2 := by rw [Nat.pow_succ]; omega
    have hd : (2 ^ (width + 1) + n) / 2 = 2 ^ width + n / 2 := by rw [Nat.pow_succ]; omega
    rw [Bits.ofNat, Bits.ofNat, hm, hd, ih]

/-- A number that needs its highest bit is written with a one in front. -/
theorem wordBits_add_pow {width n : Nat} (h : n < 2 ^ width) :
    wordBits (width + 1) (2 ^ width + n) = true :: wordBits width n := by
  have hd : (2 ^ width + n) / 2 ^ width = 1 := by
    rw [Nat.add_div_left _ (Nat.two_pow_pos width), Nat.div_eq_of_lt h]
  rw [wordBits_succ, hd, wordBits, wordBits, ofNat_add_pow]
  rfl

/-! ## Room

A word of `length` bits takes a share of the tree that halves with every bit.  `space` adds up the
shares of a list of entries. -/

theorem room_eq_pow {length : Nat} (h : 0 < length) : room length = 2 ^ (maxLength - length) := by
  rw [room, if_neg (by omega), Nat.one_shiftLeft]

/-- The room that the words of these entries take. -/
def space (entries : List (Nat × Nat)) : Nat := (entries.map fun entry => room entry.1).sum

@[simp] theorem space_nil : space [] = 0 := rfl

@[simp] theorem space_cons (entry : Nat × Nat) (entries : List (Nat × Nat)) :
    space (entry :: entries) = room entry.1 + space entries := rfl

@[simp] theorem space_append (xs ys : List (Nat × Nat)) :
    space (xs ++ ys) = space xs + space ys := by
  simp [space]

/-- Counting room up from the left gives the same. -/
theorem foldl_room (entries : List (Nat × Nat)) (taken : Nat) :
    entries.foldl (fun taken entry => taken + room entry.1) taken = taken + space entries := by
  induction entries generalizing taken with
  | nil => rfl
  | cons entry entries ih => rw [List.foldl_cons, ih, space_cons, Nat.add_assoc]

/-! ## Growing a tree

`Fits levels entries` is what `grow` is called with: entries in order, each with a word that ends
at or below the root of a subtree of so many levels. -/

/-- Entries in the order of their lengths, with words that end at or below the root. -/
structure Fits (levels : Nat) (entries : List (Nat × Nat)) : Prop where
  sorted : entries.Pairwise fun first second => first.1 ≤ second.1
  bounds : ∀ entry ∈ entries,
    0 < entry.1 ∧ entry.1 ≤ maxLength ∧ maxLength ≤ entry.1 + levels

theorem Fits.of_append {levels : Nat} {xs ys : List (Nat × Nat)} (h : Fits levels (xs ++ ys)) :
    Fits levels ys where
  sorted := (List.pairwise_append.mp h.sorted).2.1
  bounds entry he := h.bounds entry (List.mem_append_right _ he)

/-- Where the first entry ends below the root, so do all. -/
theorem Fits.descend {levels : Nat} {entry : Nat × Nat} {entries : List (Nat × Nat)}
    (h : Fits (levels + 1) (entry :: entries)) (hne : entry.1 + (levels + 1) ≠ maxLength) :
    Fits levels (entry :: entries) where
  sorted := h.sorted
  bounds other ho := by
    have hfirst := h.bounds entry List.mem_cons_self
    have hother := h.bounds other ho
    rcases List.mem_cons.mp ho with rfl | hmem
    · omega
    · have := (List.pairwise_cons.mp h.sorted).1 other hmem
      omega

/-- The place of the word of `entry` in a subtree of so many levels, behind `before`. -/
def place (levels : Nat) (before : List (Nat × Nat)) (entry : Nat × Nat) : List Bool :=
  wordBits (entry.1 + levels - maxLength) (space before / room entry.1)

/-- What a tree and the entries left over have to do with the entries it was grown from. -/
structure Grown (levels : Nat) (entries placed : List (Nat × Nat)) (tree : PrefixCode)
    (rest : List (Nat × Nat)) : Prop where
  split : entries = placed ++ rest
  space_le : space placed ≤ 2 ^ levels
  /-- Something is left over only by a full tree. -/
  full : rest ≠ [] → space placed = 2 ^ levels
  follow : ∀ before entry after, placed = before ++ entry :: after →
    tree.follow (place levels before entry) = leaf entry.2

theorem Grown.space_before {levels : Nat} {entries placed rest : List (Nat × Nat)}
    {tree : PrefixCode} (h : Grown levels entries placed tree rest)
    (hroom : ∀ entry ∈ placed, 0 < entry.1) {before after : List (Nat × Nat)} {entry : Nat × Nat}
    (hsplit : placed = before ++ entry :: after) : space before < 2 ^ levels := by
  have hle := h.space_le
  have hpos : 0 < room entry.1 := by
    rw [room_eq_pow (hroom entry (by simp [hsplit]))]
    exact Nat.two_pow_pos _
  rw [hsplit, space_append, space_cons] at hle
  omega

/-- The room of a word and the words of its length in a subtree make up the whole subtree. -/
theorem pow_mul_room {levels length : Nat} (h1 : maxLength ≤ length + levels)
    (h2 : length ≤ maxLength) (h0 : 0 < length) :
    2 ^ (length + levels - maxLength) * room length = 2 ^ levels := by
  rw [room_eq_pow h0, ← Nat.pow_add]
  congr 1
  omega

section Place

variable {levels : Nat} {entry : Nat × Nat} (h1 : maxLength ≤ entry.1 + levels)
  (h2 : entry.1 ≤ maxLength) (h0 : 0 < entry.1)
include h1 h2 h0

/-- What begins inside a subtree has a word that begins inside it. -/
theorem index_lt {start : Nat} (h : start < 2 ^ levels) :
    start / room entry.1 < 2 ^ (entry.1 + levels - maxLength) := by
  refine Nat.div_lt_of_lt_mul ?_
  rwa [Nat.mul_comm, pow_mul_room h1 h2 h0]

/-- A place in the left half. -/
theorem place_zero {before : List (Nat × Nat)} (h : space before < 2 ^ levels) :
    place (levels + 1) before entry = false :: place levels before entry := by
  have hw : entry.1 + (levels + 1) - maxLength = entry.1 + levels - maxLength + 1 := by omega
  rw [place, hw, wordBits_of_lt (index_lt h1 h2 h0 h)]
  rfl

/-- A place in the right half, behind what fills the left one. -/
theorem place_one {filled before : List (Nat × Nat)} (hfull : space filled = 2 ^ levels)
    (h : space before < 2 ^ levels) :
    place (levels + 1) (filled ++ before) entry = true :: place levels before entry := by
  have hw : entry.1 + (levels + 1) - maxLength = entry.1 + levels - maxLength + 1 := by omega
  have hroom : 0 < room entry.1 := by
    rw [room_eq_pow h0]
    exact Nat.two_pow_pos _
  have hsum : (2 ^ levels + space before) / room entry.1
      = 2 ^ (entry.1 + levels - maxLength) + space before / room entry.1 := by
    rw [← pow_mul_room h1 h2 h0, Nat.mul_comm _ (room entry.1), Nat.mul_add_div hroom]
  rw [place, hw, space_append, hfull, hsum, wordBits_add_pow (index_lt h1 h2 h0 h)]
  rfl

end Place

theorem grown_nil (levels : Nat) : Grown levels [] [] hole [] where
  split := rfl
  space_le := Nat.zero_le _
  full h := absurd rfl h
  follow before entry after h := by simp at h

/-- A word that ends at the root takes the whole subtree. -/
theorem grown_leaf {levels : Nat} {entry : Nat × Nat} {rest : List (Nat × Nat)}
    (hlen : entry.1 + levels = maxLength) (h0 : 0 < entry.1) :
    Grown levels (entry :: rest) [entry] (leaf entry.2) rest := by
  have hspace : space [entry] = 2 ^ levels := by
    rw [space_cons, space_nil, Nat.add_zero, room_eq_pow h0]
    congr 1
    omega
  refine ⟨rfl, Nat.le_of_eq hspace, fun _ => hspace, fun before e after hsplit => ?_⟩
  obtain ⟨rfl, rfl, rfl⟩ : before = [] ∧ e = entry ∧ after = [] := by
    cases before <;> simp_all
  simp [place, hlen, wordBits, Bits.ofNat, follow]

section Halves

variable {levels : Nat} {entries placed rest : List (Nat × Nat)} {zero one : PrefixCode}

/-- An entry in the left half is found through it. -/
theorem Grown.follow_zero (h : Grown levels entries placed zero rest)
    (hbounds : ∀ entry ∈ placed,
      0 < entry.1 ∧ entry.1 ≤ maxLength ∧ maxLength ≤ entry.1 + levels)
    {before after : List (Nat × Nat)} {entry : Nat × Nat}
    (hsplit : placed = before ++ entry :: after) :
    (node zero one).follow (place (levels + 1) before entry) = leaf entry.2 := by
  obtain ⟨h0, h2, h1⟩ := hbounds entry (by simp [hsplit])
  have hlt := h.space_before (fun e he => (hbounds e he).1) hsplit
  rw [place_zero h1 h2 h0 hlt]
  exact h.follow _ _ _ hsplit

/-- An entry in the right half is found through it, behind what fills the left one. -/
theorem Grown.follow_one (h : Grown levels entries placed one rest)
    (hbounds : ∀ entry ∈ placed,
      0 < entry.1 ∧ entry.1 ≤ maxLength ∧ maxLength ≤ entry.1 + levels)
    {filled before after : List (Nat × Nat)} {entry : Nat × Nat}
    (hfull : space filled = 2 ^ levels) (hsplit : placed = before ++ entry :: after) :
    (node zero one).follow (place (levels + 1) (filled ++ before) entry) = leaf entry.2 := by
  obtain ⟨h0, h2, h1⟩ := hbounds entry (by simp [hsplit])
  have hlt := h.space_before (fun e he => (hbounds e he).1) hsplit
  rw [place_one h1 h2 h0 hfull hlt]
  exact h.follow _ _ _ hsplit

end Halves

/-- Two subtrees grown one after the other make up a tree. -/
theorem Grown.node {levels : Nat} {entries left right middle rest : List (Nat × Nat)}
    {zero one : PrefixCode} (hfits : Fits levels entries)
    (hz : Grown levels entries left zero middle) (ho : Grown levels middle right one rest) :
    Grown (levels + 1) entries (left ++ right) (node zero one) rest := by
  have hentries : entries = left ++ right ++ rest := by
    rw [hz.split, ho.split, List.append_assoc]
  have hleft : ∀ entry ∈ left, _ := fun entry he =>
    hfits.bounds entry (by simp [hentries, he])
  have hright : ∀ entry ∈ right, _ := fun entry he =>
    hfits.bounds entry (by simp [hentries, he])
  have hmiddle : right ++ rest ≠ [] → space left = 2 ^ levels := ho.split ▸ hz.full
  refine ⟨hentries, ?_, fun hrest => ?_, fun before entry after hsplit => ?_⟩
  · have hzero := hz.space_le
    have hone := ho.space_le
    rw [space_append, Nat.pow_succ]
    omega
  · rw [space_append, hmiddle (by simp [hrest]), ho.full hrest, Nat.pow_succ]
    omega
  · -- `entry` stands in one of the halves; only the left one can be cut by what comes before it
    rcases List.append_eq_append_iff.mp hsplit with ⟨as, rfl, hafter⟩ | ⟨bs, hbefore, hafter⟩
    · exact ho.follow_one hright (hmiddle (by simp [hafter])) hafter
    · rcases bs with _ | ⟨b, bs⟩
      · obtain rfl : left = before := by simpa using hbefore
        have hfirst : right = [] ++ entry :: after := by simpa using hafter.symm
        rw [← List.append_nil left]
        exact ho.follow_one hright (hmiddle (by simp [hfirst])) hfirst
      · obtain ⟨rfl, -⟩ : entry = b ∧ after = bs ++ right := by simpa using hafter
        exact hz.follow_zero hleft hbefore

/-- **Growing puts every entry at its place**, from the left, until the tree is full. -/
theorem grown_grow (levels : Nat) (entries : List (Nat × Nat)) (hfits : Fits levels entries) :
    ∃ placed, Grown levels entries placed (grow levels entries).1 (grow levels entries).2 := by
  induction levels generalizing entries with
  | zero =>
    cases entries with
    | nil => exact ⟨[], by simpa [grow] using grown_nil 0⟩
    | cons entry rest =>
      have hbounds := hfits.bounds entry List.mem_cons_self
      have hlen : entry.1 = maxLength := by omega
      refine ⟨[entry], ?_⟩
      rw [grow, if_pos hlen]
      exact grown_leaf (by omega) hbounds.1
  | succ levels ih =>
    cases entries with
    | nil => exact ⟨[], by simpa [grow] using grown_nil (levels + 1)⟩
    | cons entry rest =>
      by_cases hlen : entry.1 + (levels + 1) = maxLength
      · refine ⟨[entry], ?_⟩
        rw [grow, if_pos hlen]
        exact grown_leaf hlen (hfits.bounds entry List.mem_cons_self).1
      · have hdown := hfits.descend hlen
        obtain ⟨left, hz⟩ := ih _ hdown
        obtain ⟨right, ho⟩ := ih _ (hz.split ▸ hdown).of_append
        refine ⟨left ++ right, ?_⟩
        rw [grow, if_neg hlen]
        exact hz.node hdown ho

/-! ## The order of the words -/

/-- The entries of one length, in the order of their symbols. -/
def ofLength (entries : List (Nat × Nat)) (length : Nat) : List (Nat × Nat) :=
  entries.filter fun entry => entry.1 == length

/-- The room of entries that are picked out in two ways which exclude each other. -/
theorem space_filter_or (p q : Nat × Nat → Bool) (entries : List (Nat × Nat))
    (h : ∀ entry ∈ entries, p entry = true → q entry = false) :
    space (entries.filter fun entry => p entry || q entry)
      = space (entries.filter p) + space (entries.filter q) := by
  induction entries with
  | nil => rfl
  | cons entry entries ih =>
    have hrest := ih fun e he => h e (List.mem_cons_of_mem _ he)
    have hfirst := h entry List.mem_cons_self
    cases hp : p entry
    · cases hq : q entry
      · simp [hp, hq, hrest]
      · simp [hp, hq, hrest]
        omega
    · simp [hp, hfirst hp, hrest]
      omega

theorem space_eq_zero {entries : List (Nat × Nat)} (h : ∀ entry ∈ entries, entry.1 = 0) :
    space entries = 0 := by
  induction entries with
  | nil => rfl
  | cons entry entries ih =>
    have hrest := ih fun e he => h e (List.mem_cons_of_mem _ he)
    simp [hrest, room, h entry List.mem_cons_self]

/-- The room of all words of at most `n` bits, one length after the other or picked out at once. -/
theorem space_flatMap_ofLength (entries : List (Nat × Nat)) (n : Nat) :
    space ((List.range' 1 n).flatMap (ofLength entries))
      = space (entries.filter fun entry => entry.1 ≤ n) := by
  induction n with
  | zero =>
    refine (space_eq_zero fun entry he => ?_).symm
    simpa using (List.mem_filter.mp he).2
  | succ n ih =>
    have hsplit : (entries.filter fun entry => decide (entry.1 ≤ n + 1))
        = entries.filter fun entry => decide (entry.1 ≤ n) || entry.1 == n + 1 := by
      refine congrArg (fun p => entries.filter p) (funext fun entry => ?_)
      rw [Bool.eq_iff_iff]
      simp only [decide_eq_true_eq, Bool.or_eq_true, beq_iff_eq]
      omega
    rw [List.range'_1_concat, List.flatMap_append, space_append, ih, hsplit, space_filter_or]
    · simp [ofLength, Nat.add_comm 1 n]
    · intro entry _ hle
      simp only [decide_eq_true_eq, beq_eq_false_iff_ne] at hle ⊢
      omega

/-- The entry of a symbol among those of all symbols. -/
theorem zipIdx_split {lengths : List Nat} {symbol length : Nat}
    (h : lengths[symbol]? = some length) :
    ∃ front back, lengths.zipIdx = front ++ (length, symbol) :: back
      ∧ (∀ entry ∈ front, entry.2 < symbol) ∧ ∀ entry ∈ back, symbol < entry.2 := by
  obtain ⟨xs, ys, rfl, rfl⟩ : ∃ xs ys, lengths = xs ++ length :: ys ∧ xs.length = symbol := by
    obtain ⟨hlt, hget⟩ := List.getElem?_eq_some_iff.mp h
    refine ⟨lengths.take symbol, lengths.drop (symbol + 1), ?_, by simp; omega⟩
    rw [← hget, List.getElem_cons_drop, List.take_append_drop]
  refine ⟨xs.zipIdx, ys.zipIdx (xs.length + 1), ?_, fun entry he => ?_, fun entry he => ?_⟩
  · rw [List.zipIdx_append, List.zipIdx_cons, Nat.zero_add]
  · exact List.snd_lt_of_mem_zipIdx he
  · exact List.le_snd_of_mem_zipIdx he

theorem range'_split {n length : Nat} (h0 : 0 < length) (h : length ≤ n) :
    List.range' 1 n
      = List.range' 1 (length - 1) ++ length :: List.range' (length + 1) (n - length) := by
  have hn : n = (length - 1) + (n - length + 1) := by omega
  have hl : 1 + (length - 1) = length := by omega
  calc List.range' 1 n
      = List.range' 1 ((length - 1) + (n - length + 1)) := by rw [← hn]
    _ = List.range' 1 (length - 1) ++ List.range' (1 + (length - 1)) (n - length + 1) :=
        List.range'_append_1.symm
    _ = List.range' 1 (length - 1) ++ length :: List.range' (length + 1) (n - length) := by
        rw [hl, List.range'_succ]

/-- What comes before a symbol: all shorter words, and those of its length in front of it. -/
theorem space_comesBefore {entries front back : List (Nat × Nat)} {symbol length : Nat}
    (h0 : 0 < length) (hentries : entries = front ++ (length, symbol) :: back)
    (hfront : ∀ entry ∈ front, entry.2 < symbol) (hback : ∀ entry ∈ back, symbol < entry.2) :
    space (entries.filter fun entry => comesBefore entry (length, symbol))
      = space (entries.filter fun entry => entry.1 ≤ length - 1)
        + space (ofLength front length) := by
  have hown : (entries.filter fun entry => entry.1 == length && decide (entry.2 < symbol))
      = ofLength front length := by
    have hf : (front.filter fun entry => entry.1 == length && decide (entry.2 < symbol))
        = ofLength front length :=
      List.filter_congr fun entry he => by simp [hfront entry he]
    have hb : (back.filter fun entry => entry.1 == length && decide (entry.2 < symbol)) = [] :=
      List.filter_eq_nil_iff.mpr fun entry he => by
        have := hback entry he
        simp
        omega
    rw [hentries, List.filter_append, hf, List.filter_cons_of_neg (by simp), hb, List.append_nil]
  have hsplit : (fun entry : Nat × Nat => comesBefore entry (length, symbol))
      = fun entry => decide (entry.1 ≤ length - 1)
          || (entry.1 == length && decide (entry.2 < symbol)) := by
    funext entry
    rw [comesBefore, Bool.eq_iff_iff]
    simp only [Bool.or_eq_true, Bool.and_eq_true, decide_eq_true_eq, beq_iff_eq]
    omega
  rw [hsplit, space_filter_or, hown]
  intro entry _ hle
  simp only [decide_eq_true_eq, Bool.and_eq_false_imp, beq_iff_eq] at hle ⊢
  omega

/-- Where a word stands in the order of the words, and how much room comes before it. -/
theorem ordered_split {lengths : List Nat} {symbol length : Nat}
    (h : lengths[symbol]? = some length) (h0 : 0 < length) (hmax : length ≤ maxLength) :
    ∃ before after, ordered lengths = before ++ (length, symbol) :: after
      ∧ space before
        = space (lengths.zipIdx.filter fun entry => comesBefore entry (length, symbol)) := by
  obtain ⟨front, back, hentries, hfront, hback⟩ := zipIdx_split h
  have hown : ofLength lengths.zipIdx length
      = ofLength front length ++ (length, symbol) :: ofLength back length := by
    simp [ofLength, hentries]
  refine ⟨(List.range' 1 (length - 1)).flatMap (ofLength lengths.zipIdx) ++ ofLength front length,
    ofLength back length
      ++ (List.range' (length + 1) (maxLength - length)).flatMap (ofLength lengths.zipIdx), ?_, ?_⟩
  · change (List.range' 1 maxLength).flatMap (ofLength lengths.zipIdx) = _
    rw [range'_split h0 hmax, List.flatMap_append, List.flatMap_cons, hown]
    simp
  · rw [space_comesBefore h0 hentries hfront hback, space_append, space_flatMap_ofLength]

theorem fits_ordered (lengths : List Nat) : Fits maxLength (ordered lengths) where
  sorted := by
    have hlen : ∀ length, ∀ entry ∈ ofLength lengths.zipIdx length, entry.1 = length :=
      fun length entry he => by simpa using (List.mem_filter.mp he).2
    refine List.pairwise_flatMap.mpr ⟨fun length _ => ?_, ?_⟩
    · exact List.pairwise_of_forall_mem_list fun x hx y hy =>
        Nat.le_of_eq ((hlen length x hx).trans (hlen length y hy).symm)
    · refine (List.pairwise_lt_range' 1).imp fun {m n} hmn x hx y hy => ?_
      rw [hlen m x hx, hlen n y hy]
      exact Nat.le_of_lt hmn
  bounds entry he := by
    obtain ⟨length, hlength, hentry⟩ := List.mem_flatMap.mp he
    have := List.mem_range'_1.mp hlength
    have : entry.1 = length := by simpa using (List.mem_filter.mp hentry).2
    omega

/-- **The word written for a symbol leads to it**, in a tree that has a place for every symbol. -/
theorem follow_codeword {lengths : List Nat} {symbol length : Nat}
    (h : lengths[symbol]? = some length) (h0 : 0 < length) (hmax : length ≤ maxLength)
    (hbuild : (build lengths).2 = []) :
    ∃ word, codeword lengths symbol = some word ∧ word.length = length
      ∧ (build lengths).1.follow word = leaf symbol := by
  obtain ⟨before, after, hordered, hspace⟩ := ordered_split h h0 hmax
  obtain ⟨placed, hgrown⟩ := grown_grow maxLength (ordered lengths) (fits_ordered lengths)
  have hplaced : placed = before ++ (length, symbol) :: after := by
    have := hgrown.split
    rw [show (grow maxLength (ordered lengths)).2 = [] from hbuild, List.append_nil] at this
    rw [← this, hordered]
  refine ⟨place maxLength before (length, symbol), ?_, ?_, hgrown.follow _ _ _ hplaced⟩
  · obtain ⟨length, rfl⟩ : ∃ n, length = n + 1 := ⟨length - 1, by omega⟩
    simp only [codeword, h, foldl_room, Nat.zero_add, ← hspace, place, Nat.add_sub_cancel]
  · simp [place]

/-- The same, with the words looked up by symbol. -/
theorem follow_codewords {lengths : List Nat} {symbol length : Nat}
    (h : lengths[symbol]? = some length) (h0 : 0 < length) (hmax : length ≤ maxLength)
    (hbuild : (build lengths).2 = []) :
    ((codewords lengths)[symbol]?.getD []).length = length
      ∧ (build lengths).1.follow ((codewords lengths)[symbol]?.getD []) = leaf symbol := by
  obtain ⟨word, hword, hlength, hfollow⟩ := follow_codeword h h0 hmax hbuild
  have hlt : symbol < lengths.length := (List.getElem?_eq_some_iff.mp h).1
  have hget : (codewords lengths)[symbol]?.getD [] = word := by
    simp [codewords, hlt, hword]
  rw [hget]
  exact ⟨hlength, hfollow⟩

/-! ## Reading a word -/

theorem feed_walk {code : PrefixCode} {word : List Bool} {symbol : Nat}
    (h : code.follow word = leaf symbol) (rest : List Bool) :
    code.walk.feed (word ++ rest) = .value symbol rest := by
  induction word generalizing code with
  | nil =>
    rw [follow] at h
    simp [h, walk]
  | cons bit word ih =>
    cases code with
    | node zero one =>
      rw [follow] at h
      cases bit
      · simpa [walk] using ih h
      · simpa [walk] using ih h
    | hole => simp [follow] at h
    | leaf s => simp [follow] at h

/-- **A word that leads to a symbol is read as that symbol.** -/
theorem feed_reader {code : PrefixCode} {word : List Bool} {symbol : Nat}
    (h : code.follow word = leaf symbol) (rest : List Bool) :
    code.reader.feed (word ++ rest) = .value symbol rest := by
  cases code with
  | hole => cases word <;> simp [follow] at h
  | leaf s => exact feed_walk h rest
  | node zero one => exact feed_walk h rest

end DeflateEcho.Deflate.PrefixCode
