import Mathlib
import DeflateEcho.Proofs.Deflate.CodeSpace

/-!
# Proofs/Deflate/Symbols — which bits are the word of a symbol, and which are none

In a tree that has a place for every word, a symbol is reached by its canonical word and by no other
(`follow_build_iff`).  The table differs from the tree in the holes of a code with a single word, and
these make its strays (`follow_table_iff`).  Below every point of a table that is no hole there is a
symbol (`Filled.exists_below`), so reading a symbol ends behind its word, fails on a pattern that no
symbol has, or goes on inside a word (`Readable.reads`).
-/

namespace DeflateEcho.Deflate.PrefixCode

open Bits

/-! ## Going down a tree -/

@[simp] theorem follow_hole (word : List Bool) : hole.follow word = hole := by
  cases word <;> rfl

theorem follow_append (code : PrefixCode) (first second : List Bool) :
    code.follow (first ++ second) = (code.follow first).follow second := by
  induction first generalizing code with
  | nil => simp [follow]
  | cons bit first ih =>
    cases code with
    | hole => simp
    | leaf symbol => simp [follow]
    | node zero one => cases bit <;> simp [follow, ih]

theorem mem_symbols_of_follow {code : PrefixCode} {word : List Bool} {symbol : Nat}
    (h : code.follow word = leaf symbol) : symbol ∈ code.symbols := by
  induction code generalizing word with
  | hole => simp at h
  | leaf other =>
    cases word with
    | nil => simpa [follow, symbols, eq_comm] using h
    | cons bit word => simp [follow] at h
  | node zero one ihz iho =>
    cases word with
    | nil => simp [follow] at h
    | cons bit word =>
      cases bit
      · exact List.mem_append_left _ (ihz h)
      · exact List.mem_append_right _ (iho h)

/-- **A symbol has one word**, in a tree that does not hold it twice. -/
theorem follow_unique {code : PrefixCode} (hnodup : code.symbols.Nodup) {word other : List Bool}
    {symbol : Nat} (h : code.follow word = leaf symbol) (h' : code.follow other = leaf symbol) :
    word = other := by
  induction code generalizing word other with
  | hole => simp at h
  | leaf s =>
    cases word with
    | nil =>
      cases other with
      | nil => rfl
      | cons bit other => simp [follow] at h'
    | cons bit word => simp [follow] at h
  | node zero one ihz iho =>
    obtain ⟨hz, ho, hdisjoint⟩ := List.nodup_append.mp hnodup
    cases word with
    | nil => simp [follow] at h
    | cons bit word =>
      cases other with
      | nil => simp [follow] at h'
      | cons bit' other =>
        cases bit <;> cases bit' <;> simp only [follow, if_true, if_false, Bool.false_eq_true]
          at h h'
        · rw [ihz hz h h']
        · exact absurd rfl (hdisjoint _ (mem_symbols_of_follow h) _ (mem_symbols_of_follow h'))
        · exact absurd rfl (hdisjoint _ (mem_symbols_of_follow h') _ (mem_symbols_of_follow h))
        · rw [iho ho h h']

/-- A tree in which no node has a hole on its left. -/
inductive Filled : PrefixCode → Prop where
  | hole : Filled hole
  | leaf (symbol : Nat) : Filled (leaf symbol)
  | node {zero one : PrefixCode} (hne : zero ≠ .hole) (hzero : Filled zero) (hone : Filled one) :
    Filled (node zero one)

theorem grow_ne_hole {levels : Nat} {entries : List (Nat × Nat)} (hfits : Fits levels entries) :
    entries ≠ [] → (grow levels entries).1 ≠ hole :=
  grow_induction (motive := fun _ entries code => entries ≠ [] → code ≠ hole)
    (by simp) (by simp) (by simp) hfits

/-- Trees are grown from the left. -/
theorem filled_grow {levels : Nat} {entries : List (Nat × Nat)} (hfits : Fits levels entries) :
    Filled (grow levels entries).1 := by
  refine grow_induction (motive := fun _ _ code => Filled code) ?_ ?_ ?_ hfits
  · exact fun _ => .hole
  · exact fun _ entry _ _ _ => .leaf entry.2
  · exact fun _ entry rest hdown hzero hone =>
      .node (grow_ne_hole hdown (List.cons_ne_nil entry rest)) hzero hone

theorem zeroFilled_ne_hole {code : PrefixCode} (h : code ≠ hole) (depth : Nat) :
    code.zeroFilled depth ≠ hole := by
  cases code with
  | hole => exact absurd rfl h
  | leaf symbol => simp
  | node zero one => simp

theorem filled_zeroFilled {code : PrefixCode} (h : Filled code) (depth : Nat) :
    Filled (code.zeroFilled depth) := by
  induction h generalizing depth with
  | hole =>
    rw [zeroFilled]
    split
    · exact .leaf 0
    · exact .hole
  | leaf symbol => exact .leaf symbol
  | node hne _ _ ihz iho => exact .node (zeroFilled_ne_hole hne _) (ihz _) (iho _)

theorem filled_table (lengths : List Nat) : Filled (table lengths) :=
  filled_zeroFilled (filled_grow (fits_ordered lengths)) 0

namespace Filled

variable {code : PrefixCode}

theorem follow (h : Filled code) (word : List Bool) : Filled (code.follow word) := by
  induction word generalizing code with
  | nil => simpa [PrefixCode.follow] using h
  | cons bit word ih =>
    cases h with
    | hole => exact .hole
    | leaf symbol => exact .hole
    | node _ hzero hone =>
      cases bit
      · exact ih hzero
      · exact ih hone

theorem exists_symbol (h : Filled code) (hne : code ≠ .hole) :
    ∃ word symbol, code.follow word = .leaf symbol := by
  induction h with
  | hole => exact absurd rfl hne
  | leaf symbol => exact ⟨[], symbol, rfl⟩
  | node hzero _ _ ih _ =>
    obtain ⟨word, symbol, hword⟩ := ih hzero
    exact ⟨false :: word, symbol, hword⟩

/-- **Below every point that is no hole there is a symbol.** -/
theorem exists_below (h : Filled code) {word : List Bool} (hne : code.follow word ≠ .hole) :
    ∃ more symbol, code.follow (word ++ more) = .leaf symbol := by
  obtain ⟨more, symbol, hmore⟩ := (h.follow word).exists_symbol hne
  exact ⟨more, symbol, by rw [follow_append, hmore]⟩

end Filled

/-! ## Words that a tree is read with -/

theorem codeword_eq_some {lengths : List Nat} {symbol : Nat} {word : List Bool}
    (h : codeword lengths symbol = some word) :
    ∃ length, lengths[symbol]? = some length ∧ 0 < length ∧ word.length = length := by
  rw [codeword] at h
  split at h
  · simp at h
  · simp at h
  · next length hne hlength =>
    rw [← Option.some.inj h, length_wordBits]
    exact ⟨length, hlength, Nat.pos_of_ne_zero hne, rfl⟩

theorem codeword_ne_nil {lengths : List Nat} {symbol : Nat} {word : List Bool}
    (h : codeword lengths symbol = some word) : word ≠ [] := by
  obtain ⟨length, -, hpos, hlength⟩ := codeword_eq_some h
  exact List.ne_nil_of_length_pos (by omega)

theorem IsWord.ne_nil {lengths : List Nat} {symbol : Nat} {word : List Bool}
    (h : IsWord lengths symbol word) : word ≠ [] := by
  cases h with
  | canonical hword => exact codeword_ne_nil hword
  | stray => simp

/-! ## A single word -/

/-- The tree of a single word: one node for each of its bits. -/
def only (symbol : Nat) : (length : Nat) → PrefixCode
  | 0 => leaf symbol
  | length + 1 => node (only symbol length) hole

theorem grow_singleton {levels length symbol bits : Nat} (hmax : length ≤ maxLength)
    (h : length + levels = maxLength + bits) :
    grow levels [(length, symbol)] = (only symbol bits, []) := by
  induction bits generalizing levels with
  | zero =>
    have hlast : length + levels = maxLength := h
    cases levels
    · rw [grow, if_pos (by omega), only]
    · rw [grow, if_pos hlast, only]
  | succ bits ih =>
    obtain ⟨levels, rfl⟩ : ∃ n, levels = n + 1 := Nat.exists_eq_succ_of_ne_zero (by omega)
    have hnil : grow levels [] = (hole, []) := by cases levels <;> rfl
    have hdown : length + levels = maxLength + bits := by omega
    have hdeeper : length + (levels + 1) ≠ maxLength := by omega
    rw [grow, if_neg hdeeper, ih hdown, only]
    simp only [hnil]

theorem follow_only_iff {symbol length other : Nat} {word : List Bool} :
    (only symbol length).follow word = leaf other
      ↔ other = symbol ∧ word = List.replicate length false := by
  induction length generalizing word with
  | zero => cases word <;> simp [only, follow, eq_comm]
  | succ length ih =>
    rcases word with _ | ⟨_ | _, word⟩
    · simp [only, follow]
    · simp [only, follow, ih, List.replicate_succ]
    · simp [only, follow, List.replicate_succ]

theorem follow_zeroFilled_hole_iff {depth other : Nat} {word : List Bool} :
    (hole.zeroFilled depth).follow word = leaf other
      ↔ tableBits < depth ∧ other = 0 ∧ word = [] := by
  rw [zeroFilled]
  split
  · next hdeep => cases word <;> simp [follow, hdeep, eq_comm]
  · next hshallow => simp [hshallow]

/-- **What a single word leads to in the table**: its symbol at its end, and the symbol zero where it
is left behind the first bits. -/
theorem follow_zeroFilled_only_iff {symbol length depth other : Nat} {word : List Bool} :
    ((only symbol length).zeroFilled depth).follow word = leaf other
      ↔ (other = symbol ∧ word = List.replicate length false)
        ∨ other = 0 ∧ ∃ zeros < length, tableBits ≤ depth + zeros
          ∧ word = List.replicate zeros false ++ [true] := by
  induction length generalizing depth word with
  | zero => cases word <;> simp [only, follow, @eq_comm _ symbol]
  | succ length ih =>
    rcases word with _ | ⟨_ | _, word⟩
    · simp [only, follow]
    · -- one zero less to go, one level further down
      have hzeros : (∃ zeros < length, tableBits ≤ depth + 1 + zeros
            ∧ word = List.replicate zeros false ++ [true])
          ↔ ∃ zeros < length + 1, tableBits ≤ depth + zeros
            ∧ false :: word = List.replicate zeros false ++ [true] := by
        constructor
        · rintro ⟨zeros, hlt, hdeep, rfl⟩
          exact ⟨zeros + 1, by omega, by omega, by simp [List.replicate_succ]⟩
        · rintro ⟨_ | zeros, hlt, hdeep, hword⟩
          · simp at hword
          · exact ⟨zeros, by omega, by omega, by simpa [List.replicate_succ] using hword⟩
      simp only [only, zeroFilled_node, follow, Bool.false_eq_true, if_false, ih, hzeros,
        List.replicate_succ, List.cons.injEq, true_and]
    · have hhole : (∃ zeros < length + 1, tableBits ≤ depth + zeros
            ∧ true :: word = List.replicate zeros false ++ [true])
          ↔ tableBits < depth + 1 ∧ word = [] := by
        constructor
        · rintro ⟨_ | zeros, hlt, hdeep, hword⟩
          · exact ⟨by omega, by simpa using hword⟩
          · simp [List.replicate_succ] at hword
        · rintro ⟨hdeep, rfl⟩
          exact ⟨0, by omega, by omega, rfl⟩
      simp only [only, zeroFilled_node, follow, if_true, follow_zeroFilled_hole_iff, hhole,
        List.replicate_succ, List.cons.injEq, Bool.true_eq_false, false_and, and_false, false_or]
      tauto

/-- Lengths that words can be read with: none is too long, and they are a code. -/
structure Readable (lengths : List Nat) : Prop where
  bounded : ∀ length ∈ lengths, length ≤ maxLength
  usable : ¬ Unusable lengths

namespace Readable

variable {lengths : List Nat} (h : Readable lengths)
include h

theorem build_eq_nil : (build lengths).2 = [] :=
  (build_eq_nil_iff h.bounded).mpr fun hover => h.usable (.inl hover)

theorem symbols_build : (build lengths).1.symbols = (ordered lengths).map Prod.snd := by
  have hsymbols := symbols_grow maxLength (ordered lengths)
  rwa [show (grow maxLength (ordered lengths)).2 = [] from h.build_eq_nil, List.map_nil,
    List.append_nil] at hsymbols

/-- **In the tree a symbol is reached by its canonical word, and by no other.** -/
theorem follow_build_iff {symbol : Nat} {word : List Bool} :
    (build lengths).1.follow word = leaf symbol ↔ codeword lengths symbol = some word := by
  have hread : ∀ length, lengths[symbol]? = some length → 0 < length →
      ∃ word, codeword lengths symbol = some word
        ∧ (build lengths).1.follow word = leaf symbol := by
    intro length hlength hpos
    obtain ⟨word, hword, -, hfollow⟩ := follow_codeword hlength hpos
      (h.bounded length (List.mem_of_getElem? hlength)) h.build_eq_nil
    exact ⟨word, hword, hfollow⟩
  constructor
  · intro hfollow
    have hmem := mem_symbols_of_follow hfollow
    rw [h.symbols_build] at hmem
    obtain ⟨⟨length, _⟩, hentry, rfl⟩ := List.mem_map.mp hmem
    obtain ⟨hlength, hpos⟩ := (mem_ordered_iff h.bounded).mp hentry
    obtain ⟨canonical, hword, hcanonical⟩ := hread length hlength hpos
    have hnodup : (build lengths).1.symbols.Nodup := h.symbols_build ▸ nodup_ordered h.bounded
    rwa [follow_unique hnodup hfollow hcanonical]
  · intro hword
    obtain ⟨length, hlength, hpos, -⟩ := codeword_eq_some hword
    obtain ⟨canonical, hcanonical, hfollow⟩ := hread length hlength hpos
    rw [hword] at hcanonical
    rwa [Option.some.inj hcanonical]

section Single

variable {length lone : Nat} (hordered : ordered lengths = [(length, lone)])
include hordered

/-- The tree of a code with a single word. -/
theorem build_of_ordered : build lengths = (only lone length, []) := by
  have hentry : (length, lone) ∈ ordered lengths := by simp [hordered]
  have hmax := h.bounded length
    (List.mem_of_getElem? ((mem_ordered_iff h.bounded).mp hentry).1)
  rw [build, hordered, grow_singleton hmax (Nat.add_comm length maxLength)]

theorem isWord_iff_of_ordered {symbol : Nat} {word : List Bool} :
    IsWord lengths symbol word
      ↔ (symbol = lone ∧ word = List.replicate length false)
        ∨ symbol = 0 ∧ ∃ zeros < length, tableBits ≤ 0 + zeros
          ∧ word = List.replicate zeros false ++ [true] := by
  have honly : lengths.filter (0 < ·) = [length] := by
    have hfst := ordered_map_fst_perm h.bounded
    rw [hordered] at hfst
    exact (List.singleton_perm.mp hfst).symm
  have hcanonical : codeword lengths symbol = some word
      ↔ symbol = lone ∧ word = List.replicate length false := by
    rw [← h.follow_build_iff, h.build_of_ordered hordered, follow_only_iff]
  constructor
  · rintro (hword | ⟨honly', htable, hzeros⟩)
    · exact .inl (hcanonical.mp hword)
    · obtain rfl : length = _ := List.singleton_inj.mp (honly.symm.trans honly')
      exact .inr ⟨rfl, _, hzeros, by omega, rfl⟩
  · rintro (hword | ⟨rfl, zeros, hzeros, htable, rfl⟩)
    · exact .canonical (hcanonical.mpr hword)
    · exact .stray honly (by omega) hzeros

end Single

/-- **In the table a symbol is reached by its words, and by no other.** -/
theorem follow_table_iff {symbol : Nat} {word : List Bool} :
    (table lengths).follow word = leaf symbol ↔ IsWord lengths symbol word := by
  by_cases hincomplete : Incomplete lengths
  · have hsparse : Sparse lengths := by
      by_contra hdense
      exact h.usable (.inr ⟨hincomplete, hdense⟩)
    have hlone := (sparse_iff h.bounded).mp hsparse
    match hordered : ordered lengths with
    | [] =>
      have hbuild : build lengths = (hole, []) := by
        rw [build, hordered]
        rfl
      have hfits : FitsTable lengths := by
        intro length honly
        have hfst := ordered_map_fst_perm h.bounded
        simp [hordered, honly] at hfst
      rw [isWord_iff_of_fitsTable hfits, ← h.follow_build_iff, table, hbuild]
      rfl
    | [(length, lone)] =>
      rw [h.isWord_iff_of_ordered hordered, table, h.build_of_ordered hordered]
      exact follow_zeroFilled_only_iff
    | first :: second :: others => simp [hordered] at hlone
  · rw [table_of_complete h.bounded hincomplete, h.follow_build_iff,
      isWord_iff_of_fitsTable (fitsTable_of_complete hincomplete)]

/-- No word ends at the root, so a symbol takes at least one bit. -/
theorem table_ne_leaf (symbol : Nat) : table lengths ≠ leaf symbol := by
  intro hleaf
  have hfollow : (table lengths).follow [] = leaf symbol := by rw [hleaf, follow]
  exact (h.follow_table_iff.mp hfollow).ne_nil rfl

end Readable

/-! ## Reading a symbol -/

/-- What walking down a tree comes to: a symbol, a hole, or a node inside. -/
inductive Walked (code : PrefixCode) : List Bool → Reader.Outcome Nat → Prop where
  | symbol {symbol : Nat} {word rest : List Bool} (hword : code.follow word = leaf symbol) :
    Walked code (word ++ rest) (.value symbol rest)
  | hole {word rest : List Bool} (hword : code.follow word = hole)
    (hstart : ∀ start symbol, start <+: word → code.follow start ≠ leaf symbol) :
    Walked code (word ++ rest) (.error rest)
  | inside {bits : List Bool} {pending : Reader Nat} {zero one : PrefixCode}
    (hnode : code.follow bits = node zero one) : Walked code bits (.reading pending)

theorem follow_node (zero one : PrefixCode) (bit : Bool) (word : List Bool) :
    (node zero one).follow (bit :: word) = (if bit then one else zero).follow word := by
  cases bit <;> simp [follow]

theorem Walked.cons {zero one : PrefixCode} {bit : Bool} {bits : List Bool}
    {outcome : Reader.Outcome Nat} (h : Walked (if bit then one else zero) bits outcome) :
    Walked (node zero one) (bit :: bits) outcome := by
  cases h with
  | symbol hword =>
    rw [← List.cons_append]
    exact .symbol ((follow_node zero one bit _).trans hword)
  | hole hword hstart =>
    rw [← List.cons_append]
    refine .hole ((follow_node zero one bit _).trans hword) fun start symbol hprefix => ?_
    rcases List.prefix_cons_iff.mp hprefix with rfl | ⟨tail, rfl, htail⟩
    · simp [follow]
    · rw [follow_node]
      exact hstart tail symbol htail
  | inside hnode => exact .inside ((follow_node zero one bit bits).trans hnode)

theorem walked (code : PrefixCode) (bits : List Bool) : Walked code bits (code.walk.feed bits) := by
  cases code with
  | hole =>
    rw [walk, Reader.feed_fail]
    exact @Walked.hole _ [] bits rfl (by simp)
  | leaf symbol =>
    rw [walk, Reader.feed_done]
    exact @Walked.symbol _ symbol [] bits rfl
  | node zero one =>
    cases bits with
    | nil => exact .inside rfl
    | cons bit bits =>
      have hfeed : (node zero one).walk.feed (bit :: bits)
          = (if bit then one else zero).walk.feed bits := by
        cases bit <;> simp [walk]
      rw [hfeed]
      exact (walked _ bits).cons

theorem feed_walk_ne_error {code : PrefixCode} (hfull : code.isFull = true)
    (bits rest : List Bool) : code.walk.feed bits ≠ .error rest := by
  induction bits generalizing code with
  | nil => cases code <;> simp_all [walk, isFull, Reader.feed]
  | cons bit bits ih =>
    cases code with
    | hole => simp [isFull] at hfull
    | leaf symbol => simp [walk]
    | node zero one =>
      obtain ⟨hzero, hone⟩ := Bool.and_eq_true_iff.mp hfull
      cases bit
      · simpa [walk] using ih hzero
      · simpa [walk] using ih hone

/-- What reading a symbol comes to, seen from the words: one of them, a pattern that no symbol has, or
bits that do not make up a word yet. -/
inductive Reads (lengths : List Nat) : List Bool → Reader.Outcome Nat → Prop where
  | symbol {symbol : Nat} {word rest : List Bool} (hword : IsWord lengths symbol word) :
    Reads lengths (word ++ rest) (.value symbol rest)
  | unassigned {pattern rest : List Bool} (hpattern : Unassigned lengths pattern) :
    Reads lengths (pattern ++ rest) (.error rest)
  | nothing {pending : Reader Nat} : Reads lengths [] (.reading pending)
  | inside {symbol : Nat} {bits more : List Bool} {pending : Reader Nat}
    (hword : IsWord lengths symbol (bits ++ more)) : Reads lengths bits (.reading pending)

namespace Readable

variable {lengths : List Nat} (h : Readable lengths)
include h

/-- A pattern that leads into a hole, and past no word, is one that no symbol has. -/
theorem unassigned {pattern : List Bool} (hne : pattern ≠ [])
    (hhole : (table lengths).follow pattern = hole)
    (hstart : ∀ start symbol, start <+: pattern → (table lengths).follow start ≠ leaf symbol) :
    Unassigned lengths pattern := by
  refine ⟨hne, fun symbol word hword => ?_⟩
  have hleaf := h.follow_table_iff.mpr hword
  refine ⟨fun hprefix => hstart word symbol hprefix hleaf, ?_⟩
  rintro ⟨more, rfl⟩
  simp [follow_append, hhole] at hleaf

/-- **Reading a symbol** ends behind its word, fails on a pattern that no symbol has, or goes on
inside a word. -/
theorem reads (bits : List Bool) : Reads lengths bits ((table lengths).reader.feed bits) := by
  have hwalked := walked (table lengths) bits
  have hfilled : Filled (table lengths) := filled_table lengths
  cases hcode : table lengths with
  | hole =>
    cases bits with
    | nil => exact .nothing
    | cons bit bits =>
      have hnone : Unassigned lengths [bit] :=
        h.unassigned (List.cons_ne_nil bit []) (by simp [hcode]) (by simp [hcode])
      exact @Reads.unassigned _ [bit] bits hnone
  | leaf symbol => exact absurd hcode (h.table_ne_leaf symbol)
  | node zero one =>
    have hreader : (node zero one).reader = (table lengths).walk := by simp [hcode, reader]
    rw [hreader]
    generalize (table lengths).walk.feed bits = outcome at hwalked
    cases hwalked with
    | symbol hword => exact .symbol (h.follow_table_iff.mp hword)
    | @hole word _ hword hstart =>
      have hne : word ≠ [] := by
        rintro rfl
        simp [hcode, follow] at hword
      exact .unassigned (h.unassigned hne hword hstart)
    | inside hnode =>
      have hnonempty : (table lengths).follow bits ≠ hole := by simp [hnode]
      obtain ⟨more, symbol, hmore⟩ := hfilled.exists_below hnonempty
      exact .inside (h.follow_table_iff.mp hmore)

/-- A symbol was read from its word. -/
theorem feed_reader_eq_value {symbol : Nat} {bits rest : List Bool}
    (hvalue : (table lengths).reader.feed bits = .value symbol rest) :
    ∃ word, bits = word ++ rest ∧ IsWord lengths symbol word := by
  have hreads := h.reads bits
  rw [hvalue] at hreads
  cases hreads with
  | symbol hword => exact ⟨_, rfl, hword⟩

/-- A symbol is read from its word. -/
theorem feed_reader_word {symbol : Nat} {word : List Bool}
    (hword : IsWord lengths symbol word) :
    (table lengths).reader.feed word = .value symbol [] := by
  have hread := feed_reader (h.follow_table_iff.mpr hword) []
  rwa [List.append_nil] at hread

/-- Reading a symbol failed on a pattern that no symbol has. -/
theorem feed_reader_eq_error {bits rest : List Bool}
    (herror : (table lengths).reader.feed bits = .error rest) :
    ∃ pattern, bits = pattern ++ rest ∧ Unassigned lengths pattern := by
  have hreads := h.reads bits
  rw [herror] at hreads
  cases hreads with
  | unassigned hpattern => exact ⟨_, rfl, hpattern⟩

/-- A pattern that no symbol has is read as an error. -/
theorem feed_reader_of_unassigned {pattern : List Bool} (hpattern : Unassigned lengths pattern) :
    ∃ rest, (table lengths).reader.feed pattern = .error rest := by
  have hreads := h.reads pattern
  generalize (table lengths).reader.feed pattern = outcome at hreads
  cases hreads with
  | symbol hword => exact absurd (List.prefix_append _ _) (hpattern.apart _ _ hword).1
  | unassigned => exact ⟨_, rfl⟩
  | nothing => exact absurd rfl hpattern.ne_nil
  | inside hword => exact absurd (List.prefix_append _ _) (hpattern.apart _ _ hword).2

theorem feed_reader_ne_error (hcomplete : ¬ Incomplete lengths) (bits rest : List Bool) :
    (table lengths).reader.feed bits ≠ .error rest := by
  have hfull : (table lengths).isFull = true := by
    rw [table_of_complete h.bounded hcomplete]
    exact (isFull_build_iff h.bounded).mpr hcomplete
  cases hcode : table lengths with
  | hole => simp [hcode, isFull] at hfull
  | leaf symbol => exact absurd hcode (h.table_ne_leaf symbol)
  | node zero one => exact feed_walk_ne_error (hcode ▸ hfull) bits rest

end Readable

end DeflateEcho.Deflate.PrefixCode
