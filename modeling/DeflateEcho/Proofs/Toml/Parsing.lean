import Mathlib
import DeflateEcho.Proofs.Toml.Numerals

/-!
# Proofs/Toml/Parsing — files are read as they are written

A term stands for a value if it does not nest too deep, its dotted keys do not have too many keys,
and the assignments of each inline table in it go together: `Term.read`.  The scanner of values gives
just that value, or nothing where there is none, for **every text that spells the term**
(`valueWithin_append`), by induction on the depth, and for the parts of an array or an inline table
by induction on the grammar.  So a file, however it is written, gives what its lines stand for
(`parse_eq`).
-/

namespace DeflateEcho.Toml

/-! ## What terms and lines stand for -/

/-- What an assignment stands for, if its dotted key does not have too many keys. -/
def readEntry (read : Term → Option Value) (entry : List String × Term) :
    Option (List String × Value) :=
  if entry.1.length < maxDepth then (read entry.2).map fun v => (entry.1, v) else none

/-- **The value of a term** with at most `depth` levels of arrays and inline tables. -/
def Term.read : (depth : Nat) → Term → Option Value
  | _, .scalar v => some v
  | 0, _ => none
  | depth + 1, .array items => (items.mapM (read depth)).map .array
  | depth + 1, .inline entries =>
    (entries.mapM (readEntry (read depth))).bind fun entries => (tableOf entries).map .table

/-- The statement that a line stands for. -/
def Line.read : Line Term → Option Statement
  | .table path => if path.length < maxDepth then some (.tableHeader path) else none
  | .element path => if path.length < maxDepth then some (.elementHeader path) else none
  | .assignment path t =>
    (readEntry (Term.read (maxDepth - 1)) (path, t)).map fun entry => .assignment entry.1 entry.2

/-- **The table that lines stand for.** -/
def readFile (lines : List (Line Term)) : Option (List (String × Value)) :=
  (lines.mapM Line.read).bind Document.ofStatements

/-! ## Where values begin and end -/

theorem closed_nil : Closed [] := notBefore_nil

theorem closed_cons {c : Char} (hc : c ∈ closings) (rest : List Char) : Closed (c :: rest) := by
  have hspace : ∀ c ∈ closings, ¬ isSpace c := forall_of_all (by decide)
  rw [Closed, skipSpaces_eq_self (notBefore_cons.mpr (hspace c hc))]
  exact notBefore_cons.mpr (not_not.mpr hc)

theorem Closed.blank {b rest : List Char} (hb : Blank b) (h : Closed rest) : Closed (b ++ rest) := by
  rwa [Closed, skipSpaces_append hb]

theorem Closed.remark {r rest : List Char} (hr : Remark r) (h : Closed rest) :
    Closed (r ++ rest) := by
  cases hr with
  | blank hb => exact h.blank hb
  | comment hb =>
    rw [List.append_assoc]
    exact .blank hb (closed_cons (by decide) _)

theorem LineBreak.closed {n : List Char} (hn : LineBreak n) (rest : List Char) :
    Closed (n ++ rest) := by
  cases hn <;> exact closed_cons (by decide) _

theorem Closed.gap {g rest : List Char} (hg : Gap g) (h : Closed rest) : Closed (g ++ rest) := by
  cases hg with
  | blank hb => exact h.blank hb
  | line hr hn =>
    rw [List.append_assoc, List.append_assoc]
    exact .remark hr (hn.closed _)

/-- A character that a value may begin with. -/
def opensValue (c : Char) : Prop := opensScalar c ∨ c = '[' ∨ c = '\x7b'

theorem Spelled.exists_cons {t : Term} {x : List Char} (h : Spelled t x) :
    ∃ c y, x = c :: y ∧ opensValue c := by
  cases h with
  | scalar h =>
    obtain ⟨c, y, rfl, hc⟩ := h.exists_cons
    exact ⟨c, y, rfl, .inl hc⟩
  | array => exact ⟨_, _, rfl, .inr (.inl rfl)⟩
  | empty => exact ⟨_, _, rfl, .inr (.inr rfl)⟩
  | inline => exact ⟨_, _, rfl, .inr (.inr rfl)⟩

/-- No value begins with a blank, a remark, the end of a line or a closing bracket. -/
theorem Spelled.notBefore {t : Term} {x : List Char} (h : Spelled t x) (rest : List Char) :
    NotBefore (· ∈ marks) (x ++ rest) := by
  obtain ⟨c, y, rfl, hc⟩ := h.exists_cons
  refine notBefore_cons.mpr fun hmark => ?_
  have hmarks : ∀ c ∈ marks, ¬ (((isDigitOf 10 c ∨ c ∈ ['+', '-', 'i', 'n']) ∨
      c ∈ ['t', 'f', '"', '\'']) ∨ c = '[' ∨ c = '\x7b') := forall_of_all (by decide)
  exact hmarks c hmark hc

theorem mem_marks_of_isSpace {c : Char} (h : isSpace c) : c ∈ marks := by
  obtain rfl | rfl := isSpace_cases h
  all_goals decide

theorem Spelled.skipSpaces {t : Term} {x b : List Char} (h : Spelled t x) (hb : Blank b)
    (rest : List Char) : skipSpaces (b ++ (x ++ rest)) = x ++ rest := by
  rw [skipSpaces_append hb]
  exact skipSpaces_eq_self ((h.notBefore rest).mono fun _ => mem_marks_of_isSpace)

theorem Spelled.skipTrivia {t : Term} {x g : List Char} (h : Spelled t x) (hg : Gap g)
    (rest : List Char) : skipTrivia false (g ++ (x ++ rest)) = x ++ rest := by
  rw [skipTrivia_gap hg]
  refine skipTrivia_eq_self ((h.notBefore rest).mono ?_)
  rintro c (hspace | rfl | rfl | rfl)
  · exact mem_marks_of_isSpace hspace
  all_goals decide

/-! ## Arrays and inline tables

The scanner of a level reads each part that the level below can read. -/

theorem keyPath_append {path : List String} {x rest : List Char} (h : PathText path x)
    (hrest : NotBefore goesOnPath rest) {b : List Char} (hb : Blank b) :
    keyPath (b ++ (x ++ rest)) = if path.length < maxDepth then some (path, rest) else none := by
  rw [keyPath, keyPathWithin_append h hrest hb]
  exact if_congr Nat.lt_succ_iff.symm rfl rfl

theorem AssignmentText.exists_cons {entry : List String × Term} {x : List Char}
    (h : AssignmentText Spelled entry x) : ∃ c y, x = c :: y ∧ opensKey c := by
  obtain ⟨hpath, -, -⟩ := h
  exact exists_cons_append hpath.exists_cons _

theorem AssignmentText.skipSpaces {entry : List String × Term} {x b : List Char}
    (h : AssignmentText Spelled entry x) (hb : Blank b) (rest : List Char) :
    skipSpaces (b ++ (x ++ rest)) = x ++ rest := by
  obtain ⟨c, y, rfl, hc⟩ := h.exists_cons
  rw [skipSpaces_append hb]
  exact skipSpaces_eq_self (notBefore_cons.mpr (not_isSpace_of_opensKey hc))

/-- The blanks at the front of an inline table may go. -/
theorem EntriesText.skipSpaces {entries : List (List String × Term)} {y : List Char}
    (h : EntriesText Spelled entries y) : ∃ z, EntriesText Spelled entries z ∧
      (∃ c w, z = c :: w ∧ opensKey c) ∧ ∀ rest, skipSpaces (y ++ rest) = z ++ rest := by
  cases h with
  | @last b x b' entry hb h hb' =>
    refine ⟨x ++ b', .last blank_nil h hb', exists_cons_append h.exists_cons _, fun rest => ?_⟩
    simp only [List.append_assoc, h.skipSpaces hb]
  | @comma b x b' y entry entries hb h hb' hentries =>
    refine ⟨x ++ (b' ++ ',' :: y), .comma blank_nil h hb' hentries,
      exists_cons_append h.exists_cons _, fun rest => ?_⟩
    simp only [List.append_assoc, h.skipSpaces hb]

section Rounds

variable (item : Scanner Value) {text rest z : List Char} (rounds : Nat) (found : List Value)

theorem itemsFrom_close (h : skipTrivia false text = ']' :: rest) :
    itemsFrom item (rounds + 1) found text = some (.array found.reverse, rest) := by
  simp only [itemsFrom, h]

theorem itemsFrom_item (h : skipTrivia false text = z) (hz : NotBefore (· = ']') z) :
    itemsFrom item (rounds + 1) found text =
      match item z with
      | none => none
      | some (v, text) =>
        match skipTrivia false text with
        | ',' :: rest => itemsFrom item rounds (v :: found) rest
        | ']' :: rest => some (.array (v :: found).reverse, rest)
        | _ => none := by
  rw [itemsFrom, h]
  split
  · exact absurd rfl (hz ']' rfl)
  · rfl

end Rounds

section Parts

variable {item : Scanner Value} {read : Term → Option Value}
  (hitem : ∀ {t : Term} {x rest : List Char}, Spelled t x → Closed rest →
    item (x ++ rest) = (read t).map fun v => (v, rest))
include hitem

theorem itemsFrom_append {items : List Term} {y rest : List Char} (h : ItemsText Spelled items y)
    {rounds : Nat} (hrounds : y.length < rounds) (found : List Value) :
    itemsFrom item rounds found (y ++ ']' :: rest) =
      (items.mapM read).map fun vs => (.array (found.reverse ++ vs), rest) := by
  have hclose : NotBefore inGap (']' :: rest) := notBefore_cons.mpr (by unfold inGap; decide)
  induction h generalizing rounds found with
  | none hg =>
    obtain ⟨rounds, rfl⟩ := Nat.exists_eq_add_one_of_ne_zero (Nat.ne_zero_of_lt hrounds)
    rw [itemsFrom_close item rounds found ((skipTrivia_gap hg _).trans (skipTrivia_eq_self hclose))]
    simp
  | @last g x g' t hg ht hg' =>
    obtain ⟨rounds, rfl⟩ := Nat.exists_eq_add_one_of_ne_zero (Nat.ne_zero_of_lt hrounds)
    rw [List.append_assoc, List.append_assoc,
      itemsFrom_item item rounds found (ht.skipTrivia hg _)
        ((ht.notBefore _).mono fun _ h => h ▸ by decide),
      hitem ht (.gap hg' (closed_cons (by decide) _))]
    cases hv : read t with
    | none => simp [hv]
    | some v => simp [hv, skipTrivia_gap hg', skipTrivia_eq_self hclose]
  | @comma g x g' y t items hg ht hg' hitems ih =>
    obtain ⟨rounds, rfl⟩ := Nat.exists_eq_add_one_of_ne_zero (Nat.ne_zero_of_lt hrounds)
    have hcomma : NotBefore inGap (',' :: (y ++ ']' :: rest)) :=
      notBefore_cons.mpr (by unfold inGap; decide)
    have hlength : y.length < rounds := by
      simp only [List.length_append, List.length_cons] at hrounds
      omega
    rw [List.append_assoc, List.append_assoc, List.append_assoc, List.cons_append,
      itemsFrom_item item rounds found (ht.skipTrivia hg _)
        ((ht.notBefore _).mono fun _ h => h ▸ by decide),
      hitem ht (.gap hg' (closed_cons (by decide) _))]
    cases hv : read t with
    | none => simp [hv]
    | some v =>
      simp only [Option.map_some, skipTrivia_gap hg', skipTrivia_eq_self hcomma, ih hlength]
      cases hvs : items.mapM read <;> simp [hv, hvs]

theorem assignmentOf_append {entry : List String × Term} {x b rest : List Char}
    (h : AssignmentText Spelled entry x) (hb : Blank b) (hrest : Closed rest) :
    assignmentOf item (b ++ (x ++ rest)) =
      (readEntry read entry).map fun entry => (entry, rest) := by
  obtain ⟨hpath, hb', ht⟩ := h
  rename_i path t x b' y
  have hequals : skipSpaces ('=' :: (b' ++ (y ++ rest))) = '=' :: (b' ++ (y ++ rest)) :=
    skipSpaces_eq_self (notBefore_cons.mpr (by decide))
  rw [assignmentOf, List.append_assoc, List.cons_append, List.append_assoc,
    keyPath_append hpath (notBefore_cons.mpr (by unfold goesOnPath; decide)) hb, readEntry]
  split
  · simp only [Option.bind_eq_bind, Option.bind_some, hequals, expect_cons, ht.skipSpaces hb',
      hitem ht hrest]
    cases read t <;> rfl
  · rfl

theorem inlineFrom_append {entries : List (List String × Term)} {y rest : List Char}
    (h : EntriesText Spelled entries y) {rounds : Nat} (hrounds : y.length < rounds)
    (found : List (List String × Value)) :
    inlineFrom item rounds found (y ++ '\x7d' :: rest) =
      (entries.mapM (readEntry read)).bind fun entries =>
        (tableOf (found.reverse ++ entries)).map fun entries => (.table entries, rest) := by
  have hclose : NotBefore (isSpace ·) ('\x7d' :: rest) := notBefore_cons.mpr (by decide)
  induction h generalizing rounds found with
  | @last b x b' entry hb h hb' =>
    obtain ⟨rounds, rfl⟩ := Nat.exists_eq_add_one_of_ne_zero (Nat.ne_zero_of_lt hrounds)
    rw [inlineFrom, List.append_assoc, List.append_assoc,
      assignmentOf_append hitem h hb (.blank hb' (closed_cons (by decide) _))]
    cases hv : readEntry read entry with
    | none => simp [hv]
    | some v => simp [hv, skipSpaces_append hb', skipSpaces_eq_self hclose]
  | @comma b x b' y entry entries hb h hb' hentries ih =>
    obtain ⟨rounds, rfl⟩ := Nat.exists_eq_add_one_of_ne_zero (Nat.ne_zero_of_lt hrounds)
    have hcomma : NotBefore (isSpace ·) (',' :: (y ++ '\x7d' :: rest)) :=
      notBefore_cons.mpr (by decide)
    have hlength : y.length < rounds := by
      simp only [List.length_append, List.length_cons] at hrounds
      omega
    rw [inlineFrom, List.append_assoc, List.append_assoc, List.append_assoc, List.cons_append,
      assignmentOf_append hitem h hb (.blank hb' (closed_cons (by decide) _))]
    cases hv : readEntry read entry with
    | none => simp [hv]
    | some v =>
      simp only [Option.map_some, skipSpaces_append hb', skipSpaces_eq_self hcomma, ih hlength]
      cases hvs : entries.mapM (readEntry read) <;> simp [hv, hvs]

end Parts

/-! ## Values -/

theorem simple_bracket {c : Char} (hc : c = '[' ∨ c = '\x7b') (x : List Char) :
    simple (c :: x) = none := by
  have hdate : dateTime (c :: x) = none := by
    refine dateTime_none_of_notBefore (notBefore_cons.mpr ?_)
    obtain rfl | rfl := hc <;> decide
  have hsimple : simple (c :: x) = numeral (c :: x) := by
    obtain rfl | rfl := hc <;> rfl
  rw [hsimple, numeral, hdate]
  obtain rfl | rfl := hc <;> rfl

theorem valueWithin_scalar {v : Value} {x : List Char} (h : ScalarText v x) (depth : Nat)
    (rest : List Char) : valueWithin (depth + 1) (x ++ rest) = simple (x ++ rest) := by
  obtain ⟨c, y, rfl, hc⟩ := h.exists_cons
  have hbracket : ∀ d, opensScalar d → d ≠ '[' ∧ d ≠ '\x7b' := by
    rintro d hd
    constructor
    all_goals
      rintro rfl
      exact absurd hd (by unfold opensScalar opensNumeral; decide)
  rw [List.cons_append, valueWithin]
  · rintro z heq
    exact (hbracket c hc).1 (List.cons.inj heq).1
  · rintro z heq
    exact (hbracket c hc).2 (List.cons.inj heq).1

/-- **A value is read as it is written**, on every level. -/
theorem valueWithin_append (depth : Nat) {t : Term} {x rest : List Char} (h : Spelled t x)
    (hrest : Closed rest) :
    valueWithin depth (x ++ rest) = (t.read depth).map fun v => (v, rest) := by
  induction depth generalizing t x rest with
  | zero =>
    cases h with
    | scalar h => exact simple_append h hrest
    | array => exact simple_bracket (.inl rfl) _
    | empty => exact simple_bracket (.inr rfl) _
    | inline => exact simple_bracket (.inr rfl) _
  | succ depth ih =>
    cases h with
    | scalar h =>
      rw [valueWithin_scalar h, simple_append h hrest]
      rfl
    | @array items x h =>
      rw [List.cons_append, List.append_assoc, valueWithin]
      refine (itemsFrom_append ih h ?_ []).trans (by simp [Term.read]; rfl)
      rw [List.length_append]
      omega
    | @empty b hb =>
      have hclose : skipSpaces (b ++ '\x7d' :: rest) = '\x7d' :: rest :=
        (skipSpaces_append hb _).trans (skipSpaces_eq_self (notBefore_cons.mpr (by decide)))
      rw [List.cons_append, List.append_assoc, valueWithin]
      simp only [List.singleton_append, hclose]
      rfl
    | @inline entries x h =>
      obtain ⟨z, hz, ⟨c, w, rfl, hc⟩, hskip⟩ := h.skipSpaces
      have hbrace : ¬ opensKey '\x7d' := by unfold opensKey; decide
      rw [List.cons_append, List.append_assoc, valueWithin, hskip]
      split
      · next heq => exact absurd ((List.cons.inj heq).1 ▸ hc) hbrace
      · refine (inlineFrom_append ih hz ?_ []).trans
          (by simp [Term.read, Option.map_bind, Function.comp_def])
        rw [List.length_append]
        omega

/-! ## Lines -/

/-- What stands behind a statement and its remark: nothing, or the end of the line and more. -/
inductive LineTail : List Char → List Char → Prop where
  | nil : LineTail [] []
  | line {n : List Char} (hn : LineBreak n) (y : List Char) : LineTail (n ++ y) y

theorem LineTail.lineEnd {z y r : List Char} (h : LineTail z y) (hr : Remark r) :
    lineEnd (r ++ z) = some y := by
  cases h with
  | nil => exact lineEnd_append hr notBefore_nil
  | line hn => exact (lineEnd_append hr (hn.notBefore_plain _)).trans (lineBreak_append hn _)

theorem LineTail.closed {z y r : List Char} (h : LineTail z y) (hr : Remark r) :
    Closed (r ++ z) := by
  cases h with
  | nil => exact closed_nil.remark hr
  | line hn => exact (hn.closed _).remark hr

theorem statement_assignment {c : Char} (hc : opensKey c) (text : List Char) :
    statement (c :: text) = (assignmentOf value (c :: text)).bind fun found =>
      (lineEnd found.2).bind fun text => some (.assignment found.1.1 found.1.2, text) := by
  have hbracket : ¬ opensKey '[' := by unfold opensKey; decide
  rw [statement.eq_def]
  split
  · next heq => exact absurd ((List.cons.inj heq).1 ▸ hc) hbracket
  · next heq => exact absurd ((List.cons.inj heq).1 ▸ hc) hbracket
  · rfl

theorem statement_table {text : List Char} (h : NotBefore (· = '[') text) :
    statement ('[' :: text) = (keyPath text).bind fun found =>
      (expect ']' found.2).bind fun text =>
        (lineEnd text).bind fun text => some (.tableHeader found.1, text) := by
  rw [statement.eq_def]
  split
  · next heq =>
    obtain rfl := (List.cons.inj heq).2
    exact absurd rfl (h '[' rfl)
  · next heq =>
    obtain rfl := (List.cons.inj heq).2
    rfl
  · next hother => exact absurd rfl (hother _)

theorem PathText.notBefore_bracket {path : List String} {x b : List Char} (h : PathText path x)
    (hb : Blank b) (rest : List Char) : NotBefore (· = '[') (b ++ (x ++ rest)) := by
  refine .append (fun c hc => ?_) ?_
  · rintro rfl
    exact absurd (hb _ hc) (by decide)
  · obtain ⟨c, y, rfl, hc⟩ := h.exists_cons
    refine notBefore_cons.mpr ?_
    rintro rfl
    exact absurd hc (by unfold opensKey; decide)

theorem statement_append {line : Line Term} {x r z y : List Char} (h : LineText line x)
    (hr : Remark r) (hz : LineTail z y) :
    statement (x ++ (r ++ z)) = line.read.map fun s => (s, y) := by
  have hpath : ∀ {path : List String} {x b : List Char} (w : List Char), PathText path x →
      Blank b → keyPath (b ++ (x ++ ']' :: w)) =
        if path.length < maxDepth then some (path, ']' :: w) else none := fun w h hb =>
    keyPath_append h (notBefore_cons.mpr (by unfold goesOnPath; decide)) hb
  cases h with
  | @table path b x hb h =>
    rw [List.cons_append, List.append_assoc, List.append_assoc, List.singleton_append,
      statement_table (h.notBefore_bracket hb _), hpath _ h hb, Line.read]
    split
    · simp [expect_cons, hz.lineEnd hr]
    · rfl
  | @element path b x hb h =>
    have hstatement : ∀ text, statement ('[' :: '[' :: text) = (keyPath text).bind fun found =>
        (expect ']' found.2).bind fun text => (expect ']' text).bind fun text =>
          (lineEnd text).bind fun text => some (.elementHeader found.1, text) := fun _ => rfl
    rw [List.cons_append, List.cons_append, List.append_assoc, List.append_assoc,
      List.cons_append, List.singleton_append, hstatement, hpath _ h hb, Line.read]
    split
    · simp [expect_cons, hz.lineEnd hr]
    · rfl
  | @assignment path t x h =>
    have hread := assignmentOf_append (valueWithin_append (maxDepth - 1)) h blank_nil (hz.closed hr)
    obtain ⟨c, x, rfl, hc⟩ := h.exists_cons
    rw [List.nil_append, List.cons_append] at hread
    rw [List.cons_append, statement_assignment hc, value, hread, Line.read]
    cases hentry : readEntry (Term.read (maxDepth - 1)) (path, t) with
    | none => rfl
    | some entry => simp [hz.lineEnd hr]

theorem LineText.exists_cons {line : Line Term} {x : List Char} (h : LineText line x) :
    ∃ c y, x = c :: y ∧ (opensKey c ∨ c = '[') := by
  cases h with
  | table => exact ⟨_, _, rfl, .inr rfl⟩
  | element => exact ⟨_, _, rfl, .inr rfl⟩
  | assignment h =>
    obtain ⟨c, y, rfl, hc⟩ := h.exists_cons
    exact ⟨c, y, rfl, .inl hc⟩

/-! ## Files -/

section Statements

variable {text rest : List Char} (rounds : Nat) (found : List Statement)

theorem statementsFrom_end (h : skipSpaces text = []) :
    statementsFrom (rounds + 1) found text = some found.reverse := by
  simp only [statementsFrom, h]

theorem lineEnd_skipSpaces (text : List Char) : lineEnd (skipSpaces text) = lineEnd text := by
  rw [lineEnd, lineEnd, skipSpaces, skipSpaces, List.dropWhile_idempotent]

theorem statementsFrom_skip (h : skipSpaces text ≠ []) (hend : lineEnd text = some rest) :
    statementsFrom (rounds + 1) found text = statementsFrom rounds found rest := by
  rw [statementsFrom]
  split
  · next hnil => exact absurd hnil h
  · rw [lineEnd_skipSpaces, hend]

/-- A character that a line begins with is neither a blank nor part of a remark. -/
theorem lineEnd_none {c : Char} (hc : opensKey c ∨ c = '[') :
    ¬ isSpace c ∧ lineEnd (c :: text) = none := by
  have hother : ∀ d, (opensKey d ∨ d = '[') → d ∉ [' ', '\t', '\n', '\r', '#'] := by
    rintro d hd hmem
    simp only [List.mem_cons, List.not_mem_nil, or_false] at hmem
    obtain rfl | rfl | rfl | rfl | rfl := hmem
    all_goals exact absurd hd (by unfold opensKey; decide)
  obtain ⟨hblank, htab, hlf, hcr, hhash⟩ : c ≠ ' ' ∧ c ≠ '\t' ∧ c ≠ '\n' ∧ c ≠ '\r' ∧ c ≠ '#' := by
    simpa [not_or] using hother c hc
  have hspace : ¬ isSpace c := by simp [isSpace, hblank, htab]
  refine ⟨hspace, ?_⟩
  rw [lineEnd, skipSpaces_eq_self (notBefore_cons.mpr hspace)]
  simp [lineBreak, hlf, hcr, hhash]

theorem statementsFrom_statement {c : Char} {b : List Char} (hb : Blank b)
    (hc : opensKey c ∨ c = '[') :
    statementsFrom (rounds + 1) found (b ++ c :: text) =
      (statement (c :: text)).bind fun next => statementsFrom rounds (next.1 :: found) next.2 := by
  obtain ⟨hspace, hend⟩ : ¬ isSpace c ∧ lineEnd (c :: text) = none := lineEnd_none hc
  have hskip : skipSpaces (b ++ c :: text) = c :: text :=
    (skipSpaces_append hb _).trans (skipSpaces_eq_self (notBefore_cons.mpr hspace))
  rw [statementsFrom, hskip]
  simp only [hend]
  cases statement (c :: text) <;> rfl

end Statements

theorem skipSpaces_lineBreak {r n : List Char} (hn : LineBreak n) (y : List Char) :
    skipSpaces (r ++ (n ++ y)) ≠ [] := by
  intro h
  have hlf : '\n' ∈ r ++ (n ++ y) := by cases hn <;> simp
  exact absurd (List.dropWhile_eq_nil_iff.mp h _ hlf) (by decide)

/-- **Lines are read as they are written**, as long as there are rounds left for each. -/
theorem statementsFrom_append {lines : List (Line Term)} {x : List Char} (h : LinesText lines x)
    {rounds : Nat} (hrounds : x.length < rounds) (found : List Statement) :
    statementsFrom rounds found x =
      (lines.mapM Line.read).map fun statements => found.reverse ++ statements := by
  obtain ⟨rounds, rfl⟩ := Nat.exists_eq_add_one_of_ne_zero (Nat.ne_zero_of_lt hrounds)
  induction h generalizing rounds found with
  | @none r hr =>
    by_cases hblank : skipSpaces r = []
    · rw [statementsFrom_end rounds found hblank]
      simp
    · have hend : lineEnd r = some [] := by simpa using LineTail.nil.lineEnd hr
      have hne : r ≠ [] := fun h => hblank (by rw [h]; rfl)
      have hpos : 0 < r.length := List.length_pos_of_ne_nil hne
      obtain ⟨rounds, rfl⟩ : ∃ k, rounds = k + 1 := ⟨rounds - 1, by omega⟩
      rw [statementsFrom_skip _ found hblank hend, statementsFrom_end _ found rfl]
      simp
  | @skip r n y lines hr hn hlines ih =>
    have hpos : 0 < n.length := by cases hn <;> simp
    simp only [List.length_append] at hrounds
    obtain ⟨rounds, rfl⟩ : ∃ k, rounds = k + 1 := ⟨rounds - 1, by omega⟩
    rw [statementsFrom_skip _ found (skipSpaces_lineBreak hn y) ((LineTail.line hn y).lineEnd hr)]
    exact ih found rounds (by omega)
  | @last b x r line hb hline hr =>
    have hread := statement_append hline hr .nil
    obtain ⟨c, x, rfl, hc⟩ := hline.exists_cons
    simp only [List.length_append, List.length_cons] at hrounds
    obtain ⟨rounds, rfl⟩ : ∃ k, rounds = k + 1 := ⟨rounds - 1, by omega⟩
    rw [List.append_nil, List.cons_append] at hread
    rw [List.cons_append, statementsFrom_statement _ found hb hc, hread]
    cases hs : line.read with
    | none => simp [hs]
    | some s =>
      rw [Option.map_some, Option.bind_some, statementsFrom_end _ _ rfl]
      simp [hs]
  | @line b x r n y line lines hb hline hr hn hlines ih =>
    have hread := statement_append hline hr (.line hn y)
    obtain ⟨c, x, rfl, hc⟩ := hline.exists_cons
    simp only [List.length_append, List.length_cons] at hrounds
    obtain ⟨rounds, rfl⟩ : ∃ k, rounds = k + 1 := ⟨rounds - 1, by omega⟩
    rw [List.cons_append] at hread
    rw [List.cons_append, statementsFrom_statement _ found hb hc, hread]
    cases hs : line.read with
    | none => simp [hs]
    | some s =>
      rw [Option.map_some, Option.bind_some, ih (s :: found) rounds (by omega)]
      cases hlines : lines.mapM Line.read <;> simp [hs, hlines]

/-- No line begins with a byte order mark. -/
theorem LinesText.notBefore_mark {lines : List (Line Term)} {x : List Char} (h : LinesText lines x) :
    NotBefore (· = '\ufeff') x := by
  have hblank : ∀ {b rest : List Char}, Blank b → NotBefore (· = '\ufeff') rest →
      NotBefore (· = '\ufeff') (b ++ rest) := fun hb hrest =>
    .append (fun c hc => by rintro rfl; exact absurd (hb _ hc) (by decide)) hrest
  have hremark : ∀ {r rest : List Char}, Remark r → NotBefore (· = '\ufeff') rest →
      NotBefore (· = '\ufeff') (r ++ rest) := fun hr hrest => by
    cases hr with
    | blank hb => exact hblank hb hrest
    | comment hb =>
      rw [List.append_assoc]
      exact hblank hb (notBefore_cons.mpr (by decide))
  have hline : ∀ {line : Line Term} {b x : List Char}, Blank b → LineText line x → ∀ rest,
      NotBefore (· = '\ufeff') (b ++ (x ++ rest)) := fun hb hline rest => by
    obtain ⟨c, x, rfl, hc⟩ := hline.exists_cons
    refine hblank hb (notBefore_cons.mpr ?_)
    rintro rfl
    exact absurd hc (by unfold opensKey; decide)
  cases h with
  | none hr => exact List.append_nil x ▸ hremark hr notBefore_nil
  | skip hr hn =>
    refine hremark hr ?_
    cases hn <;> exact notBefore_cons.mpr (by decide)
  | last hb h => exact hline hb h _
  | line hb h => exact hline hb h _

/-- **A file is read as it is written**: it stands for what its lines stand for. -/
theorem parse_eq {lines : List (Line Term)} {text : List Char} (h : FileText lines text) :
    parse (String.ofList text) = readFile lines := by
  have hlines : ∀ {x : List Char}, LinesText lines x →
      statementsFrom (x.length + 1) [] x = lines.mapM Line.read := fun h => by
    rw [statementsFrom_append h (Nat.lt_succ_self _) []]
    simp
  have hstatements : statements text = lines.mapM Line.read := by
    cases h with
    | marked h => exact hlines h
    | plain h =>
      rw [statements.eq_def]
      split
      · exact absurd rfl (h.notBefore_mark _ rfl)
      · exact hlines h
  rw [parse, String.toList_ofList, hstatements, readFile]

end DeflateEcho.Toml
