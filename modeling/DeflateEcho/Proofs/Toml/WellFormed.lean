import Mathlib
import DeflateEcho.Proofs.Toml.Causes
import DeflateEcho.Proofs.Toml.Parsing

/-!
# Proofs/Toml/WellFormed — well-formed files give a table

A file is well-formed if its lines go together, and the assignments in each of its inline tables do.
Within the limits on levels and keys, that is all it takes (`exists_readFile`).  Conversely, a file
that gives a table at all is one whose lines go together, and the table is what the lines say, at
each address: `Grows`.
-/

namespace DeflateEcho.Toml

/-! ## Well-formed, and within the limits -/

/-- The assignments of an inline table, as the lines of a file of its own. -/
def inlineLines {α : Type} (entries : List (List String × α)) : List (Line α) :=
  entries.map fun entry => .assignment entry.1 entry.2

theorem element_notMem_inlineLines {α : Type} (entries : List (List String × α))
    (path : List String) : .element path ∉ inlineLines entries := by simp [inlineLines]

theorem headed_of_mem_inlineLines {α : Type} {entries : List (List String × α)} {line : Line α}
    (h : line ∈ inlineLines entries) : line.headed = none := by
  obtain ⟨entry, -, rfl⟩ := List.mem_map.mp h
  rfl

theorem directFrom_inlineLines {α : Type} (entries : List (List String × α)) :
    directFrom [] (inlineLines entries) = entries := by
  induction entries with
  | nil => rfl
  | cons entry entries ih => exact congrArg (entry :: ·) ih

/-- **A value is well-formed** if in each inline table of it the assignments go together. -/
inductive Term.WellFormed : Term → Prop where
  | scalar (v : Value) : WellFormed (.scalar v)
  | array {items : List Term} (h : ∀ t ∈ items, WellFormed t) : WellFormed (.array items)
  | inline {entries : List (List String × Term)} (h : ∀ entry ∈ entries, WellFormed entry.2)
    (hlines : Consistent (inlineLines entries)) : WellFormed (.inline entries)

/-- Arrays and inline tables nest at most so deep in a value, and no dotted key in it reaches the
limit. -/
def Term.Within : (depth : Nat) → Term → Prop
  | _, .scalar _ => True
  | 0, _ => False
  | depth + 1, .array items => ∀ t ∈ items, t.Within depth
  | depth + 1, .inline entries => ∀ entry ∈ entries,
    entry.1.length < maxDepth ∧ entry.2.Within depth

/-- The keys and the value of a line keep to the limits. -/
def Line.Within : Line Term → Prop
  | .table path => path.length < maxDepth
  | .element path => path.length < maxDepth
  | .assignment path t => path.length < maxDepth ∧ t.Within (maxDepth - 1)

/-- **A file is well-formed** if its lines go together and the values in them are well-formed. -/
structure WellFormed (lines : List (Line Term)) : Prop where
  consistent : Consistent lines
  terms : ∀ path t, .assignment path t ∈ lines → t.WellFormed

/-! ## The table that lines give -/

/-- **A table holds what lines say**: no key twice, and at each address what stands there in the
end, the contents read as values. -/
structure Grows {α : Type} (read : α → Value) (lines : List (Line α)) (entries : Entries) :
    Prop where
  consistent : Consistent lines
  distinct : entries.Distinct
  places : ∀ a, (life a lines).map (Place.map read) = some (view (some (.table .header entries)) a)

theorem grows_of_foldlM {α : Type} {read : α → Value} {lines : List (Line α)}
    {statements : List Statement} (hlines : statements.map Statement.line = lines.map (Line.map read))
    {d : Document} (hd : statements.foldlM Document.add {} = some d) :
    Grows read lines d.entries := by
  have hconsistent : Consistent lines := by
    rw [← consistent_map read, ← hlines, consistent_iff, Document.ofStatements, hd]
    simp
  have hdistinct : d.entries.Distinct :=
    SatisfiesM_Option_eq.mp (growing_distinct.statements fun _ _ _ v _ => .value v) d hd
  refine ⟨hconsistent, hdistinct, fun a => ?_⟩
  rw [← life_map, ← hlines]
  exact (life_statements statements).1 d hd a

/-! ## What stands at its addresses -/

theorem keys_entryValues (entries : Entries) :
    (Node.entryValues entries).map (·.1) = entries.keys := by
  induction entries with
  | nil => rfl
  | cons entry entries ih => exact congrArg (entry.1 :: ·) ih

theorem lookup_entryValues (entries : Entries) (key : String) :
    (Node.entryValues entries).lookup key = (entries.find? key).map Node.toValue := by
  induction entries with
  | nil => rfl
  | cons entry entries ih =>
    rw [Node.entryValues, List.lookup_cons, Entries.find?_cons]
    by_cases hkey : key = entry.1
    · simp [hkey]
    · rw [if_neg hkey, beq_false_of_ne hkey]
      exact ih

section Kinds

variable {node? : Option Node}

theorem eq_none_of_view (h : view node? [] = .vacant) : node? = none := by
  rcases node? with _ | v | ⟨origin, entries⟩ | elements
  · rfl
  all_goals cases h

theorem eq_value_of_view {v : Value} (h : view node? [] = .value v) : node? = some (.value v) := by
  rcases node? with _ | w | ⟨origin, entries⟩ | elements
  · cases h
  · cases h
    rfl
  all_goals cases h

theorem eq_table_of_view {origin : Origin} (h : view node? [] = .table origin) :
    ∃ entries, node? = some (.table origin entries) := by
  rcases node? with _ | w | ⟨o, entries⟩ | elements
  · cases h
  · cases h
  · cases h
    exact ⟨entries, rfl⟩
  · cases h

theorem eq_tables_of_view {n : Nat} (h : view node? [] = .tables (n + 1)) :
    ∃ last earlier, node? = some (.tables (last :: earlier)) := by
  rcases node? with _ | w | ⟨o, entries⟩ | _ | ⟨last, earlier⟩
  all_goals cases h
  exact ⟨last, earlier, rfl⟩

end Kinds

/-- A table has at a key the value that stands there. -/
theorem lookup_of_view {entries : Entries} {key : String} {v? : Option Value}
    (h : view (entries.find? key) [] = v?.elim .vacant .value) :
    (Node.entryValues entries).lookup key = v? := by
  rw [lookup_entryValues]
  cases v? with
  | none => rw [eq_none_of_view h, Option.map_none]
  | some v =>
    rw [eq_value_of_view h]
    rfl

section Lives

variable {α : Type} {read : α → Value} {lines : List (Line α)} {entries : Entries}
  (h : Grows read lines entries)
include h

/-- What stands at a key of the table tells what the lines did there. -/
theorem Grows.told_top (key : String) :
    ∃ place, Told (eventsFrom [] lines [key]) place ∧
      view (entries.find? key) [] = place.map read := by
  obtain ⟨place, hlife, htold⟩ := h.consistent.told_top key
  have hplace := h.places [key]
  rw [hlife, view_cons rfl] at hplace
  exact ⟨place, htold, (Option.some.inj hplace).symm⟩

/-- **Where nothing but values is given**, there is the value that is given, if there is one. -/
theorem Grows.view_of_given {a : List String} (ha : a ≠ [])
    (hlists : ∀ path, path ≠ [] → path <+: a → path ≠ a → .element path ∉ lines)
    (hall : ∀ event ∈ eventsFrom [] lines a, event.given? ≠ none) {a? : Option α}
    (hgiven : valuesAt a (directFrom [] lines) = a?.toList) :
    view (some (.table .header entries)) a = (a?.map read).elim .vacant .value := by
  obtain ⟨place, hlife, htold⟩ := h.consistent.told ha hlists
  have hplace := h.places a
  rw [hlife, htold.eq_of_given hall ((eventsFrom_given _ _ _).trans hgiven)] at hplace
  rw [← Option.some.inj hplace]
  cases a? <;> rfl

end Lives

/-- The value of a list of tables is an array, and a table comes first. -/
theorem exists_toValue_tables (last : Entries) (earlier : List Entries) :
    ∃ values items, (Node.tables (last :: earlier)).toValue = .array (.table values :: items) := by
  have htable : ∀ (elements : List Entries), ∀ v ∈ Node.tableValues elements,
      ∃ values, v = .table values := fun elements => by
    induction elements with
    | nil => simp [Node.tableValues]
    | cons entries elements ih => exact List.forall_mem_cons.mpr ⟨⟨_, rfl⟩, ih⟩
  have hne : (Node.tableValues (last :: earlier)).reverse ≠ [] := by simp [Node.tableValues]
  obtain ⟨v, items, heq⟩ := List.exists_cons_of_ne_nil hne
  obtain ⟨values, rfl⟩ := htable (last :: earlier) v (List.mem_reverse.mp (heq ▸ List.mem_cons_self))
  exact ⟨values, items, by rw [Node.toValue, heq]⟩

/-! ## What is read -/

/-- The value of a term; a date stands in where there is none. -/
def Term.value (depth : Nat) (t : Term) : Value := (t.read depth).getD .dateTime

theorem Term.value_scalar (depth : Nat) (v : Value) : (Term.scalar v).value depth = v := by
  cases depth <;> rfl

theorem Term.value_eq {depth : Nat} {t : Term} {v : Value} (h : t.read depth = some v) :
    t.value depth = v := by rw [Term.value, h, Option.getD_some]

/-- The statement that a line is. -/
def Line.statement : Line Value → Statement
  | .table path => .tableHeader path
  | .element path => .elementHeader path
  | .assignment path v => .assignment path v

theorem Line.line_statement (line : Line Value) : line.statement.line = line := by cases line <;> rfl

section Missing

variable {α β : Type} {f : α → Option β} {g : α → β} {l : List α}

theorem mapM_eq_some (h : ∀ a ∈ l, f a = some (g a)) : l.mapM f = some (l.map g) := by
  induction l with
  | nil => rfl
  | cons a l ih =>
    obtain ⟨ha, hl⟩ := List.forall_mem_cons.mp h
    simp [List.mapM_cons, ha, ih hl]

theorem of_mapM (hg : ∀ a b, f a = some b → b = g a) {bs : List β} (h : l.mapM f = some bs) :
    bs = l.map g ∧ ∀ a ∈ l, f a = some (g a) := by
  induction l generalizing bs with
  | nil => exact ⟨(Option.some.inj h).symm, by simp⟩
  | cons a l ih =>
    rw [List.mapM_cons] at h
    obtain ⟨b, hb, hrest⟩ := Option.bind_eq_some_iff.mp h
    obtain ⟨bs', hbs, hresult⟩ := Option.bind_eq_some_iff.mp hrest
    obtain rfl := hg a b hb
    obtain ⟨rfl, hall⟩ := ih hbs
    exact ⟨(Option.some.inj hresult).symm, List.forall_mem_cons.mpr ⟨hb, hall⟩⟩

end Missing

section Entries

variable {depth : Nat}

theorem readEntry_eq {entry : List String × Term} {v : Value} (hkeys : entry.1.length < maxDepth)
    (h : entry.2.read depth = some v) :
    readEntry (Term.read depth) entry = some (entry.1, entry.2.value depth) := by
  rw [readEntry, if_pos hkeys, h, Term.value_eq h]
  rfl

theorem of_readEntry {entry : List String × Term} {result : List String × Value}
    (h : readEntry (Term.read depth) entry = some result) :
    result = (entry.1, entry.2.value depth) ∧ ∃ v, entry.2.read depth = some v := by
  rw [readEntry] at h
  split at h
  · obtain ⟨v, hv, rfl⟩ := Option.map_eq_some_iff.mp h
    exact ⟨by rw [Term.value_eq hv], v, hv⟩
  · cases h

/-- The table of assignments, as the table of a file. -/
theorem tableOf_eq (entries : List (List String × Term)) :
    tableOf (entries.map fun entry => (entry.1, entry.2.value depth)) =
      Document.ofStatements
        (((inlineLines entries).map (Line.map (Term.value depth))).map Line.statement) := by
  rw [tableOf]
  simp [inlineLines, Function.comp_def, Line.map, Line.statement]

end Entries

theorem map_line_statement (lines : List (Line Value)) :
    (lines.map Line.statement).map Statement.line = lines := by
  simp [Function.comp_def, Line.line_statement]

/-- Lines that go together give a table, whatever the contents are. -/
theorem Consistent.exists_table {α : Type} {lines : List (Line α)} (h : Consistent lines)
    (read : α → Value) :
    ∃ table, Document.ofStatements ((lines.map (Line.map read)).map Line.statement) = some table :=
  Option.ne_none_iff_exists'.mp <| (consistent_iff _).mp <|
    (map_line_statement _).symm ▸ (consistent_map read lines).mpr h

/-- Whether lines go together can be tried out. -/
theorem consistent_iff_ofStatements {α : Type} (lines : List (Line α)) :
    Consistent lines ↔ Document.ofStatements
      ((lines.map (Line.map fun _ => .dateTime)).map Line.statement) ≠ none := by
  rw [← consistent_iff, map_line_statement, consistent_map]

instance {α : Type} (lines : List (Line α)) : Decidable (Consistent lines) :=
  decidable_of_iff _ (consistent_iff_ofStatements lines).symm

/-- **What is well-formed and within the limits has a value.** -/
theorem Term.WellFormed.exists_read {t : Term} (h : t.WellFormed) {depth : Nat}
    (hwithin : t.Within depth) : ∃ v, t.read depth = some v := by
  induction h generalizing depth with
  | scalar v => exact ⟨v, by cases depth <;> rfl⟩
  | @array items hitems ih =>
    cases depth with
    | zero => exact hwithin.elim
    | succ depth =>
      have hread : ∀ t ∈ items, t.read depth = some (t.value depth) := fun t ht => by
        obtain ⟨v, hv⟩ := ih t ht (hwithin t ht)
        rw [hv, Term.value_eq hv]
      exact ⟨_, by rw [Term.read, mapM_eq_some hread]; rfl⟩
  | @inline entries hentries hlines ih =>
    cases depth with
    | zero => exact hwithin.elim
    | succ depth =>
      have hread : ∀ entry ∈ entries, readEntry (Term.read depth) entry =
          some (entry.1, entry.2.value depth) := fun entry hentry => by
        obtain ⟨v, hv⟩ := ih entry hentry (hwithin entry hentry).2
        exact readEntry_eq (hwithin entry hentry).1 hv
      obtain ⟨table, htable⟩ := hlines.exists_table (Term.value depth)
      exact ⟨_, by rw [Term.read, mapM_eq_some hread, Option.bind_some, tableOf_eq, htable]; rfl⟩

theorem line_statement_map {α : Type} (read : α → Value) (lines : List (Line α)) :
    (lines.map fun line => (line.map read).statement).map Statement.line =
      lines.map (Line.map read) := by
  simp [Function.comp_def, Line.line_statement]

/-- An inline table that is read is a file of its own. -/
theorem Term.exists_document {depth : Nat} {entries : List (List String × Term)} {v : Value}
    (h : (Term.inline entries).read depth = some v) :
    ∃ below d, ((inlineLines entries).map fun line =>
        (line.map (Term.value below)).statement).foldlM Document.add {} = some d ∧
      v = .table (Node.entryValues d.entries) ∧
      ∀ entry ∈ entries, ∃ v, entry.2.read below = some v := by
  cases depth with
  | zero => cases h
  | succ below =>
    obtain ⟨pairs, hpairs, hmap⟩ := Option.bind_eq_some_iff.mp h
    obtain ⟨values, hvalues, rfl⟩ := Option.map_eq_some_iff.mp hmap
    obtain ⟨rfl, hall⟩ := of_mapM (fun entry pair h => (of_readEntry h).1) hpairs
    rw [tableOf_eq, List.map_map] at hvalues
    obtain ⟨d, hd, rfl⟩ := Option.map_eq_some_iff.mp hvalues
    exact ⟨below, d, hd, rfl, fun entry hentry => (of_readEntry (hall entry hentry)).2⟩

/-- **The table of an inline table that is read** is what its assignments say. -/
theorem Term.read_inline {depth : Nat} {entries : List (List String × Term)} {v : Value}
    (h : (Term.inline entries).read depth = some v) :
    ∃ below table, Grows (Term.value below) (inlineLines entries) table ∧
      v = .table (Node.entryValues table) ∧
      ∀ entry ∈ entries, ∃ v, entry.2.read below = some v := by
  obtain ⟨below, d, hd, hv, hall⟩ := exists_document h
  exact ⟨below, d.entries, grows_of_foldlM (line_statement_map _ _) hd, hv, hall⟩

theorem of_lineRead {line : Line Term} {s : Statement} (h : line.read = some s) :
    s = (line.map (Term.value (maxDepth - 1))).statement := by
  cases line with
  | table path =>
    rw [Line.read] at h
    split at h
    · exact (Option.some.inj h).symm
    · cases h
  | element path =>
    rw [Line.read] at h
    split at h
    · exact (Option.some.inj h).symm
    · cases h
  | assignment path t =>
    obtain ⟨entry, hentry, rfl⟩ := Option.map_eq_some_iff.mp h
    obtain ⟨rfl, -⟩ := of_readEntry hentry
    rfl

/-- **A well-formed file within the limits gives a table.** -/
theorem exists_readFile {lines : List (Line Term)} (h : WellFormed lines)
    (hwithin : ∀ line ∈ lines, line.Within) : ∃ table, readFile lines = some table := by
  have hread : ∀ line ∈ lines,
      line.read = some (line.map (Term.value (maxDepth - 1))).statement := fun line hline => by
    have hlimits := hwithin line hline
    cases line with
    | table path => exact if_pos hlimits
    | element path => exact if_pos hlimits
    | assignment path t =>
      obtain ⟨v, hv⟩ := (h.terms path t hline).exists_read hlimits.2
      rw [Line.read, readEntry_eq hlimits.1 hv]
      rfl
  obtain ⟨table, htable⟩ := h.consistent.exists_table (Term.value (maxDepth - 1))
  rw [List.map_map] at htable
  exact ⟨table, by rw [readFile, mapM_eq_some hread]; exact htable⟩

/-- A file that gives a table is carried out, statement by statement. -/
theorem exists_document_of_readFile {lines : List (Line Term)} {table : List (String × Value)}
    (h : readFile lines = some table) :
    ∃ d, (lines.map fun line => (line.map (Term.value (maxDepth - 1))).statement).foldlM
        Document.add {} = some d ∧
      table = Node.entryValues d.entries ∧
      ∀ path t, .assignment path t ∈ lines → ∃ v, t.read (maxDepth - 1) = some v := by
  obtain ⟨statements, hstatements, htable⟩ := Option.bind_eq_some_iff.mp h
  obtain ⟨rfl, hall⟩ := of_mapM (fun line s h => of_lineRead h) hstatements
  obtain ⟨d, hd, rfl⟩ := Option.map_eq_some_iff.mp htable
  refine ⟨d, hd, rfl, fun path t hmem => ?_⟩
  obtain ⟨entry, hentry, -⟩ := Option.map_eq_some_iff.mp (hall _ hmem)
  exact (of_readEntry hentry).2

/-- **A file that gives a table** gives what its lines say. -/
theorem grows_of_readFile {lines : List (Line Term)} {table : List (String × Value)}
    (h : readFile lines = some table) :
    ∃ entries, Grows (Term.value (maxDepth - 1)) lines entries ∧
      table = Node.entryValues entries ∧
      ∀ path t, .assignment path t ∈ lines → ∃ v, t.read (maxDepth - 1) = some v := by
  obtain ⟨d, hd, htable, hread⟩ := exists_document_of_readFile h
  exact ⟨d.entries, grows_of_foldlM (line_statement_map _ _) hd, htable, hread⟩

end DeflateEcho.Toml
