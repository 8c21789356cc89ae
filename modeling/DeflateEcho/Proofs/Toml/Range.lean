import Mathlib
import DeflateEcho.Proofs.Toml.Growth
import DeflateEcho.Toml.Syntax

/-!
# Proofs/Toml/Range — the whole numbers in a file fit into 64 bits

A number enters a file only through `signed64`, which checks its range, and nothing that happens to a
value afterwards changes the numbers in it: values are put together in arrays and inline tables, and
tables grow statement by statement, which keeps what all values in them have in common.  So all
whole numbers of a file are in range (`fits_of_parse`).

A scanner may find nothing; what it keeps is said of what it gives, with `SatisfiesM`.
-/

namespace DeflateEcho.Toml

/-! ## What may be missing -/

section Missing

variable {α : Type} {p : α → Prop}

theorem satisfiesM_or {first second : Option α} (hfirst : SatisfiesM p first)
    (hsecond : SatisfiesM p second) : SatisfiesM p (first.or second) := by
  cases first with
  | none => exact hsecond
  | some a => exact hfirst

end Missing

/-! ## Values -/

/-- **All whole numbers in a value fit into 64 bits**, with a sign. -/
inductive Value.Fits : Value → Prop where
  | string (text : String) : Fits (.string text)
  | integer {n : Int} (h : -2 ^ 63 ≤ n ∧ n < 2 ^ 63) : Fits (.integer n)
  | float (x : Number.Binary64) : Fits (.float x)
  | boolean (b : Bool) : Fits (.boolean b)
  | dateTime : Fits .dateTime
  | array {items : List Value} (h : ∀ v ∈ items, Fits v) : Fits (.array items)
  | table {entries : List (String × Value)} (h : ∀ entry ∈ entries, Fits entry.2) :
    Fits (.table entries)

/-! ## Tables that grow -/

/-- What stands at a key fits, all the way down. -/
inductive Node.Fits : Node → Prop where
  | value {v : Value} (h : v.Fits) : Fits (.value v)
  | table {origin : Origin} {entries : Entries} (h : ∀ entry ∈ entries, Fits entry.2) :
    Fits (.table origin entries)
  | tables {elements : List Entries}
    (h : ∀ entries ∈ elements, ∀ entry ∈ entries, Fits entry.2) : Fits (.tables elements)

/-- Everything in a table fits. -/
def Entries.Fit (entries : Entries) : Prop := ∀ entry ∈ entries, entry.2.Fits

theorem growing_fits : Growing Node.Fits Entries.Fit where
  nil := by simp [Entries.Fit]
  find hentries hfind := hentries _ (Entries.mem_of_find? hfind)
  put key hentries hnode entry hentry := by
    obtain rfl | hentry := Entries.mem_put hentry
    · exact hnode
    · exact hentries entry hentry
  putLast key hentries hnode entry hentry := by
    obtain rfl | hentry := Entries.mem_putLast hentry
    · exact hnode
    · exact hentries entry hentry
  table := ⟨fun | .table h => h, .table⟩
  tables := ⟨fun | .tables h => h, .tables⟩

/-! ## Statements -/

/-- The values in a statement fit. -/
def Statement.Fits : Statement → Prop
  | .assignment _ v => v.Fits
  | _ => True

theorem fits_entryValues {entries : Entries} (h : ∀ entry ∈ entries, entry.2.toValue.Fits) :
    ∀ entry ∈ Node.entryValues entries, entry.2.Fits := by
  induction entries with
  | nil => simp [Node.entryValues]
  | cons entry entries ih =>
    obtain ⟨hentry, hentries⟩ := List.forall_mem_cons.mp h
    rw [Node.entryValues]
    exact List.forall_mem_cons.mpr ⟨hentry, ih hentries⟩

theorem fits_tableValues {elements : List Entries}
    (h : ∀ entries ∈ elements, ∀ entry ∈ entries, entry.2.toValue.Fits) :
    ∀ v ∈ Node.tableValues elements, v.Fits := by
  induction elements with
  | nil => simp [Node.tableValues]
  | cons entries elements ih =>
    obtain ⟨hentries, helements⟩ := List.forall_mem_cons.mp h
    rw [Node.tableValues]
    exact List.forall_mem_cons.mpr ⟨.table (fits_entryValues hentries), ih helements⟩

theorem Node.Fits.toValue {node : Node} (h : node.Fits) : node.toValue.Fits := by
  induction h with
  | value h => rwa [Node.toValue]
  | table _ ih =>
    rw [Node.toValue]
    exact .table (fits_entryValues ih)
  | tables _ ih =>
    rw [Node.toValue]
    exact .array fun v hv => fits_tableValues ih v (List.mem_reverse.mp hv)

/-- **The table that statements give fits if they do.** -/
theorem ofStatements_fits {statements : List Statement}
    (hstatements : ∀ s ∈ statements, s.Fits) :
    SatisfiesM (fun entries => ∀ entry ∈ entries, entry.2.Fits)
      (Document.ofStatements statements) := by
  have hgrown : SatisfiesM (fun d => d.entries.Fit) (statements.foldlM Document.add {}) :=
    growing_fits.statements fun s hs path v heq => by
      have hfits := hstatements s hs
      rw [heq] at hfits
      exact .value hfits
  exact .map hgrown fun hd => fits_entryValues fun entry hentry => (hd entry hentry).toValue

/-! ## Scanners -/

/-- A scanner that gives nothing but what has a property. -/
def Scanner.Gives {α : Type} (scanner : Scanner α) (p : α → Prop) : Prop :=
  ∀ text, SatisfiesM (fun found => p found.1) (scanner text)

theorem signed64_fits (n : Int) : SatisfiesM Value.Fits (signed64 n) := by
  unfold signed64
  split
  · next hrange => exact .pure (.integer hrange)
  · simp

theorem based_gives (base : Nat) : Scanner.Gives (whole.based base) Value.Fits := fun _ =>
  .bind .trivial fun _ _ => .bind (signed64_fits _) fun _ hv => .pure hv

theorem whole_gives : whole.Gives Value.Fits := by
  intro text
  unfold whole
  split
  · exact based_gives 16 _
  · exact based_gives 8 _
  · exact based_gives 2 _
  · exact .bind .trivial fun _ _ => .bind (signed64_fits _) fun _ hv => .pure hv

theorem dateTime_gives : dateTime.Gives Value.Fits := by
  intro text
  unfold dateTime
  split
  · exact .pure .dateTime
  · exact .map .trivial fun _ => .dateTime

theorem decimal_gives : decimal.Gives Value.Fits := fun _ =>
  .bind .trivial fun _ _ => .bind .trivial fun _ _ => .bind .trivial fun _ _ =>
    satisfiesM_unless (satisfiesM_unless (.pure (.float _)))

theorem special_gives : special.Gives Value.Fits := by
  intro text
  unfold special
  dsimp only
  split
  · exact .pure (.float _)
  · exact .pure (.float _)
  · simp

theorem numeral_gives : numeral.Gives Value.Fits := fun text =>
  satisfiesM_or (dateTime_gives text) <| satisfiesM_or (decimal_gives text) <|
    satisfiesM_or (special_gives text) (whole_gives text)

theorem simple_gives : simple.Gives Value.Fits := by
  intro text
  unfold simple
  split
  · exact .pure (.boolean true)
  · exact .pure (.boolean false)
  · split
    · exact .map .trivial fun _ => .string _
    · exact .map .trivial fun _ => .string _
    · exact numeral_gives _

/-! ## Arrays and inline tables -/

section Items

variable {item : Scanner Value} (hitem : item.Gives Value.Fits)
include hitem

theorem itemsFrom_gives (rounds : Nat) {read : List Value} (hread : ∀ v ∈ read, v.Fits) :
    (itemsFrom item rounds read).Gives Value.Fits := by
  induction rounds generalizing read with
  | zero =>
    intro text
    simp [itemsFrom]
  | succ rounds ih =>
    intro text
    have harray : ∀ {items : List Value}, (∀ v ∈ items, v.Fits) → (Value.array items.reverse).Fits :=
      fun hitems => .array fun v hv => hitems v (List.mem_reverse.mp hv)
    rw [itemsFrom]
    split
    · exact .pure (harray hread)
    · split
      · simp
      · next v text hv =>
        have hread' : ∀ other ∈ v :: read, other.Fits :=
          List.forall_mem_cons.mpr ⟨SatisfiesM_Option_eq.mp (hitem _) _ hv, hread⟩
        split
        · exact ih hread' _
        · exact .pure (harray hread')
        · simp

theorem assignmentOf_gives : (assignmentOf item).Gives fun entry => entry.2.Fits := fun _ =>
  .bind .trivial fun _ _ => .bind .trivial fun _ _ => .bind (hitem _) fun _ hv => .pure hv

theorem inlineFrom_gives (rounds : Nat) {read : List (List String × Value)}
    (hread : ∀ entry ∈ read, entry.2.Fits) :
    (inlineFrom item rounds read).Gives Value.Fits := by
  induction rounds generalizing read with
  | zero =>
    intro text
    simp [inlineFrom]
  | succ rounds ih =>
    intro text
    rw [inlineFrom]
    split
    · simp
    · next entry text hentry =>
      have hread' : ∀ other ∈ entry :: read, other.2.Fits :=
        List.forall_mem_cons.mpr
          ⟨SatisfiesM_Option_eq.mp (assignmentOf_gives hitem _) _ hentry, hread⟩
      split
      · exact ih hread' _
      · refine .map (ofStatements_fits fun s hs => ?_) fun hentries => .table hentries
        obtain ⟨assignment, hassignment, rfl⟩ := List.mem_map.mp hs
        exact hread' assignment (List.mem_reverse.mp hassignment)
      · simp

end Items

theorem valueWithin_gives (depth : Nat) : (valueWithin depth).Gives Value.Fits := by
  induction depth with
  | zero => exact simple_gives
  | succ depth ih =>
    intro text
    unfold valueWithin
    split
    · exact itemsFrom_gives ih _ (by simp) _
    · split
      · exact .pure (.table (by simp))
      · exact inlineFrom_gives ih _ (by simp) _
    · exact simple_gives _

/-! ## Files -/

theorem statement_gives : Scanner.Gives statement Statement.Fits := by
  intro text
  unfold statement
  split
  · exact .bind .trivial fun _ _ => .bind .trivial fun _ _ => .bind .trivial fun _ _ =>
      .bind .trivial fun _ _ => .pure trivial
  · exact .bind .trivial fun _ _ => .bind .trivial fun _ _ => .bind .trivial fun _ _ =>
      .pure trivial
  · exact .bind (assignmentOf_gives (valueWithin_gives _) _) fun _ hentry =>
      .bind .trivial fun _ _ => .pure hentry

theorem statementsFrom_fits (rounds : Nat) {read : List Statement} (hread : ∀ s ∈ read, s.Fits)
    (text : List Char) :
    SatisfiesM (fun statements => ∀ s ∈ statements, s.Fits) (statementsFrom rounds read text) := by
  induction rounds generalizing read text with
  | zero => simp [statementsFrom]
  | succ rounds ih =>
    rw [statementsFrom]
    split
    · exact .pure fun s hs => hread s (List.mem_reverse.mp hs)
    · split
      · exact ih hread _
      · split
        · next s rest hs =>
          have hfits : s.Fits := SatisfiesM_Option_eq.mp (statement_gives _) _ hs
          exact ih (List.forall_mem_cons.mpr ⟨hfits, hread⟩) _
        · simp

/-- **All whole numbers in a file fit into 64 bits.** -/
theorem fits_of_parse (text : String) :
    SatisfiesM (fun entries => ∀ entry ∈ entries, entry.2.Fits) (parse text) :=
  .bind (statementsFrom_fits _ (by simp) _) fun _ hstatements => ofStatements_fits hstatements

end DeflateEcho.Toml
