import Mathlib
import DeflateEcho.Proofs.Settings.Spelling
import DeflateEcho.Proofs.Text.Utf8
import DeflateEcho.Proofs.Toml.Order
import DeflateEcho.Proofs.Toml.Range
import DeflateEcho.Proofs.Toml.Recognition.Files

/-!
# Proofs/Settings/Offences — the first value that does not fit is the error

Each setting expects a kind of value (`Setting.expected`), and its reader takes what fits and reports
what does not (`Reads`).  A section is read from key to key and a file from section to section, so
reading ends at the first value that does not fit, with the error that this value alone would give
(`foldlM_first`).  Keys and sections stand where they come up first in the text, or where a header
opens the table at them (`keys_section`), so that is also the first one there.
-/

namespace DeflateEcho.Settings

open Toml

/-! ## What fits -/

/-- What a setting expects. -/
def Setting.expected : Setting → Expected
  | .listen | .level => .string
  | .concurrent => .boolean
  | .maxSessions => .count
  | .backlog => .signed32

namespace Expected

/-- **A value fits** where it is expected: whole numbers have their bounds. -/
inductive Fits : Expected → Value → Prop where
  | string (text : String) : Fits .string (.string text)
  | boolean (b : Bool) : Fits .boolean (.boolean b)
  | count {n : Int} (h : 0 ≤ n ∧ n < 2 ^ 63) : Fits .count (.integer n)
  | signed32 {n : Int} (h : -2 ^ 31 ≤ n ∧ n < 2 ^ 31) : Fits .signed32 (.integer n)

/-- **What is reported** of a value that does not fit. -/
def refusal : Expected → Value → TypeError
  | .count, .integer n => .outOfRange n .count
  | .signed32, .integer n => .outOfRange n .signed32
  | expected, v => .invalidType v expected

/-- The report describes the value and names what was expected. -/
theorem message_refusal (expected : Expected) (v : Value) :
    ∃ lead ∈ ["invalid type: ", "invalid value: "], (expected.refusal v).message =
      lead ++ describe v ++ ", expected " ++ expected.name := by
  unfold refusal
  split
  · exact ⟨_, by simp, rfl⟩
  · exact ⟨_, by simp, rfl⟩
  · exact ⟨_, by simp, rfl⟩

end Expected

/-- The word for a value's kind; a date or a time is a table to its reader. -/
def kindOf : Value → String
  | .string _ => "string"
  | .integer _ => "integer"
  | .float _ => "floating point"
  | .boolean _ => "boolean"
  | .array _ => "sequence"
  | .dateTime | .table _ => "map"

/-- The words for what a setting expects. -/
def Setting.typeName : Setting → String
  | .listen | .level => "a string"
  | .concurrent => "a boolean"
  | .maxSessions => "usize"
  | .backlog => "i32"

/-- **A description begins with the value's kind**, as a word of its own. -/
theorem describe_eq (v : Value) :
    ∃ shown, describe v = kindOf v ++ shown ∧ (shown = "" ∨ ∃ text, shown = " " ++ text) := by
  have hword : ∀ kind text : String, kind ++ " " ++ text = kind ++ (" " ++ text) := fun _ _ =>
    String.append_assoc
  have hquoted : ∀ kind text : String,
      kind ++ " \x60" ++ text ++ "\x60" = kind ++ (" " ++ ("\x60" ++ text ++ "\x60")) := by
    intro kind text
    have hlead : " \x60" = " " ++ "\x60" := rfl
    simp only [hlead, String.append_assoc]
  cases v with
  | string text => exact ⟨_, hword "string" (Text.quote text), .inr ⟨_, rfl⟩⟩
  | integer n => exact ⟨_, hquoted "integer" (toString n), .inr ⟨_, rfl⟩⟩
  | float x => exact ⟨_, hquoted "floating point" x.text, .inr ⟨_, rfl⟩⟩
  | boolean b => exact ⟨_, hquoted "boolean" (if b then "true" else "false"), .inr ⟨_, rfl⟩⟩
  | dateTime => exact ⟨"", rfl, .inl rfl⟩
  | array items => exact ⟨"", rfl, .inl rfl⟩
  | table entries => exact ⟨"", rfl, .inl rfl⟩

/-- **A report names a value's own kind** and the type that its setting has. -/
theorem Setting.message_refusal (s : Setting) (v : Value) :
    ∃ lead ∈ ["invalid type: ", "invalid value: "], ∃ shown,
      (shown = "" ∨ ∃ text, shown = " " ++ text) ∧
      describe v = kindOf v ++ shown ∧
      (s.expected.refusal v).message =
        lead ++ (kindOf v ++ shown) ++ ", expected " ++ s.typeName := by
  obtain ⟨shown, hdescribe, hshown⟩ := describe_eq v
  obtain ⟨lead, hlead, hmessage⟩ := s.expected.message_refusal v
  have hname : s.expected.name = s.typeName := by cases s <;> rfl
  exact ⟨lead, hlead, shown, hshown, hdescribe, by rw [hmessage, hdescribe, hname]⟩

/-- **A reader takes what fits** and reports what does not. -/
def Reads {α : Type} (expected : Expected) (read : Value → Except TypeError α) : Prop :=
  ∀ v : Value, v.Fits → (expected.Fits v ∧ ∃ a, read v = .ok a) ∨
    (¬ expected.Fits v ∧ read v = .error (expected.refusal v))

theorem reads_string : Reads .string string := by
  intro v _
  cases v with
  | string text => exact .inl ⟨.string text, text, rfl⟩
  | _ => exact .inr ⟨nofun, rfl⟩

theorem reads_boolean : Reads .boolean boolean := by
  intro v _
  cases v with
  | boolean b => exact .inl ⟨.boolean b, b, rfl⟩
  | _ => exact .inr ⟨nofun, rfl⟩

/-- No number in a file is too large. -/
theorem reads_count : Reads .count count := by
  intro v hv
  cases v with
  | integer n =>
    cases hv with | integer hrange =>
    by_cases hn : 0 ≤ n
    · exact .inl ⟨.count ⟨hn, hrange.2⟩, n.toNat, if_pos hn⟩
    · exact .inr ⟨fun | .count h => hn h.1, if_neg hn⟩
  | _ => exact .inr ⟨nofun, rfl⟩

theorem reads_signed32 : Reads .signed32 signed32 := by
  intro v _
  cases v with
  | integer n =>
    by_cases hn : -0x80000000 ≤ n ∧ n < 0x80000000
    · exact .inl ⟨.signed32 hn, n, if_pos hn⟩
    · exact .inr ⟨fun | .signed32 h => hn h, if_neg hn⟩
  | _ => exact .inr ⟨nofun, rfl⟩

/-! ## The first one -/

/-- **An entry is judged by itself**: it is fine and taken over, or bad and an error, whatever has
been taken over before. -/
def Judged {σ : Type} (set : σ → Except TypeError σ) (fine : Prop) (bad : TypeError → Prop) : Prop :=
  (fine ∧ ∀ st, ∃ st', set st = .ok st') ∨ ∃ error, bad error ∧ ∀ st, set st = .error error

/-- **Entries that are judged each by itself** are all fine, or the first bad one is the error. -/
theorem foldlM_first {σ α : Type} {set : σ → α → Except TypeError σ} {fine : α → Prop}
    {bad : α → TypeError → Prop} {entries : List α}
    (h : ∀ entry ∈ entries, Judged (fun st => set st entry) (fine entry) (bad entry)) (st : σ) :
    ((∀ entry ∈ entries, fine entry) ∧ ∃ st', entries.foldlM set st = .ok st') ∨
      ∃ before entry behind error, entries = before ++ entry :: behind ∧
        (∀ other ∈ before, fine other) ∧ bad entry error ∧
        entries.foldlM set st = .error error := by
  induction entries generalizing st with
  | nil => exact .inl ⟨by simp, st, rfl⟩
  | cons entry entries ih =>
    obtain ⟨hentry, hentries⟩ := List.forall_mem_cons.mp h
    rw [List.foldlM_cons]
    obtain ⟨hfine, htaken⟩ | ⟨error, hbad, herror⟩ := hentry
    · obtain ⟨st', hst'⟩ : ∃ st', set st entry = .ok st' := htaken st
      rw [hst']
      obtain ⟨hall, hlast⟩ | ⟨before, other, behind, error, rfl, hbefore, hother, herror⟩ :=
        ih hentries st'
      · exact .inl ⟨List.forall_mem_cons.mpr ⟨hfine, hall⟩, hlast⟩
      · exact .inr ⟨entry :: before, other, behind, error, rfl,
          List.forall_mem_cons.mpr ⟨hfine, hbefore⟩, hother, herror⟩
    · have hst : set st entry = .error error := herror st
      exact .inr ⟨[], entry, entries, error, rfl, by simp, hbad, by rw [hst]; rfl⟩

/-! ## Sections -/

/-- An entry of a section fits if it is there for a setting. -/
def Decent (home : String) (entry : String × Value) : Prop :=
  ∀ s : Setting, s.home = home → s.key = entry.1 → s.expected.Fits entry.2

/-- What is reported of an entry of a section. -/
def Reported (home : String) (entry : String × Value) (error : TypeError) : Prop :=
  ∃ s : Setting, s.home = home ∧ s.key = entry.1 ∧ ¬ s.expected.Fits entry.2 ∧
    error = s.expected.refusal entry.2

theorem Setting.eq_of_key {s other : Setting} (hhome : s.home = other.home)
    (hkey : s.key = other.key) : s = other := by
  revert hhome hkey
  cases s <;> cases other <;> decide

section Judged

variable {σ α : Type} {set : σ → Except TypeError σ}

/-- The key of a setting is judged by its reader. -/
theorem judged_of_reads (s : Setting) {v : Value} (hv : v.Fits)
    {read : Value → Except TypeError α} (hread : Reads s.expected read) {take : σ → α → σ}
    (hset : ∀ st, set st = (read v).map (take st)) :
    Judged set (Decent s.home (s.key, v)) (Reported s.home (s.key, v)) := by
  obtain ⟨hfits, a, ha⟩ | ⟨hunfit, herror⟩ := hread v hv
  · refine .inl ⟨fun other hhome hkey => ?_, fun st => ⟨take st a, by rw [hset, ha]; rfl⟩⟩
    exact Setting.eq_of_key hhome hkey ▸ hfits
  · exact .inr ⟨_, ⟨s, rfl, rfl, hunfit, rfl⟩, fun st => by rw [hset, herror]; rfl⟩

/-- Any other key is passed over. -/
theorem judged_of_foreign {home : String} {entry : String × Value}
    (h : ∀ s : Setting, s.home = home → s.key ≠ entry.1) (hset : ∀ st, set st = .ok st) :
    Judged set (Decent home entry) (Reported home entry) :=
  .inl ⟨fun s hhome hkey => absurd hkey (h s hhome), fun st => ⟨st, hset st⟩⟩

end Judged

theorem ServerSection.judged_set {entry : String × Value} (hv : entry.2.Fits) :
    Judged (fun st : ServerSection => st.set entry.1 entry.2) (Decent "server" entry)
      (Reported "server" entry) := by
  obtain ⟨key, v⟩ := entry
  by_cases hkey : ∃ s : Setting, s.home = "server" ∧ s.key = key
  · obtain ⟨s, hhome, rfl⟩ := hkey
    cases s with
    | level => exact absurd hhome (by decide)
    | listen => exact judged_of_reads .listen hv reads_string fun _ => rfl
    | concurrent => exact judged_of_reads .concurrent hv reads_boolean fun _ => rfl
    | maxSessions => exact judged_of_reads .maxSessions hv reads_count fun _ => rfl
    | backlog => exact judged_of_reads .backlog hv reads_signed32 fun _ => rfl
  · have hforeign : ∀ s : Setting, s.home = "server" → s.key ≠ key := fun s hhome hs =>
      hkey ⟨s, hhome, hs⟩
    refine judged_of_foreign hforeign fun st => ?_
    exact (if_neg (hforeign .listen rfl).symm).trans <|
      (if_neg (hforeign .concurrent rfl).symm).trans <|
      (if_neg (hforeign .maxSessions rfl).symm).trans (if_neg (hforeign .backlog rfl).symm)

theorem LoggingSection.judged_set {entry : String × Value} (hv : entry.2.Fits) :
    Judged (fun st : LoggingSection => st.set entry.1 entry.2) (Decent "logging" entry)
      (Reported "logging" entry) := by
  obtain ⟨key, v⟩ := entry
  by_cases hkey : Setting.level.key = key
  · subst hkey
    exact judged_of_reads .level hv reads_string fun _ => rfl
  · refine judged_of_foreign (fun s hhome => ?_) fun st => if_neg (Ne.symm hkey)
    cases s with
    | level => exact hkey
    | _ => exact absurd hhome (by decide)

/-! ## Files -/

/-- All in a section fits. -/
def DecentSection (entry : String × Value) : Prop :=
  ∀ s : Setting, s.home = entry.1 → ∀ values, entry.2 = .table values →
    ∀ inner ∈ values, Decent entry.1 inner

/-- What is reported of a section: its first entry that does not fit. -/
def ReportedSection (entry : String × Value) (error : TypeError) : Prop :=
  ∃ before inner behind, entry.2 = .table (before ++ inner :: behind) ∧
    (∀ other ∈ before, Decent entry.1 other) ∧ Reported entry.1 inner error

/-- A section is judged key by key. -/
theorem judged_section {σ τ : Type} {set : σ → String × Value → Except TypeError σ} {st : σ}
    {home : String} {values : List (String × Value)}
    (h : ∀ inner ∈ values, Judged (fun st => set st inner) (Decent home inner)
      (Reported home inner))
    {set' : τ → Except TypeError τ} {take : τ → σ → τ}
    (hset : ∀ st', set' st' = (values.foldlM set st).map (take st')) :
    Judged set' (DecentSection (home, .table values)) (ReportedSection (home, .table values)) := by
  obtain ⟨hall, section', hsection⟩ | ⟨before, inner, behind, error, rfl, hbefore, hbad, herror⟩ :=
    foldlM_first h st
  · refine .inl ⟨fun _ _ values' hvalues => ?_, fun st' => ⟨take st' section', ?_⟩⟩
    · obtain rfl := Value.table.inj hvalues
      exact hall
    · rw [hset, hsection]
      rfl
  · refine .inr ⟨error, ⟨before, inner, behind, rfl, hbefore, hbad⟩, fun st' => ?_⟩
    rw [hset, herror]
    rfl

theorem FileSettings.judged_set {entry : String × Value} (hv : entry.2.Fits)
    (hsection : ∀ s : Setting, s.home = entry.1 → ∃ values, entry.2 = .table values) :
    Judged (fun st : FileSettings => st.set entry.1 entry.2) (DecentSection entry)
      (ReportedSection entry) := by
  obtain ⟨key, v⟩ := entry
  by_cases hkey : ∃ s : Setting, s.home = key
  · obtain ⟨s, rfl⟩ := hkey
    obtain ⟨values, rfl⟩ : ∃ values, v = .table values := hsection s rfl
    cases hv with | table hvalues =>
    cases s with
    | level =>
      exact judged_section (fun inner hinner => LoggingSection.judged_set (hvalues inner hinner))
        fun st => st.set_logging (.table values)
    | _ =>
      exact judged_section (fun inner hinner => ServerSection.judged_set (hvalues inner hinner))
        fun st => st.set_server (.table values)
  · refine .inl ⟨fun s hs => absurd ⟨s, hs⟩ hkey, fun st => ⟨st, ?_⟩⟩
    have hserver : key ≠ "server" := fun h => hkey ⟨.listen, h.symm⟩
    have hlogging : key ≠ "logging" := fun h => hkey ⟨.level, h.symm⟩
    exact (if_neg hserver).trans (if_neg hlogging)

/-! ## The order of keys -/

/-- **What is mentioned of the keys in a section**, as it comes up: in headers and dotted keys, or in
the inline table for the whole section. -/
def keyMentions (home : String) (lines : List (Line Term)) : List Mention :=
  mentionsBehind [home] (mentionsFrom [] lines) ++
    (valuesAt [home] (directFrom [] lines)).flatMap fun t =>
      (assignmentsIn t).map fun entry => ⟨entry.1, false⟩

/-- **A setting stands before another** in a file: its section does, or in the same section its
key. -/
def Setting.Before (lines : List (Line Term)) (s other : Setting) : Prop :=
  if s.home = other.home then
    placeOf (keyMentions s.home lines) s.key < placeOf (keyMentions s.home lines) other.key
  else placeOf (mentionsFrom [] lines) s.home < placeOf (mentionsFrom [] lines) other.home

/-- A term for a table is an inline table, if it is none that stands for itself. -/
theorem exists_inline_of_read {t : Term} {depth : Nat} {values : List (String × Value)}
    (hscalar : t ≠ .scalar (.table values)) (h : t.read depth = some (.table values)) :
    ∃ inner, t = .inline inner := by
  cases t with
  | inline inner => exact ⟨inner, rfl⟩
  | scalar v =>
    have hv : (Term.scalar v).read depth = some v := by cases depth <;> rfl
    exact absurd (congrArg Term.scalar (Option.some.inj (hv.symm.trans h))) hscalar
  | array items =>
    cases depth with
    | zero => cases h
    | succ depth =>
      obtain ⟨vs, -, hvs⟩ := Option.map_eq_some_iff.mp h
      cases hvs

/-- The one value that is given for a section is an inline table. -/
theorem exists_inline_of_value {lines : List (Line Term)}
    (hscalar : ∀ path values, .assignment path (.scalar (.table values)) ∉ lines)
    {depth : Nat} (hread : ∀ path t, .assignment path t ∈ lines → ∃ v, t.read depth = some v)
    {home : String} {t : Term} (ht : valuesAt [home] (directFrom [] lines) = [t])
    {values : List (String × Value)} (hvalue : t.value depth = .table values) :
    ∃ inner, t = .inline inner ∧ t.read depth = some (.table values) := by
  obtain ⟨path, hpath⟩ := exists_assignment_of_directFrom
    (mem_valuesAt.mp (ht ▸ List.mem_singleton_self t))
  obtain ⟨v, hv⟩ := hread path t hpath
  obtain rfl : v = .table values := (Term.value_eq hv).symm.trans hvalue
  obtain ⟨inner, rfl⟩ := exists_inline_of_read (fun ht => hscalar path values (ht ▸ hpath)) hv
  exact ⟨inner, rfl, hv⟩

/-- The keys of an inline table stand in the order in which they come up. -/
theorem keys_inline {inner : List (List String × Term)} {depth : Nat}
    {values : List (String × Value)}
    (h : (Term.inline inner).read depth = some (.table values)) :
    values.map (·.1) = (inner.map fun entry => (⟨entry.1, false⟩ : Mention)).foldl comeUp [] := by
  obtain ⟨below, d, hd, hvalues, -⟩ := Term.exists_document h
  obtain rfl := Value.table.inj hvalues
  have hmentions : mentionsFrom [] (inlineLines inner) =
      inner.map fun entry => ⟨entry.1, false⟩ := by
    clear h hd hvalues
    induction inner with
    | nil => rfl
    | cons entry inner ih => exact congrArg (⟨entry.1, false⟩ :: ·) ih
  have hkeys := keysAt_of_lines (a := []) hd fun path hpath =>
    absurd hpath (element_notMem_inlineLines inner path)
  rw [mentionsBehind_nil, hmentions] at hkeys
  rw [keys_entryValues, ← hkeys]
  rfl

instance (lines : List (Line Term)) (s other : Setting) : Decidable (s.Before lines other) := by
  unfold Setting.Before
  infer_instance

section Order

variable {lines : List (Line Term)} {table : List (String × Value)}
  (h : readFile lines = some table)
include h

/-- The sections of a file stand in the order in which they come up, and none is opened twice. -/
theorem keys_file : table.map (·.1) = (mentionsFrom [] lines).foldl comeUp [] ∧
    OpensOnce (mentionsFrom [] lines) := by
  obtain ⟨d, hd, rfl, -⟩ := exists_document_of_readFile h
  have hconsistent := (grows_of_foldlM (line_statement_map _ _) hd).consistent
  have hlists : ∀ path, .element path ∈ lines → ¬ path <+: [] := fun path hpath hnil =>
    hconsistent.element_nil_notMem (List.prefix_nil.mp hnil ▸ hpath)
  have hkeys := keysAt_of_lines hd hlists
  have hopens := hconsistent.opensOnce hlists
  rw [mentionsBehind_nil] at hkeys hopens
  rw [keys_entryValues, ← hkeys]
  exact ⟨rfl, hopens⟩

/-- **So do the keys of a section**, whether it has a header or is an inline table. -/
theorem keys_section (hscalar : ∀ path values, .assignment path (.scalar (.table values)) ∉ lines)
    {home : String} {values : List (String × Value)}
    (hsection : table.lookup home = some (.table values)) :
    values.map (·.1) = (keyMentions home lines).foldl comeUp [] ∧
      OpensOnce (keyMentions home lines) := by
  obtain ⟨d, hd, rfl, hread⟩ := exists_document_of_readFile h
  have hgrows := grows_of_foldlM (line_statement_map _ _) hd
  obtain ⟨place, htold, hplace⟩ := hgrows.told_top home
  rw [lookup_entryValues] at hsection
  obtain ⟨node, hfind, hnode⟩ := Option.map_eq_some_iff.mp hsection
  have hopens : .added ∉ eventsFrom [] lines [home] → OpensOnce (keyMentions home lines) :=
    fun hadded => by
      refine (hgrows.consistent.opensOnce fun path =>
        hgrows.consistent.element_notMem_above le_rfl hadded path).append fun m hm => ?_
      obtain ⟨t, -, ht⟩ := List.mem_flatMap.mp hm
      obtain ⟨entry, -, rfl⟩ := List.mem_map.mp ht
      rfl
  have hkeys : .added ∉ eventsFrom [] lines [home] → (keyMentions home lines).foldl comeUp [] =
      ((valuesAt [home] (directFrom [] lines)).flatMap fun t =>
        (assignmentsIn t).map fun entry => ⟨entry.1, false⟩).foldl comeUp
          (keysAt [home] d.entries) := fun hadded => by
    rw [keyMentions, List.foldl_append, keysAt_of_lines hd fun path =>
      hgrows.consistent.element_notMem_above le_rfl hadded path]
  cases htold with
  | vacant => rw [eq_none_of_view hplace] at hfind; cases hfind
  | @value t hevents =>
    have hadded : .added ∉ eventsFrom [] lines [home] := by simp [hevents]
    rw [eq_value_of_view hplace] at hfind
    obtain rfl := Option.some.inj hfind
    have hvalues : valuesAt [home] (directFrom [] lines) = [t] := by
      rw [← eventsFrom_given, hevents]
      rfl
    obtain ⟨inner, rfl, hinner⟩ := exists_inline_of_value hscalar hread hvalues hnode
    have hnone : keysAt [home] d.entries = [] := by
      rw [keysAt, eq_value_of_view hplace]
      rfl
    refine ⟨?_, hopens hadded⟩
    rw [hkeys hadded, hnone, hvalues, keys_inline hinner]
    simp [assignmentsIn]
  | table _ hgiven hadded =>
    obtain ⟨inner, htable⟩ := eq_table_of_view hplace
    rw [htable] at hfind
    obtain rfl := Option.some.inj hfind
    obtain rfl := Value.table.inj hnode
    have hvalues : valuesAt [home] (directFrom [] lines) = [] := by
      rw [← eventsFrom_given]
      exact List.filterMap_eq_nil_iff.mpr hgiven
    refine ⟨?_, hopens hadded⟩
    rw [hkeys hadded, hvalues, keysAt, htable, keys_entryValues]
    rfl
  | tables =>
    obtain ⟨last, earlier, htables⟩ := eq_tables_of_view hplace
    rw [htables] at hfind
    obtain rfl := Option.some.inj hfind
    obtain ⟨_, _, hvalue⟩ := exists_toValue_tables last earlier
    rw [hvalue] at hnode
    cases hnode

end Order

/-! ## The first offence -/

/-- **What a file has at a setting.** -/
def HasAt (table : List (String × Value)) (s : Setting) (v : Value) : Prop :=
  ∃ values, (s.home, .table values) ∈ table ∧ (s.key, v) ∈ values

/-- **A value offends**: it is there for a setting and does not fit. -/
def Offends (table : List (String × Value)) (s : Setting) (v : Value) : Prop :=
  HasAt table s v ∧ ¬ s.expected.Fits v

theorem fits_of_decentSections {table : List (String × Value)}
    (h : ∀ entry ∈ table, DecentSection entry) {s : Setting} {v : Value} (hv : HasAt table s v) :
    s.expected.Fits v := by
  obtain ⟨values, hsection, hkey⟩ := hv
  exact h _ hsection s rfl values rfl _ hkey s rfl rfl

/-- The settings of a table, or its first offence. -/
theorem FileSettings.ofTable_first {table : List (String × Value)}
    (hfits : ∀ entry ∈ table, entry.2.Fits)
    (hsections : ∀ (s : Setting) (v : Value), (s.home, v) ∈ table → ∃ values, v = .table values) :
    ((∀ entry ∈ table, DecentSection entry) ∧ ∃ settings, ofTable table = .ok settings) ∨
      ∃ before entry behind error, table = before ++ entry :: behind ∧
        (∀ other ∈ before, DecentSection other) ∧ ReportedSection entry error ∧
        ofTable table = .error error :=
  foldlM_first (fun entry hentry => judged_set (hfits entry hentry) fun s hs =>
    hsections s entry.2 (hs ▸ hentry)) {}

/-- Of entries in the order of their places, one stands before those behind it, and behind those
before it. -/
theorem placeOf_lt_of_keys {mentions : List Mention} {before behind : List (String × Value)}
    {entry : String × Value}
    (h : (before ++ entry :: behind).map (·.1) = mentions.foldl comeUp [] ∧ OpensOnce mentions) :
    (∀ other ∈ before, placeOf mentions other.1 < placeOf mentions entry.1) ∧
      ∀ other ∈ behind, placeOf mentions entry.1 < placeOf mentions other.1 := by
  have hpairwise := inOrder_foldl_comeUp h.2
  rw [InOrder, ← h.1, List.pairwise_map, List.pairwise_append, List.pairwise_cons] at hpairwise
  exact ⟨fun other hother => hpairwise.2.2 other hother entry List.mem_cons_self, hpairwise.2.1.1⟩

/-- **The first offence stands before any other.** -/
theorem before_of_first {lines : List (Line Term)}
    {before behind first rest : List (String × Value)} {s : Setting} {v : Value}
    (h : readFile lines = some (before ++ (s.home, .table (first ++ (s.key, v) :: rest)) :: behind))
    (hscalar : ∀ path values, .assignment path (.scalar (.table values)) ∉ lines)
    (hbefore : ∀ other ∈ before, DecentSection other)
    (hfirst : ∀ other ∈ first, Decent s.home other) {other : Setting} {w : Value}
    (hother : Offends (before ++ (s.home, .table (first ++ (s.key, v) :: rest)) :: behind) other w)
    (hne : other ≠ s) : s.Before lines other := by
  obtain ⟨⟨values, hsection, hkey⟩, hunfit⟩ := hother
  obtain ⟨hsooner, hlater⟩ := placeOf_lt_of_keys (keys_file h)
  rw [Setting.Before]
  obtain hmem | hmem := List.mem_append.mp hsection
  · exact absurd (hbefore _ hmem other rfl values rfl _ hkey other rfl rfl) hunfit
  obtain heq | hmem := List.mem_cons.mp hmem
  · obtain ⟨hhome, hvalues⟩ := Prod.mk.inj heq
    obtain rfl := Value.table.inj hvalues
    have hlookup : List.lookup s.home
        (before ++ (s.home, Value.table (first ++ (s.key, v) :: rest)) :: behind) =
          some (.table (first ++ (s.key, v) :: rest)) :=
      List.lookup_eq_some_iff.mpr ⟨before, behind, rfl, fun entry hentry => bne_iff_ne.mpr fun heq =>
        absurd (hsooner entry hentry) (by simp [← heq])⟩
    rw [if_pos hhome.symm]
    obtain hmem | hmem := List.mem_append.mp hkey
    · exact absurd (hfirst _ hmem other hhome rfl) hunfit
    obtain heq | hmem := List.mem_cons.mp hmem
    · exact absurd (Setting.eq_of_key hhome (Prod.mk.inj heq).1) hne
    · exact (placeOf_lt_of_keys (keys_section h hscalar hlookup)).2 _ hmem
  · have hlt := hlater _ hmem
    rw [if_neg fun hhome => absurd hlt (by simp [hhome])]
    exact hlt

/-- **A well-formed file with tables for sections** is accepted just if each value at a setting fits,
whatever else stands there.  **If not, the error is about one value**: it names the kind of this value
and the type of its setting.  That is the value whose setting stands first in the text, however this
is taken apart into lines and whatever the others are. -/
theorem ofBytes_of_offences {bytes : Bytes} {text : List Char} {table : List (String × Value)}
    (hbytes : bytes = Text.Utf8.encode text)
    (hparse : parse (String.ofList text) = some table)
    (hsections : ∀ (s : Setting) (v : Value), (s.home, v) ∈ table → ∃ values, v = .table values)
    (path : String) :
    ((∃ settings, FileSettings.ofBytes path bytes = .ok settings) ↔
      ∀ s v, HasAt table s v → s.expected.Fits v) ∧
    (∀ error, FileSettings.ofBytes path bytes = .error error →
      ∃ s v, Offends table s v ∧ error = .illTyped path (s.expected.refusal v) ∧
        (∃ lead ∈ ["invalid type: ", "invalid value: "], ∃ shown,
          (shown = "" ∨ ∃ text, shown = " " ++ text) ∧
          describe v = kindOf v ++ shown ∧
          (s.expected.refusal v).message =
            lead ++ (kindOf v ++ shown) ++ ", expected " ++ s.typeName) ∧
        (∃ lines, FileText lines text) ∧
        ∀ lines, FileText lines text → ∀ other w, Offends table other w → other ≠ s →
          s.Before lines other) := by
  have hfits := SatisfiesM_Option_eq.mp (fits_of_parse _) table hparse
  obtain ⟨lines, hwritten, -⟩ := parse_eq_some_iff.mp hparse
  have hload : FileSettings.ofBytes path bytes =
      (FileSettings.ofTable table).mapError (.illTyped path) := by
    rw [FileSettings.ofBytes, Text.Utf8.decode?_eq_some_iff.mpr hbytes]
    simp only [hparse]
  have hrefused : ∀ {error : LoadError},
      ¬ ∃ settings, (Except.error error : Except LoadError FileSettings) = .ok settings := by simp
  rw [hload]
  obtain ⟨hall, settings, hsettings⟩ |
      ⟨before, ⟨home, _⟩, behind, _, rfl, hbefore, ⟨first, ⟨key, v⟩, rest, rfl, hfirst, s, rfl, rfl,
        hunfit, rfl⟩, herror⟩ := FileSettings.ofTable_first hfits hsections
  · rw [hsettings]
    refine ⟨⟨fun _ s v => fits_of_decentSections hall, fun _ => ⟨settings, rfl⟩⟩,
      fun error herror => ?_⟩
    cases herror
  · have hhas : HasAt (before ++ (s.home, .table (first ++ (s.key, v) :: rest)) :: behind) s v :=
      ⟨_, List.mem_append_right _ List.mem_cons_self, List.mem_append_right _ List.mem_cons_self⟩
    rw [herror]
    refine ⟨⟨fun h => absurd h hrefused, fun h => absurd (h s v hhas) hunfit⟩,
      fun error herror => ?_⟩
    cases herror
    refine ⟨s, v, ⟨hhas, hunfit⟩, rfl, s.message_refusal v,
      ⟨lines, hwritten⟩, fun lines hlines other w hother hne => ?_⟩
    exact before_of_first ((parse_eq hlines).symm.trans hparse) (hlines.table_notMem) hbefore
      hfirst hother hne

theorem ofBytes_of_offences_level :
    (¬ ∃ settings, FileSettings.ofBytes "a"
      "logging=\x7blevel=true\x7d\n[server]\nlisten=true".toUTF8.toList = .ok settings) ∧
    ∀ error, FileSettings.ofBytes "a"
      "logging=\x7blevel=true\x7d\n[server]\nlisten=true".toUTF8.toList = .error error →
      error = .illTyped "a" (.invalidType (.boolean true) .string) := by
  have hlogging : PathText ["logging"] "logging".toList := pathText_bare (by simp) rfl
  have hserver : PathText ["server"] "server".toList := pathText_bare (by simp) rfl
  have hlevel : PathText ["level"] "level".toList := pathText_bare (by simp) rfl
  have hlisten : PathText ["listen"] "listen".toList := pathText_bare (by simp) rfl
  have htrue : Spelled (.scalar (.boolean true)) ['t', 'r', 'u', 'e'] := .scalar .true
  have htext : FileText
      [.assignment ["logging"] (.inline [(["level"], .scalar (.boolean true))]), .table ["server"],
        .assignment ["listen"] (.scalar (.boolean true))]
      "logging=\x7blevel=true\x7d\n[server]\nlisten=true".toList :=
    .plain (.line blank_nil
      (.assignment (.mk hlogging blank_nil (.inline (.last blank_nil
        (.mk hlevel blank_nil htrue) blank_nil))))
      (.blank blank_nil) .lf
      (.line blank_nil (.table blank_nil hserver) (.blank blank_nil) .lf
        (.last blank_nil (.assignment (.mk hlisten blank_nil htrue)) (.blank blank_nil))))
  have hparse : parse (String.ofList "logging=\x7blevel=true\x7d\n[server]\nlisten=true".toList) =
      some [("logging", .table [("level", .boolean true)]),
        ("server", .table [("listen", .boolean true)])] := (parse_eq htext).trans rfl
  have hsections : ∀ (s : Setting) (v : Value),
      (s.home, v) ∈ [("logging", Value.table [("level", .boolean true)]),
        ("server", .table [("listen", .boolean true)])] → ∃ values, v = .table values := by
    intro s v hmem
    simp only [List.mem_cons, Prod.mk.injEq, List.not_mem_nil, or_false] at hmem
    obtain ⟨-, rfl⟩ | ⟨-, rfl⟩ := hmem <;> exact ⟨_, rfl⟩
  have hlevelOffends : Offends [("logging", .table [("level", .boolean true)]),
      ("server", .table [("listen", .boolean true)])] .level (.boolean true) :=
    ⟨⟨_, List.mem_cons_self, List.mem_cons_self⟩, nofun⟩
  have hbytes : "logging=\x7blevel=true\x7d\n[server]\nlisten=true".toUTF8.toList =
      Text.Utf8.encode "logging=\x7blevel=true\x7d\n[server]\nlisten=true".toList := by
    decide +kernel
  obtain ⟨haccepted, hfirst⟩ := ofBytes_of_offences hbytes hparse hsections "a"
  refine ⟨fun h => hlevelOffends.2 (haccepted.mp h .level _ hlevelOffends.1),
    fun error herror => ?_⟩
  obtain ⟨s, v, hoffends, rfl, -, -, hbefore⟩ := hfirst error herror
  by_cases hs : .level = s
  · subst hs
    obtain ⟨⟨values, hsection, hkey⟩, -⟩ := hoffends
    obtain rfl : values = [("level", .boolean true)] := by simpa [Setting.home] using hsection
    obtain rfl : v = .boolean true := by simpa [Setting.key] using hkey
    rfl
  · have hsooner := hbefore _ htext .level _ hlevelOffends hs
    cases s with
    | level => exact absurd rfl hs
    | _ => exact absurd hsooner (by decide +kernel)

/-- **A section that comes up first need not stand first**: a longer header names the server section
here, but its own header stands behind that of the other, and so do its keys. -/
theorem ofBytes_of_reopened :
    ∃ lines table,
      FileText lines "[server.x]\n[logging]\nlevel=true\n[server]\nlisten=1".toList ∧
      readFile lines = some table ∧
      firstUse (mentionsFrom [] lines) "server" < firstUse (mentionsFrom [] lines) "logging" ∧
      Offends table .listen (.integer 1) ∧ Offends table .level (.boolean true) ∧
      FileSettings.ofBytes "a"
        "[server.x]\n[logging]\nlevel=true\n[server]\nlisten=1".toUTF8.toList =
          .error (.illTyped "a" (.invalidType (.boolean true) .string)) := by
  have hdeep : PathText ["server", "x"] "server.x".toList :=
    .dot (.bare (x := ['s', 'e', 'r', 'v', 'e', 'r']) (by simp) (List.all_eq_true.mp rfl))
      blank_nil blank_nil (pathText_bare (x := ['x']) (by simp) rfl)
  have hlogging : PathText ["logging"] "logging".toList := pathText_bare (by simp) rfl
  have hserver : PathText ["server"] "server".toList := pathText_bare (by simp) rfl
  have hlevel : PathText ["level"] "level".toList := pathText_bare (by simp) rfl
  have hlisten : PathText ["listen"] "listen".toList := pathText_bare (by simp) rfl
  have htrue : Spelled (.scalar (.boolean true)) ['t', 'r', 'u', 'e'] := .scalar .true
  have hdigit : WholeText ['1'] ['1'] := .digits (.one rfl) (by simp [NotBefore])
  have hone : Spelled (.scalar (.integer 1)) ['1'] :=
    .scalar (.integer (IntegerText.decimal .none hdigit) (by decide))
  have htext : FileText
      [.table ["server", "x"], .table ["logging"], .assignment ["level"] (.scalar (.boolean true)),
        .table ["server"], .assignment ["listen"] (.scalar (.integer 1))]
      "[server.x]\n[logging]\nlevel=true\n[server]\nlisten=1".toList :=
    .plain (.line blank_nil (.table blank_nil hdeep) (.blank blank_nil) .lf
      (.line blank_nil (.table blank_nil hlogging) (.blank blank_nil) .lf
      (.line blank_nil (.assignment (.mk hlevel blank_nil htrue)) (.blank blank_nil) .lf
      (.line blank_nil (.table blank_nil hserver) (.blank blank_nil) .lf
      (.last blank_nil (.assignment (.mk hlisten blank_nil hone)) (.blank blank_nil))))))
  have hread : readFile
      [.table ["server", "x"], .table ["logging"], .assignment ["level"] (.scalar (.boolean true)),
        .table ["server"], .assignment ["listen"] (.scalar (.integer 1))] =
      some [("logging", .table [("level", .boolean true)]),
        ("server", .table [("x", .table []), ("listen", .integer 1)])] := rfl
  have hbytes : "[server.x]\n[logging]\nlevel=true\n[server]\nlisten=1".toUTF8.toList =
      Text.Utf8.encode "[server.x]\n[logging]\nlevel=true\n[server]\nlisten=1".toList := by
    decide +kernel
  have hlistenAt : HasAt [("logging", .table [("level", .boolean true)]),
      ("server", .table [("x", .table []), ("listen", .integer 1)])] .listen (.integer 1) :=
    ⟨_, List.mem_cons_of_mem _ List.mem_cons_self, List.mem_cons_of_mem _ List.mem_cons_self⟩
  have hlevelAt : HasAt [("logging", .table [("level", .boolean true)]),
      ("server", .table [("x", .table []), ("listen", .integer 1)])] .level (.boolean true) :=
    ⟨_, List.mem_cons_self, List.mem_cons_self⟩
  refine ⟨_, _, htext, hread, by decide, ⟨hlistenAt, by rintro ⟨⟩⟩, ⟨hlevelAt, by rintro ⟨⟩⟩, ?_⟩
  rw [FileSettings.ofBytes, Text.Utf8.decode?_eq_some_iff.mpr hbytes]
  simp only [parse_eq htext, hread]
  rfl

end DeflateEcho.Settings
