import Mathlib
import DeflateEcho.Proofs.Settings.Sections
import DeflateEcho.Proofs.Toml.WellFormed
import DeflateEcho.Settings.Config

/-!
# Proofs/Settings/Spelling — every spelling of settings loads to them

A setting may be written below the header of its section, with a dotted key, or in an inline table
for the whole section, and whatever else stands in the file.  `termsFor` finds what a file gives for
a setting, however it does, and `Spells` says that this is the value meant and that nothing else in
the file touches the settings.

At the address of a setting then nothing happens but that its value is given, once or not at all, so
the table of the file holds just that value, or none.  This is the same in each notation, only that
an inline table is a file of its own (`Spells.exists_section`).
-/

namespace DeflateEcho.Settings

open Toml

/-! ## Settings and their values -/

/-- A setting that a file may give. -/
inductive Setting where
  | listen
  | concurrent
  | maxSessions
  | backlog
  | level
  deriving DecidableEq, Repr

namespace Setting

/-- The key of the section that a setting belongs to. -/
def home : Setting → String
  | .listen | .concurrent | .maxSessions | .backlog => "server"
  | .level => "logging"

/-- The key of a setting in its section. -/
def key : Setting → String
  | .listen => "listen"
  | .concurrent => "concurrent"
  | .maxSessions => "max_sessions"
  | .backlog => "backlog"
  | .level => "level"

def path (s : Setting) : List String := [s.home, s.key]

theorem eq_home_of_prefix {s : Setting} {path : List String} (hne : path ≠ [])
    (hbegins : path <+: s.path) (hother : path ≠ s.path) : path = [s.home] := by
  obtain ⟨behind, hbehind⟩ := hbegins
  rcases path with _ | ⟨home, _ | ⟨key, path⟩⟩
  · exact absurd rfl hne
  · rw [(List.cons.inj hbehind).1]
  · obtain ⟨rfl, hkey⟩ := List.cons.inj hbehind
    obtain ⟨rfl, hnil⟩ := List.cons.inj hkey
    exact absurd (by rw [(List.append_eq_nil_iff.mp hnil).1]; rfl) hother

end Setting

/-- Some of the settings, with their values. -/
structure Given where
  listen : Option String := none
  concurrent : Option Bool := none
  maxSessions : Option (Fin (2 ^ 63)) := none
  backlog : Option Int32 := none
  level : Option String := none

namespace Given

/-- What a file says for a setting. -/
def value (given : Given) : Setting → Option Value
  | .listen => given.listen.map .string
  | .concurrent => given.concurrent.map .boolean
  | .maxSessions => given.maxSessions.map fun n => .integer n.val
  | .backlog => given.backlog.map fun n => .integer n.toInt
  | .level => given.level.map .string

/-- **The settings of a file that gives these**: the others have their defaults. -/
def settings (given : Given) : FileSettings :=
  let defaults : FileSettings := {}
  { server := {
      listen := given.listen.getD defaults.server.listen
      concurrent := given.concurrent.getD defaults.server.concurrent
      maxSessions := (given.maxSessions.map (·.val)).getD defaults.server.maxSessions
      backlog := (given.backlog.map Int32.toInt).getD defaults.server.backlog }
    logging := { level := given.level.getD defaults.logging.level } }

end Given

/-! ## Where a file gives them -/

/-- The assignments in an inline table. -/
def assignmentsIn : Term → List (List String × Term)
  | .inline assignments => assignments
  | _ => []

/-- **What a file gives for a setting**: at its own address, or in an inline table for its
section. -/
def termsFor (s : Setting) (lines : List (Line Term)) : List Term :=
  valuesAt s.path (directFrom [] lines) ++
    (valuesAt [s.home] (directFrom [] lines)).flatMap fun t => valuesAt [s.key] (assignmentsIn t)

/-- An address that has nothing to do with settings: it leads to none, and not beyond one. -/
def Foreign (path : List String) : Prop := ∀ s : Setting, ¬ s.path <+: path ∧ ¬ path <+: s.path

/-- **Lines spell settings**: each setting that is given is there once, and all else that is there
is foreign. -/
structure Spells (lines : List (Line Term)) (given : Given) : Prop where
  given : ∀ s, termsFor s lines = ((given.value s).map Term.scalar).toList
  tables : ∀ path, .table path ∈ lines → Foreign path ∨ ∃ s : Setting, path = [s.home]
  elements : ∀ path, .element path ∈ lines → Foreign path
  assignments : ∀ entry ∈ directFrom [] lines,
    Foreign entry.1 ∨ (∃ s : Setting, entry.1 = s.path) ∨
      ∃ (s : Setting) (inner : List (List String × Term)), entry = ([s.home], .inline inner) ∧
        ∀ entry ∈ inner, Foreign (s.home :: entry.1) ∨
          ∃ other : Setting, s.home :: entry.1 = other.path

namespace Spells

variable {lines : List (Line Term)} {given : Given} (h : Spells lines given)
include h

/-- At the address of a setting nothing happens but that values are given. -/
theorem given_ne_none (s : Setting) :
    ∀ event ∈ eventsFrom [] lines s.path, event.given? ≠ none := by
  intro event hevent
  cases cause_of_mem hevent with
  | current _ hbegins => simp [Setting.path] at hbegins
  | @headed _ line path _ hline hheaded hbegins =>
    cases line with
    | assignment => cases hheaded
    | table =>
      cases hheaded
      obtain hforeign | ⟨other, rfl⟩ := h.tables path hline
      · exact absurd hbegins (hforeign s).1
      · simp [Setting.path] at hbegins
    | element =>
      cases hheaded
      exact absurd hbegins (h.elements path hline s).1
  | beyond _ hentry hbegins hne =>
    obtain hforeign | ⟨other, hother⟩ | ⟨other, inner, rfl, -⟩ := h.assignments _ hentry
    · exact absurd hbegins (hforeign s).1
    · rw [hother] at hbegins hne
      exact absurd (hbegins.eq_of_length rfl) hne
    · simp [Setting.path] at hbegins
  | added hmem => exact absurd List.prefix_rfl (h.elements _ hmem s).1
  | renewed hmem hbegins => exact absurd hbegins (h.elements _ hmem s).2
  | given => simp [Event.given?]

/-- What is given for a whole section is an inline table, and all in it is a setting or foreign. -/
theorem exists_inline {s : Setting} {t : Term} (ht : ([s.home], t) ∈ directFrom [] lines) :
    ∃ inner, t = .inline inner ∧ ∀ entry ∈ inner, Foreign (s.home :: entry.1) ∨
      ∃ other : Setting, s.home :: entry.1 = other.path := by
  obtain hforeign | ⟨other, hother⟩ | ⟨other, inner, heq, hinner⟩ := h.assignments _ ht
  · exact absurd (by simp [Setting.path]) (hforeign s).2
  · simp [Setting.path] at hother
  · obtain ⟨hhome, rfl⟩ := Prod.mk.inj heq
    rw [← (List.cons.inj hhome).1] at hinner
    exact ⟨inner, rfl, hinner⟩

end Spells

/-- Neither does anything else happen at the key of a setting in an inline table. -/
theorem given_ne_none_of_inline {s : Setting} {home : String} (hs : s.home = home)
    {inner : List (List String × Term)}
    (h : ∀ entry ∈ inner, Foreign (home :: entry.1) ∨
      ∃ other : Setting, home :: entry.1 = other.path) :
    ∀ event ∈ eventsFrom [] (inlineLines inner) [s.key], event.given? ≠ none := by
  subst hs
  intro event hevent
  cases cause_of_mem hevent with
  | current _ hbegins => simp at hbegins
  | headed _ hline hheaded =>
    rw [headed_of_mem_inlineLines hline] at hheaded
    cases hheaded
  | @beyond _ entry _ hentry hbegins hne =>
    rw [directFrom_inlineLines] at hentry
    have hpath : s.path <+: s.home :: entry.1 := List.cons_prefix_cons.mpr ⟨rfl, hbegins⟩
    obtain hforeign | ⟨other, hother⟩ := h entry hentry
    · exact absurd hpath (hforeign s).1
    · rw [hother] at hpath
      have heq : s.path = s.home :: entry.1 := (hpath.eq_of_length rfl).trans hother.symm
      exact absurd (List.cons.inj heq).2 hne
  | added hmem => exact absurd hmem (element_notMem_inlineLines _ _)
  | renewed hmem => exact absurd hmem (element_notMem_inlineLines _ _)
  | given => simp [Event.given?]

/-! ## What happens at a section tells where its settings are -/

section Sections

variable {s : Setting} {home : String} (hs : s.home = home) {lines : List (Line Term)}
include hs

theorem termsFor_of_value {t : Term} (h : eventsFrom [] lines [home] = [.given t]) :
    ([home], t) ∈ directFrom [] lines ∧ termsFor s lines = valuesAt [s.key] (assignmentsIn t) := by
  subst hs
  have hvalues : valuesAt [s.home] (directFrom [] lines) = [t] := by
    rw [← eventsFrom_given, h]
    rfl
  have hnone : valuesAt s.path (directFrom [] lines) = [] :=
    List.eq_nil_iff_forall_not_mem.mpr fun v hv => by
      obtain ⟨event, hevent, hgiven⟩ :=
        exists_mem_of_directFrom (List.cons_ne_nil s.home []) (mem_valuesAt.mp hv)
      rw [h, List.mem_singleton] at hevent
      subst hevent
      cases hgiven
  refine ⟨mem_valuesAt.mp (hvalues ▸ List.mem_singleton_self t), ?_⟩
  rw [termsFor, hnone, hvalues]
  simp

theorem termsFor_of_given_eq_none
    (h : ∀ event ∈ eventsFrom [] lines [home], event.given? = none) :
    termsFor s lines = valuesAt s.path (directFrom [] lines) := by
  subst hs
  have hvalues : valuesAt [s.home] (directFrom [] lines) = [] := by
    rw [← eventsFrom_given]
    exact List.filterMap_eq_nil_iff.mpr h
  rw [termsFor, hvalues]
  simp

theorem termsFor_of_vacant (h : eventsFrom [] lines [home] = []) : termsFor s lines = [] := by
  rw [termsFor_of_given_eq_none hs (by simp [h])]
  subst hs
  refine List.eq_nil_iff_forall_not_mem.mpr fun v hv => ?_
  obtain ⟨event, hevent, -⟩ :=
    exists_mem_of_directFrom (List.cons_ne_nil s.home []) (mem_valuesAt.mp hv)
  rw [h] at hevent
  cases hevent

end Sections

/-! ## Sections of a file -/

theorem map_value_scalar (depth : Nat) (v? : Option Value) :
    (v?.map Term.scalar).map (Term.value depth) = v? := by
  cases v? with
  | none => rfl
  | some v => exact congrArg some (Term.value_scalar depth v)

/-- A setting that is given in an inline table, or not, is in its table, or not. -/
theorem lookup_of_inline {home : String} {inner : List (List String × Term)}
    (hinner : ∀ entry ∈ inner, Foreign (home :: entry.1) ∨
      ∃ other : Setting, home :: entry.1 = other.path) {depth : Nat} {entries : Entries}
    (hgrows : Grows (Term.value depth) (inlineLines inner) entries) {s : Setting}
    (hs : s.home = home) {v? : Option Value}
    (hgiven : valuesAt [s.key] inner = (v?.map Term.scalar).toList) :
    (Node.entryValues entries).lookup s.key = v? := by
  rw [← directFrom_inlineLines inner] at hgiven
  have hview := hgrows.view_of_given (List.cons_ne_nil _ _)
    (fun path _ _ _ => element_notMem_inlineLines inner path)
    (given_ne_none_of_inline hs hinner) hgiven
  rw [view_cons rfl, map_value_scalar] at hview
  exact lookup_of_view hview

section Files

variable {lines : List (Line Term)} {depth : Nat} {entries : Entries}
  (hgrows : Grows (Term.value depth) lines entries)
include hgrows

/-- So is one that is given by lines, if its section is a table. -/
theorem Spells.lookup_of_table {given : Given} (h : Spells lines given) {s : Setting}
    {origin : Origin} {inner : Entries}
    (hfind : entries.find? s.home = some (.table origin inner)) {v? : Option Value}
    (hgiven : valuesAt s.path (directFrom [] lines) = (v?.map Term.scalar).toList) :
    (Node.entryValues inner).lookup s.key = v? := by
  have hview : view _ [s.home, s.key] = _ := hgrows.view_of_given (List.cons_ne_nil _ _)
    (fun path _ hbegins _ hmem => (h.elements path hmem s).2 hbegins) (h.given_ne_none s) hgiven
  rw [view_cons rfl, hfind, view_cons rfl, map_value_scalar] at hview
  exact lookup_of_view hview

variable (hread : ∀ path t, .assignment path t ∈ lines → ∃ v, t.read depth = some v)
include hread

/-- **A section holds the settings that are given for it**, or is not there if there are none. -/
theorem Spells.exists_section {given : Given} (h : Spells lines given) (s : Setting) :
    ∃ values, ((Node.entryValues entries).lookup s.home).getD (.table []) = .table values ∧
      (values.map (·.1)).Nodup ∧
      ∀ other : Setting, other.home = s.home → values.lookup other.key = given.value other := by
  obtain ⟨place, htold, hplace⟩ := hgrows.told_top s.home
  rw [lookup_entryValues]
  cases htold with
  | vacant hevents =>
    refine ⟨[], by rw [eq_none_of_view hplace]; rfl, List.nodup_nil, fun other hother => ?_⟩
    have hnone : [] = ((given.value other).map Term.scalar).toList := by
      rw [← h.given other, termsFor_of_vacant hother hevents]
    cases hvalue : given.value other with
    | none => rfl
    | some v =>
      rw [hvalue] at hnone
      cases hnone
  | value hevents =>
    obtain ⟨ht, -⟩ := termsFor_of_value (rfl : s.home = s.home) hevents
    obtain ⟨inner, rfl, hinner⟩ := h.exists_inline ht
    obtain ⟨path, hpath⟩ := exists_assignment_of_directFrom ht
    obtain ⟨v, hv⟩ := hread path _ hpath
    obtain ⟨below, table, hbelow, rfl, -⟩ := Term.read_inline hv
    refine ⟨Node.entryValues table, ?_, ?_, fun other hother => lookup_of_inline hinner hbelow
      hother ((termsFor_of_value hother hevents).2.symm.trans (h.given other))⟩
    · rw [eq_value_of_view hplace, Term.value_eq hv]
      rfl
    · rw [keys_entryValues]
      exact hbelow.distinct.1
  | table _ hnone hadded =>
    obtain ⟨inner, hfind⟩ := eq_table_of_view hplace
    refine ⟨Node.entryValues inner, by rw [hfind]; rfl, ?_, fun other hother =>
      h.lookup_of_table hgrows (by rw [hother, hfind])
        ((termsFor_of_given_eq_none hother hnone).symm.trans (h.given other))⟩
    rw [keys_entryValues]
    have hinner : (Node.table _ inner).Distinct := hgrows.distinct.2 _ (Entries.mem_of_find? hfind)
    cases hinner with
    | table hkeys => exact hkeys
  | tables _ hadded =>
    exact absurd (by simp [Setting.path]) (h.elements _ (element_mem_of_added hadded) s).2

/-- **Where a setting is given twice**, its section is a list of tables. -/
theorem exists_tables_of_twice {s : Setting} (h : 2 ≤ (termsFor s lines).length) :
    ∃ last earlier, entries.find? s.home = some (.tables (last :: earlier)) := by
  obtain ⟨place, htold, hplace⟩ := hgrows.told_top s.home
  cases htold with
  | vacant hevents =>
    rw [termsFor_of_vacant rfl hevents] at h
    cases h
  | @value t hevents =>
    obtain ⟨ht, hterms⟩ := termsFor_of_value (rfl : s.home = s.home) hevents
    rw [hterms] at h
    cases t with
    | scalar => cases h
    | array => cases h
    | inline inner =>
      obtain ⟨path, hpath⟩ := exists_assignment_of_directFrom ht
      obtain ⟨v, hv⟩ := hread path _ hpath
      obtain ⟨below, table, hbelow, -⟩ := Term.read_inline hv
      obtain ⟨place, htold, -⟩ := hbelow.told_top s.key
      have hlength := htold.length_valuesAt_le
      rw [directFrom_inlineLines] at hlength
      exact absurd (h.trans hlength) (by decide)
  | table _ hnone hadded =>
    rw [termsFor_of_given_eq_none rfl hnone] at h
    have hlists : ∀ path, path ≠ [] → path <+: s.path → path ≠ s.path → .element path ∉ lines := by
      intro path hne hbegins hother hmem
      rw [Setting.eq_home_of_prefix hne hbegins hother] at hmem
      exact hadded (added_mem_eventsFrom hmem)
    obtain ⟨place, -, htold⟩ := hgrows.consistent.told (List.cons_ne_nil _ _) hlists
    exact absurd (h.trans htold.length_valuesAt_le) (by decide)
  | tables _ hadded => exact eq_tables_of_view hplace

end Files

/-! ## Files -/

/-- The settings in a section that holds what is given for it. -/
theorem Given.server_eq (given : Given) {values : List (String × Value)}
    (hkeys : (values.map (·.1)).Nodup)
    (h : ∀ s : Setting, s.home = "server" → values.lookup s.key = given.value s) :
    ServerSection.ofTable values = .ok given.settings.server := by
  obtain ⟨listen, concurrent, maxSessions, backlog, _⟩ := given
  refine ServerSection.ofTable_eq hkeys ⟨?_, ?_, ?_, ?_⟩
  · rw [readAt, show values.lookup "listen" = listen.map .string from h .listen rfl]
    cases listen <;> rfl
  · rw [readAt, show values.lookup "concurrent" = concurrent.map .boolean from h .concurrent rfl]
    cases concurrent <;> rfl
  · rw [readAt, show values.lookup "max_sessions" = maxSessions.map fun n => .integer n.val from
      h .maxSessions rfl]
    cases maxSessions <;> rfl
  · rw [readAt, show values.lookup "backlog" = backlog.map fun n => .integer n.toInt from
      h .backlog rfl]
    cases backlog with
    | none => rfl
    | some n => exact if_pos ⟨n.le_toInt, n.toInt_lt⟩

theorem Given.logging_eq (given : Given) {values : List (String × Value)}
    (hkeys : (values.map (·.1)).Nodup)
    (h : ∀ s : Setting, s.home = "logging" → values.lookup s.key = given.value s) :
    LoggingSection.ofTable values = .ok given.settings.logging := by
  obtain ⟨_, _, _, _, level⟩ := given
  refine LoggingSection.ofTable_eq hkeys ?_
  rw [readAt, show values.lookup "level" = level.map .string from h .level rfl]
  cases level <;> rfl

theorem Spells.ofTable_eq {lines : List (Line Term)} {given : Given} (h : Spells lines given)
    {table : List (String × Value)} (htable : readFile lines = some table) :
    FileSettings.ofTable table = .ok given.settings := by
  obtain ⟨entries, hgrows, rfl, hread⟩ := grows_of_readFile htable
  have hkeys : ((Node.entryValues entries).map (·.1)).Nodup := by
    rw [keys_entryValues]
    exact hgrows.distinct.1
  refine FileSettings.ofTable_eq hkeys ?_ ?_
  · obtain ⟨values, hvalues, hnodup, hlookup⟩ := h.exists_section hgrows hread .listen
    exact (readAt_section ServerSection.ofTable ServerSection.ofValue (fun _ => rfl) rfl
      hvalues).trans (given.server_eq hnodup hlookup)
  · obtain ⟨values, hvalues, hnodup, hlookup⟩ := h.exists_section hgrows hread .level
    exact (readAt_section LoggingSection.ofTable LoggingSection.ofValue (fun _ => rfl) rfl
      hvalues).trans (given.logging_eq hnodup hlookup)

theorem ofTable_ne_of_twice {lines : List (Line Term)} {table : List (String × Value)}
    (htable : readFile lines = some table) {s : Setting} (h : 2 ≤ (termsFor s lines).length)
    (settings : FileSettings) : FileSettings.ofTable table ≠ .ok settings := by
  obtain ⟨entries, hgrows, rfl, hread⟩ := grows_of_readFile htable
  intro hsettings
  obtain ⟨last, earlier, hfind⟩ := exists_tables_of_twice hgrows hread h
  obtain ⟨values, items, hvalue⟩ := exists_toValue_tables last earlier
  have hhome : s.home = "server" ∨ s.home = "logging" := by cases s <;> simp [Setting.home]
  refine FileSettings.lookup_ne_tables hsettings hhome values items ?_
  rw [lookup_entryValues, hfind, Option.map_some, hvalue]

/-- **Every spelling of settings loads to them**, and to the defaults of the settings that are not
given: sections may have headers, dotted keys or inline tables, texts may be quoted and escaped in
any way, and foreign keys and tables may stand among them.  **A setting that is given twice is
refused**, in whatever notations. -/
theorem ofBytes_of_spelled {lines : List (Line Term)} {text : List Char} {bytes : Bytes}
    (htext : FileText lines text) (hbytes : Text.Utf8.decode? bytes = some text) (path : String) :
    (∀ given, WellFormed lines → (∀ line ∈ lines, line.Within) → Spells lines given →
      FileSettings.ofBytes path bytes = .ok given.settings) ∧
    (∀ s, 2 ≤ (termsFor s lines).length →
      ∃ error, FileSettings.ofBytes path bytes = .error error) := by
  have hparse := parse_eq htext
  refine ⟨fun given hlines hwithin hspells => ?_, fun s htwice => ?_⟩
  · obtain ⟨table, htable⟩ := exists_readFile hlines hwithin
    rw [FileSettings.ofBytes, hbytes]
    simp only [hparse, htable, hspells.ofTable_eq htable]
    rfl
  · rw [FileSettings.ofBytes, hbytes]
    simp only [hparse]
    cases htable : readFile lines with
    | none => exact ⟨_, rfl⟩
    | some table =>
      cases hsettings : FileSettings.ofTable table with
      | error error => exact ⟨.illTyped path error, by simp only [hsettings]; rfl⟩
      | ok settings => exact absurd hsettings (ofTable_ne_of_twice htable htwice settings)

/-- A bare key by itself. -/
theorem pathText_bare {x : List Char} (hx : x ≠ []) (h : x.all isBare = true) :
    PathText [String.ofList x] x := by
  have hpath := PathText.last (.bare hx (List.all_eq_true.mp h)) blank_nil
  rwa [List.append_nil] at hpath

theorem ofBytes_of_header_and_twice :
    FileSettings.ofBytes "echo.toml" "[server]\nlisten=\"\\n\"\n[x]".toUTF8.toList =
      .ok { server := { listen := "\n" } } ∧
    ∃ error, FileSettings.ofBytes "echo.toml"
      "logging.level='a'\nlogging=\x7blevel='b'\x7d".toUTF8.toList = .error error := by
  have hserver : PathText ["server"] ['s', 'e', 'r', 'v', 'e', 'r'] :=
    pathText_bare (by simp) rfl
  have hlisten : PathText ["listen"] ['l', 'i', 's', 't', 'e', 'n'] :=
    pathText_bare (by simp) rfl
  have hlogging : PathText ["logging"] ['l', 'o', 'g', 'g', 'i', 'n', 'g'] :=
    pathText_bare (by simp) rfl
  have hlevel : PathText ["level"] ['l', 'e', 'v', 'e', 'l'] := pathText_bare (by simp) rfl
  have hx : PathText ["x"] ['x'] := pathText_bare (by simp) rfl
  constructor
  · have htext : FileText
        [.table ["server"], .assignment ["listen"] (.scalar (.string "\n")), .table ["x"]]
        "[server]\nlisten=\"\\n\"\n[x]".toList :=
      .plain (.line blank_nil (.table blank_nil hserver) (.blank blank_nil) .lf
        (.line blank_nil
          (.assignment (.mk hlisten blank_nil (.scalar (.string (.basic
            (.char (.letter (l := 'n') (c := '\n') (by decide)) .nil))))))
          (.blank blank_nil) .lf
          (.last blank_nil (.table blank_nil hx) (.blank blank_nil))))
    refine (ofBytes_of_spelled htext (by decide +kernel) "echo.toml").1
      { listen := some "\n" } ⟨by decide +kernel, ?_⟩ ?_ ⟨?_, ?_, ?_, ?_⟩
    · intro path t ht
      obtain ⟨rfl, rfl⟩ : path = ["listen"] ∧ t = .scalar (.string "\n") := by simpa using ht
      exact .scalar _
    · simp [Line.Within, Term.Within, maxDepth]
    · intro s
      cases s <;> rfl
    · intro path hpath
      obtain rfl | rfl : path = ["server"] ∨ path = ["x"] := by simpa using hpath
      · exact .inr ⟨.listen, rfl⟩
      · refine .inl fun s => ?_
        cases s <;> decide
    · intro path hpath
      simp at hpath
    · intro entry hentry
      obtain rfl := List.mem_singleton.mp hentry
      exact .inr (.inl ⟨.listen, rfl⟩)
  · have hliteral : ∀ c, isPlain c → c ≠ '\'' →
        Spelled (.scalar (.string (String.ofList [c]))) ['\'', c, '\''] := fun c hplain hquote =>
      .scalar (.string (.literal (x := [c]) (by simpa [LiteralText] using ⟨hplain, hquote⟩)))
    have hdotted : PathText ["logging", "level"] "logging.level".toList :=
      .dot (.bare (x := ['l', 'o', 'g', 'g', 'i', 'n', 'g']) (by simp) (List.all_eq_true.mp rfl))
        blank_nil blank_nil hlevel
    have htext : FileText
        [.assignment ["logging", "level"] (.scalar (.string "a")),
          .assignment ["logging"] (.inline [(["level"], .scalar (.string "b"))])]
        "logging.level='a'\nlogging=\x7blevel='b'\x7d".toList :=
      .plain (.line blank_nil
        (.assignment (.mk hdotted blank_nil (hliteral 'a' rfl (by decide))))
        (.blank blank_nil) .lf
        (.last blank_nil
          (.assignment (.mk hlogging blank_nil (.inline (.last blank_nil
            (.mk hlevel blank_nil (hliteral 'b' rfl (by decide))) blank_nil))))
          (.blank blank_nil)))
    exact (ofBytes_of_spelled htext (by decide +kernel) "echo.toml").2 .level le_rfl

/-! ## The limits count -/

/-- An array in an array, so many times. -/
def nested : Nat → Term
  | 0 => .array []
  | n + 1 => .array [nested n]

def nestedText : Nat → List Char
  | 0 => ['[', ']']
  | n + 1 => '[' :: (nestedText n ++ [']'])

theorem spelled_nested (n : Nat) : Spelled (nested n) (nestedText n) := by
  induction n with
  | zero => exact .array (.none (.blank blank_nil))
  | succ n ih =>
    have hitems := ItemsText.last (.blank blank_nil) ih (.blank blank_nil)
    rw [List.nil_append, List.append_nil] at hitems
    exact .array hitems

theorem wellFormed_nested (n : Nat) : (nested n).WellFormed := by
  induction n with
  | zero => exact .array (by simp)
  | succ n ih => exact .array (by simpa using ih)

/-- On too few levels such an array has no value. -/
theorem read_nested {depth n : Nat} (h : depth ≤ n) : (nested n).read depth = none := by
  induction depth generalizing n with
  | zero => cases n <;> rfl
  | succ depth ih =>
    obtain ⟨n, rfl⟩ := Nat.exists_eq_add_one_of_ne_zero (Nat.ne_zero_of_lt h)
    rw [nested, Term.read, List.mapM_cons, ih (Nat.le_of_succ_le_succ h)]
    rfl

/-- Files that give no setting, and are refused all the same: arrays and dotted keys may be too deep,
numbers too large, and a dotted key does not put a value into a table that is there only because a
longer header named it. -/
theorem refused_of_beyond_limits :
    (FileText [.assignment ["a"] (nested 79)] ('a' :: '=' :: nestedText 79) ∧
      WellFormed [.assignment ["a"] (nested 79)] ∧ Spells [.assignment ["a"] (nested 79)] {} ∧
      Toml.parse (String.ofList ('a' :: '=' :: nestedText 79)) = none) ∧
    Toml.parse (String.ofList ((List.replicate 79 ['a', '.']).flatten ++ ['a', '=', '1'])) = none ∧
    Toml.parse "a=1e400" = none ∧
    Toml.parse "[a.b.c]\n[a]\nb.x=1" = none := by
  refine ⟨?_, by decide +kernel, by decide +kernel, by decide +kernel⟩
  have hassignment : LineText (.assignment ["a"] (nested 79)) ('a' :: '=' :: nestedText 79) :=
    .assignment (.mk (pathText_bare (x := ['a']) (by simp) rfl) blank_nil (spelled_nested 79))
  have htext : FileText [.assignment ["a"] (nested 79)] ('a' :: '=' :: nestedText 79) := by
    have hlines := LinesText.last blank_nil hassignment (.blank blank_nil)
    rw [List.nil_append, List.append_nil] at hlines
    exact .plain hlines
  refine ⟨htext, ⟨by decide +kernel, fun path t ht => ?_⟩, ⟨fun s => ?_, ?_, ?_, ?_⟩, ?_⟩
  · obtain ⟨-, rfl⟩ : path = ["a"] ∧ t = nested 79 := by simpa using ht
    exact wellFormed_nested 79
  · cases s <;> rfl
  · simp
  · simp
  · intro entry hentry
    obtain rfl := List.mem_singleton.mp hentry
    refine .inl fun s => ?_
    cases s <;> decide
  · rw [parse_eq htext, readFile, List.mapM_cons, Line.read, readEntry, read_nested (by decide)]
    rfl

end DeflateEcho.Settings
