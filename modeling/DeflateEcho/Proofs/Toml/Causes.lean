import Mathlib
import DeflateEcho.Proofs.Toml.Events

/-!
# Proofs/Toml/Causes — where the events at an address come from

Each event comes from a line: a value from an assignment just there, and anything else from a header
or a dotted key that goes there or further, or from a list of tables that is added to (`Cause`).  So
the values that are given at an address are those of the assignments to it (`eventsFrom_given`), and
in a file that goes together at most one is.
-/

namespace DeflateEcho.Toml

variable {α : Type}

/-! ## The values of a file -/

/-- The path of a header. -/
def Line.headed : Line α → Option (List String)
  | .table path => some path
  | .element path => some path
  | .assignment _ _ => none

/-- The value that a line gives, with its address. -/
def Line.direct (header : List String) : Line α → List (List String × α)
  | .assignment path v => [(header ++ path, v)]
  | _ => []

/-- **The values that lines give**, each with its address. -/
def directFrom (header : List String) : List (Line α) → List (List String × α)
  | [] => []
  | line :: lines => line.direct header ++ directFrom (line.header header) lines

/-- The values at an address. -/
def valuesAt (a : List String) (given : List (List String × α)) : List α :=
  (given.filter (·.1 = a)).map (·.2)

theorem mem_valuesAt {a : List String} {given : List (List String × α)} {v : α} :
    v ∈ valuesAt a given ↔ (a, v) ∈ given := by
  simp [valuesAt]

theorem valuesAt_append (a : List String) (first second : List (List String × α)) :
    valuesAt a (first ++ second) = valuesAt a first ++ valuesAt a second := by
  simp [valuesAt]

theorem eq_nil_of_prefix_dropLast {l : List String} (h : l <+: l.dropLast) : l = [] := by
  have hlength := h.length_le
  rw [List.length_dropLast] at hlength
  exact List.length_eq_zero_iff.mp (by omega)

theorem dropLast_append_lastKey (path : List String) : path.dropLast ++ lastKey path = path := by
  obtain rfl | ⟨tables, key, rfl⟩ := path.eq_nil_or_concat'
  · rfl
  · rw [List.dropLast_concat, lastKey, List.getLast?_concat]
    rfl

section Along

variable {dotted : Bool} {happens : List String → List (Event α)}

theorem mem_along {path a : List String} {event : Event α}
    (h : event ∈ along dotted happens path a) :
    (event = .passed dotted ∧ a ≠ [] ∧ a <+: path) ∨ ∃ b, a = path ++ b ∧ event ∈ happens b := by
  induction path generalizing a with
  | nil => exact .inr ⟨a, rfl, h⟩
  | cons key path ih =>
    cases a with
    | nil => cases h
    | cons k a =>
      rw [along] at h
      split at h
      · next hk =>
        subst hk
        obtain hpassed | hbehind := List.mem_append.mp h
        · split at hpassed
          · next ha =>
            exact .inl ⟨List.mem_singleton.mp hpassed, by simp, by simp [ha]⟩
          · cases hpassed
        · obtain ⟨hevent, -, hbegins⟩ | ⟨b, rfl, hb⟩ := ih hbehind
          · exact .inl ⟨hevent, by simp, by simpa using hbegins⟩
          · exact .inr ⟨b, rfl, hb⟩
      · cases h

theorem passed_mem_along {path a : List String} (ha : a ≠ []) (hbegins : a <+: path) :
    .passed dotted ∈ along dotted happens path a := by
  induction path generalizing a with
  | nil => exact absurd (List.prefix_nil.mp hbegins) ha
  | cons key path ih =>
    cases a with
    | nil => exact absurd rfl ha
    | cons k a =>
      obtain ⟨rfl, hrest⟩ := List.cons_prefix_cons.mp hbegins
      rw [along, if_pos rfl, List.mem_append]
      by_cases hnil : a = []
      · exact .inl (by simp [hnil])
      · exact .inr (ih hnil hrest)

theorem mem_along_append {path b : List String} {event : Event α} (h : event ∈ happens b) :
    event ∈ along dotted happens path (path ++ b) := by
  induction path with
  | nil => exact h
  | cons key path ih =>
    rw [List.cons_append, along, if_pos rfl]
    exact List.mem_append_right _ ih

/-- Along a path no value is given but at its end. -/
theorem along_given {keys : List String} {vs : List α}
    (h : ∀ b, (happens b).filterMap Event.given? = if b = keys then vs else [])
    (path a : List String) :
    (along dotted happens path a).filterMap Event.given? = if a = path ++ keys then vs else [] := by
  induction path generalizing a with
  | nil => exact h a
  | cons key path ih =>
    cases a with
    | nil => rfl
    | cons k a =>
      rw [along]
      split
      · next hk =>
        subst hk
        have hpassed : (if a = [] then [Event.passed (α := α) dotted] else []).filterMap
            Event.given? = [] := by split <;> rfl
        rw [List.filterMap_append, hpassed, List.nil_append, ih]
        simp
      · next hk => simp [hk]

end Along

section Lines

variable {header a : List String} {line : Line α}

theorem Line.events_given (line : Line α) (header a : List String) :
    (line.events header a).filterMap Event.given? = valuesAt a (line.direct header) := by
  cases line with
  | table path =>
    have hnone : ∀ b, (openedAt (α := α) (lastKey path) b).filterMap Event.given? =
        if b = [] then [] else [] := fun b => by
      rw [openedAt]
      split <;> simp [Event.given?]
    rw [Line.events, along_given hnone]
    simp [valuesAt, Line.direct]
  | element path =>
    have hnone : ∀ b, (addedAt (α := α) (lastKey path) b).filterMap Event.given? =
        if b = [] then [] else [] := fun b => by
      rw [addedAt]
      split
      · simp [Event.given?]
      · split <;> simp [Event.given?]
    rw [Line.events, along_given hnone]
    simp [valuesAt, Line.direct]
  | assignment path v =>
    have hvalue : ∀ b, (givenAt (1 < path.length) (lastKey path) v b).filterMap Event.given? =
        if b = lastKey path then [v] else [] := fun b => by
      rw [givenAt, List.filterMap_append]
      split <;> split <;> rfl
    have hdirect : valuesAt a (Line.direct header (.assignment path v)) =
        if a = header ++ path then [v] else [] := by
      by_cases ha : a = header ++ path
      · simp [valuesAt, Line.direct, ha]
      · simp [valuesAt, Line.direct, ha, Ne.symm ha]
    rw [Line.events, along_given (along_given hvalue _) header a, hdirect, dropLast_append_lastKey]

theorem Line.header_eq (line : Line α) (header : List String) :
    line.header header = header ∨ line.headed = some (line.header header) := by
  cases line with
  | assignment => exact .inl rfl
  | table => exact .inr rfl
  | element => exact .inr rfl

theorem Line.exists_mem_of_direct {k : String} {v : α} (ha : a ≠ [])
    (h : (a ++ [k], v) ∈ line.direct header) :
    ∃ event ∈ line.events header a, event.given? = none := by
  cases line with
  | table => cases h
  | element => cases h
  | assignment path w =>
    obtain ⟨haddress, -⟩ := Prod.mk.inj (List.mem_singleton.mp h)
    obtain rfl | ⟨tables, key, rfl⟩ := path.eq_nil_or_concat'
    · have hbegins : a <+: header := ⟨[k], by simpa using haddress⟩
      exact ⟨_, passed_mem_along ha hbegins, rfl⟩
    · rw [← List.append_assoc] at haddress
      obtain ⟨rfl, -⟩ := List.append_inj' haddress rfl
      refine ⟨.filled (1 < (tables ++ [key]).length), ?_, rfl⟩
      have hfilled : .filled (1 < (tables ++ [key]).length) ∈
          along true (givenAt (1 < (tables ++ [key]).length) (lastKey (tables ++ [key])) w)
            tables (tables ++ []) := mem_along_append (by simp [givenAt])
      rw [List.append_nil] at hfilled
      rw [Line.events, List.dropLast_concat]
      exact mem_along_append hfilled

end Lines

/-! ## The events of a file -/

section Files

variable {header a : List String} {lines : List (Line α)}

theorem eventsFrom_given (header : List String) (lines : List (Line α)) (a : List String) :
    (eventsFrom header lines a).filterMap Event.given? = valuesAt a (directFrom header lines) := by
  induction lines generalizing header with
  | nil => rfl
  | cons line lines ih =>
    rw [eventsFrom, directFrom, List.filterMap_append, Line.events_given, ih, valuesAt_append]

theorem Told.length_valuesAt_le {place : Place α} (h : Told (eventsFrom header lines a) place) :
    (valuesAt a (directFrom header lines)).length ≤ 1 := by
  rw [← eventsFrom_given]
  exact h.given_length_le

/-- Each value is given by a line, under some header. -/
theorem exists_line_of_directFrom {entry : List String × α} (h : entry ∈ directFrom header lines) :
    ∃ line ∈ lines, ∃ current, entry ∈ line.direct current ∧
      ∀ a, line.events current a ⊆ eventsFrom header lines a := by
  induction lines generalizing header with
  | nil => cases h
  | cons line lines ih =>
    obtain hline | hlines := List.mem_append.mp h
    · exact ⟨line, List.mem_cons_self, header, hline, fun a => List.subset_append_left _ _⟩
    · obtain ⟨other, hother, current, hdirect, hevents⟩ := ih hlines
      exact ⟨other, List.mem_cons_of_mem _ hother, current, hdirect, fun a _ hevent =>
        List.mem_append_right _ (hevents a hevent)⟩

theorem exists_mem_of_directFrom {k : String} {v : α} (ha : a ≠ [])
    (h : (a ++ [k], v) ∈ directFrom header lines) :
    ∃ event ∈ eventsFrom header lines a, event.given? = none := by
  obtain ⟨line, -, current, hdirect, hevents⟩ := exists_line_of_directFrom h
  obtain ⟨event, hevent, hgiven⟩ := Line.exists_mem_of_direct ha hdirect
  exact ⟨event, hevents a hevent, hgiven⟩

theorem exists_assignment_of_directFrom {v : α} (h : (a, v) ∈ directFrom header lines) :
    ∃ path, .assignment path v ∈ lines := by
  obtain ⟨line, hline, current, hdirect, -⟩ := exists_line_of_directFrom h
  cases line with
  | table => cases hdirect
  | element => cases hdirect
  | assignment path w =>
    obtain ⟨-, rfl⟩ := Prod.mk.inj (List.mem_singleton.mp hdirect)
    exact ⟨path, hline⟩

theorem added_mem_eventsFrom (h : .element a ∈ lines) : .added ∈ eventsFrom header lines a := by
  induction lines generalizing header with
  | nil => cases h
  | cons line lines ih =>
    obtain rfl | h := List.mem_cons.mp h
    · refine List.mem_append_left _ ?_
      rw [Line.events]
      have hlast : Event.added (α := α) ∈ along false (addedAt (lastKey a)) a.dropLast
          (a.dropLast ++ lastKey a) := mem_along_append (by simp [addedAt])
      rwa [dropLast_append_lastKey] at hlast
    · exact List.mem_append_right _ (ih h)

end Files

/-! ## Causes -/

/-- An event that goes through a table, or opens or fills it. -/
inductive Event.Enters : Event α → Prop where
  | passed (dotted : Bool) : Enters (.passed dotted)
  | filled (dotted : Bool) : Enters (.filled dotted)
  | opened : Enters .opened

/-- **Why something happens at an address**: the header in force before the lines, a header among
them or a value goes there or further, a list of tables is added to, there or further up, or a value
is given. -/
inductive Cause (header : List String) (lines : List (Line α)) (a : List String) :
    Event α → Prop where
  | current {event : Event α} (hevent : event.Enters) (h : a <+: header) :
    Cause header lines a event
  | headed {event : Event α} {line : Line α} {path : List String} (hevent : event.Enters)
    (hline : line ∈ lines) (hpath : line.headed = some path) (h : a <+: path) :
    Cause header lines a event
  | beyond {event : Event α} {entry : List String × α} (hevent : event.Enters)
    (hentry : entry ∈ directFrom header lines) (h : a <+: entry.1) (hne : a ≠ entry.1) :
    Cause header lines a event
  | added (h : .element a ∈ lines) : Cause header lines a .added
  | renewed {path : List String} (hpath : .element path ∈ lines) (h : path <+: a) (hne : path ≠ a) :
    Cause header lines a .renewed
  | given {v : α} (h : (a, v) ∈ directFrom header lines) : Cause header lines a (.given v)

section Causes

variable {header a : List String} {lines : List (Line α)} {event : Event α}

theorem cause_table {path : List String} (h : event ∈ (Line.table path).events header a) :
    Cause header [.table path] a event := by
  obtain ⟨rfl, -, hbegins⟩ | ⟨b, rfl, hb⟩ := mem_along h
  · exact .headed (.passed _) List.mem_cons_self rfl (hbegins.trans path.dropLast_prefix)
  · rw [openedAt] at hb
    split at hb
    · next hlast =>
      obtain rfl := List.mem_singleton.mp hb
      rw [hlast, dropLast_append_lastKey]
      exact .headed .opened List.mem_cons_self rfl List.prefix_rfl
    · cases hb

theorem cause_element {path : List String} (h : event ∈ (Line.element path).events header a) :
    Cause header [.element path] a event := by
  obtain ⟨rfl, -, hbegins⟩ | ⟨b, rfl, hb⟩ := mem_along h
  · exact .headed (.passed _) List.mem_cons_self rfl (hbegins.trans path.dropLast_prefix)
  have hpath := dropLast_append_lastKey path
  rw [addedAt] at hb
  split at hb
  · next hlast =>
    obtain rfl := List.mem_singleton.mp hb
    rw [hlast, hpath]
    exact .added List.mem_cons_self
  · next hlast =>
    split at hb
    · next hbegins =>
      obtain rfl := List.mem_singleton.mp hb
      have hline : .element path ∈ [Line.element (α := α) path] := List.mem_cons_self
      refine .renewed hline ?_ fun heq => hlast ?_
      · nth_rewrite 1 [← hpath]
        exact (List.prefix_append_right_inj _).mpr hbegins
      · nth_rewrite 1 [← hpath] at heq
        exact (List.append_cancel_left heq).symm
    · cases hb

theorem cause_assignment {path : List String} {v : α}
    (h : event ∈ (Line.assignment path v).events header a) :
    Cause header [.assignment path v] a event := by
  obtain ⟨rfl, -, hbegins⟩ | ⟨b, rfl, hb⟩ := mem_along h
  · exact .current (.passed _) hbegins
  obtain ⟨rfl, hne, hbegins⟩ | ⟨b, rfl, hend⟩ := mem_along hb
  · refine .beyond (.passed _) List.mem_cons_self
      ((List.prefix_append_right_inj _).mpr (hbegins.trans path.dropLast_prefix)) fun heq => ?_
    obtain rfl := List.append_cancel_left heq
    exact hne (eq_nil_of_prefix_dropLast hbegins)
  obtain hfilled | hgiven := List.mem_append.mp hend
  · split at hfilled
    · next hnil =>
      obtain rfl := List.mem_singleton.mp hfilled
      rw [hnil, List.append_nil]
      obtain rfl | ⟨tables, key, rfl⟩ := path.eq_nil_or_concat'
      · exact .current (.filled _) (by simp)
      · rw [List.dropLast_concat]
        exact .beyond (.filled _) List.mem_cons_self (by simp) (by simp)
    · cases hfilled
  · split at hgiven
    · next hlast =>
      obtain rfl := List.mem_singleton.mp hgiven
      rw [hlast, dropLast_append_lastKey]
      exact .given List.mem_cons_self
    · cases hgiven

theorem Cause.head {line : Line α} (h : Cause header [line] a event) :
    Cause header (line :: lines) a event := by
  have hlines : ∀ {other}, other ∈ [line] → other ∈ line :: lines := fun h =>
    List.mem_singleton.mp h ▸ List.mem_cons_self
  have hdirect : ∀ {entry}, entry ∈ directFrom header [line] →
      entry ∈ directFrom header (line :: lines) := fun h =>
    List.mem_append_left _ ((List.append_nil (line.direct header)) ▸ h)
  cases h with
  | current hevent h => exact .current hevent h
  | headed hevent hline hpath h => exact .headed hevent (hlines hline) hpath h
  | beyond hevent hentry h hne => exact .beyond hevent (hdirect hentry) h hne
  | added h => exact .added (hlines h)
  | renewed hpath h hne => exact .renewed (hlines hpath) h hne
  | given h => exact .given (hdirect h)

theorem Cause.tail {line : Line α} (h : Cause (line.header header) lines a event) :
    Cause header (line :: lines) a event := by
  cases h with
  | current hevent h =>
    obtain hsame | hheaded := line.header_eq header
    · exact .current hevent (hsame ▸ h)
    · exact .headed hevent List.mem_cons_self hheaded h
  | headed hevent hline hpath h => exact .headed hevent (List.mem_cons_of_mem _ hline) hpath h
  | beyond hevent hentry h hne => exact .beyond hevent (List.mem_append_right _ hentry) h hne
  | added h => exact .added (List.mem_cons_of_mem _ h)
  | renewed hpath h hne => exact .renewed (List.mem_cons_of_mem _ hpath) h hne
  | given h => exact .given (List.mem_append_right _ h)

/-- **Nothing happens without a cause.** -/
theorem cause_of_mem (h : event ∈ eventsFrom header lines a) : Cause header lines a event := by
  induction lines generalizing header with
  | nil => cases h
  | cons line lines ih =>
    obtain hline | hlines := List.mem_append.mp h
    · cases line with
      | table path => exact (cause_table hline).head
      | element path => exact (cause_element hline).head
      | assignment path v => exact (cause_assignment hline).head
    · exact (ih hlines).tail

theorem exists_element_of_renewed (h : .renewed ∈ eventsFrom header lines a) :
    ∃ path, .element path ∈ lines ∧ path <+: a ∧ path ≠ a := by
  cases cause_of_mem h with
  | current hevent | headed hevent | beyond hevent => cases hevent
  | renewed hpath h hne => exact ⟨_, hpath, h, hne⟩

theorem element_mem_of_added (h : .added ∈ eventsFrom header lines a) : .element a ∈ lines := by
  cases cause_of_mem h with
  | current hevent | headed hevent | beyond hevent => cases hevent
  | added h => exact h

end Causes

/-! ## Consistent files -/

section Lives

variable {lines : List (Line α)} (h : Consistent lines)
include h

/-- No header without keys stands in a file that goes together. -/
theorem Consistent.element_nil_notMem : .element [] ∉ lines := by
  intro hmem
  have hkept : .renewed ∉ eventsFrom [] lines [] := fun hrenewed =>
    have ⟨path, _, hbegins, hne⟩ := exists_element_of_renewed hrenewed
    hne (List.prefix_nil.mp hbegins)
  obtain ⟨place, hplace⟩ := Option.ne_none_iff_exists'.mp (h [])
  exact ((run_table hkept hplace).2 _ (added_mem_eventsFrom hmem)).2 rfl

/-- **What stands at an address in the end** tells what the lines did there, unless the address lies
in a list of tables. -/
theorem Consistent.told {a : List String} (ha : a ≠ [])
    (hlists : ∀ path, path ≠ [] → path <+: a → path ≠ a → .element path ∉ lines) :
    ∃ place, life a lines = some place ∧ Told (eventsFrom [] lines a) place := by
  have hkept : .renewed ∉ eventsFrom [] lines a := fun hrenewed => by
    obtain ⟨path, hmem, hbegins, hne⟩ := exists_element_of_renewed hrenewed
    refine hlists path ?_ hbegins hne hmem
    rintro rfl
    exact h.element_nil_notMem hmem
  obtain ⟨place, hplace⟩ := Option.ne_none_iff_exists'.mp (h a)
  refine ⟨place, hplace, told_of_run hkept ?_⟩
  rwa [life, Place.initial, if_neg ha] at hplace

theorem Consistent.told_top (k : String) :
    ∃ place, life [k] lines = some place ∧ Told (eventsFrom [] lines [k]) place := by
  refine h.told (by simp) fun path hne hbegins hother => ?_
  cases path with
  | nil => exact absurd rfl hne
  | cons k' path =>
    obtain ⟨rfl, hnil⟩ := List.cons_prefix_cons.mp hbegins
    exact absurd (by rw [List.prefix_nil.mp hnil]) hother

end Lives

end DeflateEcho.Toml
