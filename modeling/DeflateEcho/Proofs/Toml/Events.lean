import Mathlib
import DeflateEcho.Proofs.Toml.Places

/-!
# Proofs/Toml/Events — what happened at an address

What stands at an address in the end tells what its lines did there: a value was given once and
nothing else happened, or a list of tables was added to (`told_of_run`).  This is said for any
content of the assignments, and what the content is changes nothing (`life_map`).
-/

namespace DeflateEcho.Toml

variable {α β : Type}

/-! ## Other contents -/

def Place.map (f : α → β) : Place α → Place β
  | .vacant => .vacant
  | .value a => .value (f a)
  | .table origin => .table origin
  | .tables count => .tables count

def Event.map (f : α → β) : Event α → Event β
  | .passed dotted => .passed dotted
  | .filled dotted => .filled dotted
  | .opened => .opened
  | .added => .added
  | .renewed => .renewed
  | .given a => .given (f a)

def Line.map (f : α → β) : Line α → Line β
  | .table path => .table path
  | .element path => .element path
  | .assignment path a => .assignment path (f a)

section Map

variable (f : α → β)

theorem Place.step_map (place : Place α) (event : Event α) :
    (place.map f).step (event.map f) = (place.step event).map (Place.map f) := by
  rcases place with _ | a | o | _ | n <;> rcases event with dotted | dotted | _ | _ | _ | b
  all_goals first
    | rfl
    | cases o <;> rfl
    | cases dotted <;> rfl
    | cases o <;> cases dotted <;> rfl

theorem Place.run_map (place : Place α) (events : List (Event α)) :
    (place.map f).run (events.map (Event.map f)) = (place.run events).map (Place.map f) := by
  induction events generalizing place with
  | nil => rfl
  | cons event events ih =>
    rw [List.map_cons, Place.run_cons, Place.run_cons, Place.step_map]
    cases place.step event with
    | none => rfl
    | some place => exact ih place

theorem along_map (dotted : Bool) (happens : List String → List (Event α))
    (path a : List String) :
    along dotted (fun a => (happens a).map (Event.map f)) path a =
      (along dotted happens path a).map (Event.map f) := by
  induction path generalizing a with
  | nil => rfl
  | cons key path ih =>
    cases a with
    | nil => rfl
    | cons k a =>
      rw [along, along, ih]
      split
      · rw [List.map_append]
        congr 1
        split <;> rfl
      · rfl

theorem Line.events_map (header : List String) (line : Line α) (a : List String) :
    (line.map f).events header a = (line.events header a).map (Event.map f) := by
  cases line with
  | table path =>
    rw [Line.map, Line.events, Line.events, ← along_map]
    congr 1
    funext a
    rw [openedAt, openedAt]
    split <;> rfl
  | element path =>
    rw [Line.map, Line.events, Line.events, ← along_map]
    congr 1
    funext a
    rw [addedAt, addedAt]
    split
    · rfl
    · split <;> rfl
  | assignment path v =>
    rw [Line.map, Line.events, Line.events, ← along_map]
    congr 1
    funext a
    rw [← along_map]
    congr 1
    funext a
    rw [givenAt, givenAt, List.map_append]
    congr 1
    · split <;> rfl
    · split <;> rfl

theorem eventsFrom_map (header : List String) (lines : List (Line α)) (a : List String) :
    eventsFrom header (lines.map (Line.map f)) a =
      (eventsFrom header lines a).map (Event.map f) := by
  induction lines generalizing header with
  | nil => rfl
  | cons line lines ih =>
    have hheader : (line.map f).header header = line.header header := by cases line <;> rfl
    rw [List.map_cons, eventsFrom, eventsFrom, Line.events_map, hheader, ih, List.map_append]

/-- **What stands at an address does not depend on what the contents are.** -/
theorem life_map (a : List String) (lines : List (Line α)) :
    life a (lines.map (Line.map f)) = (life a lines).map (Place.map f) := by
  have hinitial : (Place.initial a : Place β) = (Place.initial a : Place α).map f := by
    unfold Place.initial
    split <;> rfl
  rw [life, life, eventsFrom_map, hinitial, Place.run_map]

theorem consistent_map (lines : List (Line α)) :
    Consistent (lines.map (Line.map f)) ↔ Consistent lines := by
  simp only [Consistent, life_map, ne_eq, Option.map_eq_none_iff]

end Map

/-! ## What a place tells about the events -/

/-- The value that an event gives. -/
def Event.given? : Event α → Option α
  | .given a => some a
  | _ => none

section Kept

variable {a : α} {o : Origin} {n : Nat} {place last : Place α} {event : Event α}
  {events : List (Event α)}

theorem step_value (h : (Place.value a).step event = some place) : event = .renewed := by
  cases event <;> first | rfl | cases h

theorem step_table (hkept : event ≠ .renewed) (h : (Place.table o).step event = some place) :
    (∃ o, place = .table o) ∧ event.given? = none ∧ event ≠ .added := by
  cases event with
  | renewed => exact absurd rfl hkept
  | passed dotted =>
    rw [Place.step] at h
    split at h
    · cases h
    · exact ⟨⟨o, (Option.some.inj h).symm⟩, rfl, by simp⟩
  | filled dotted =>
    rw [Place.step] at h
    split at h
    · exact ⟨⟨o, (Option.some.inj h).symm⟩, rfl, by simp⟩
    · cases h
  | opened =>
    cases o <;> cases h
    exact ⟨⟨_, rfl⟩, rfl, by simp⟩
  | added => cases h
  | given b => cases h

theorem step_tables (hkept : event ≠ .renewed)
    (h : (Place.tables (n + 1)).step event = some place) :
    (∃ n, place = .tables (n + 1)) ∧ event.given? = none := by
  cases event with
  | renewed => exact absurd rfl hkept
  | passed dotted => exact ⟨⟨n, (Option.some.inj h).symm⟩, rfl⟩
  | filled dotted =>
    cases dotted with
    | false => exact ⟨⟨n, (Option.some.inj h).symm⟩, rfl⟩
    | true => cases h
  | opened => cases h
  | added => exact ⟨⟨n + 1, (Option.some.inj h).symm⟩, rfl⟩
  | given b => cases h

theorem run_value (hkept : .renewed ∉ events) (h : (Place.value a).run events = some last) :
    events = [] ∧ last = .value a := by
  cases events with
  | nil => exact ⟨rfl, (Option.some.inj h).symm⟩
  | cons event events =>
    obtain ⟨next, hstep, -⟩ := Option.bind_eq_some_iff.mp h
    exact absurd (step_value hstep ▸ List.mem_cons_self) hkept

theorem run_table (hkept : .renewed ∉ events) (h : (Place.table o).run events = some last) :
    (∃ o, last = .table o) ∧ ∀ event ∈ events, event.given? = none ∧ event ≠ .added := by
  induction events generalizing o with
  | nil => exact ⟨⟨o, (Option.some.inj h).symm⟩, by simp⟩
  | cons event events ih =>
    obtain ⟨hevent, hevents⟩ : event ≠ .renewed ∧ .renewed ∉ events := by
      simpa [not_or, eq_comm] using hkept
    obtain ⟨next, hstep, hrest⟩ := Option.bind_eq_some_iff.mp h
    obtain ⟨⟨o', rfl⟩, hfirst⟩ := step_table hevent hstep
    exact ⟨(ih hevents hrest).1, List.forall_mem_cons.mpr ⟨hfirst, (ih hevents hrest).2⟩⟩

theorem run_tables (hkept : .renewed ∉ events)
    (h : (Place.tables (n + 1)).run events = some last) :
    (∃ n, last = .tables (n + 1)) ∧ ∀ event ∈ events, event.given? = none := by
  induction events generalizing n with
  | nil => exact ⟨⟨n, (Option.some.inj h).symm⟩, by simp⟩
  | cons event events ih =>
    obtain ⟨hevent, hevents⟩ : event ≠ .renewed ∧ .renewed ∉ events := by
      simpa [not_or, eq_comm] using hkept
    obtain ⟨next, hstep, hrest⟩ := Option.bind_eq_some_iff.mp h
    obtain ⟨⟨n', rfl⟩, hfirst⟩ := step_tables hevent hstep
    exact ⟨(ih hevents hrest).1, List.forall_mem_cons.mpr ⟨hfirst, (ih hevents hrest).2⟩⟩

/-- **What stands in the end where nothing stood at first** tells what happened: nothing, a value
that was given once, or something that no value was given to; a list of tables only if a table was
added. -/
inductive Told (events : List (Event α)) : Place α → Prop where
  | vacant (h : events = []) : Told events .vacant
  | value {a : α} (h : events = [.given a]) : Told events (.value a)
  | table {o : Origin} (hne : events ≠ []) (hgiven : ∀ event ∈ events, event.given? = none)
    (hadded : .added ∉ events) : Told events (.table o)
  | tables {n : Nat} (hgiven : ∀ event ∈ events, event.given? = none) (hadded : .added ∈ events) :
    Told events (.tables (n + 1))

theorem told_of_run (hkept : .renewed ∉ events) (h : Place.vacant.run events = some last) :
    Told events last := by
  cases events with
  | nil => exact Option.some.inj h ▸ .vacant rfl
  | cons event events =>
    obtain ⟨hevent, hevents⟩ : event ≠ .renewed ∧ .renewed ∉ events := by
      simpa [not_or, eq_comm] using hkept
    obtain ⟨next, hstep, hrest⟩ := Option.bind_eq_some_iff.mp h
    -- a table comes about, by a key or by a header, and stays one
    have htable : ∀ {o : Origin}, event.given? = none → event ≠ .added → next = .table o →
        Told (event :: events) last := by
      rintro o hgiven hadded rfl
      obtain ⟨⟨o', rfl⟩, hall⟩ := run_table hevents hrest
      refine .table (List.cons_ne_nil _ _)
        (List.forall_mem_cons.mpr ⟨hgiven, fun event h => (hall event h).1⟩) ?_
      simpa [not_or, eq_comm] using ⟨hadded, fun h => (hall _ h).2 rfl⟩
    cases event with
    | renewed => exact absurd rfl hevent
    | filled dotted => cases hstep
    | passed dotted => exact htable rfl (by simp) (Option.some.inj hstep).symm
    | opened => exact htable rfl (by simp) (Option.some.inj hstep).symm
    | given a =>
      cases hstep
      obtain ⟨rfl, rfl⟩ := run_value hevents hrest
      exact .value rfl
    | added =>
      cases hstep
      obtain ⟨⟨n, rfl⟩, hall⟩ := run_tables hevents hrest
      exact .tables (List.forall_mem_cons.mpr ⟨rfl, hall⟩) List.mem_cons_self

/-- No value is given twice. -/
theorem Told.given_length_le (h : Told events place) :
    (events.filterMap Event.given?).length ≤ 1 := by
  cases h with
  | vacant h => simp [h]
  | value h => simp [h, Event.given?]
  | table _ hgiven => simp [List.filterMap_eq_nil_iff.mpr hgiven]
  | tables hgiven => simp [List.filterMap_eq_nil_iff.mpr hgiven]

/-- **Where nothing but values was given**, there is the value that was given, if there is one. -/
theorem Told.eq_of_given (h : Told events place) (hall : ∀ event ∈ events, event.given? ≠ none)
    {a? : Option α} (hgiven : events.filterMap Event.given? = a?.toList) :
    place = a?.elim .vacant .value := by
  cases h with
  | vacant h =>
    rw [h] at hgiven
    cases a? with
    | none => rfl
    | some a => cases hgiven
  | value h =>
    rw [h] at hgiven
    cases a? with
    | none => cases hgiven
    | some a => exact congrArg Place.value (List.cons.inj hgiven).1
  | table hne hnone =>
    obtain ⟨event, hevent⟩ := List.exists_mem_of_ne_nil _ hne
    exact absurd (hnone event hevent) (hall event hevent)
  | tables hnone hadded => exact absurd rfl (hall _ hadded)

end Kept

end DeflateEcho.Toml
