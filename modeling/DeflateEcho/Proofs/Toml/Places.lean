import Mathlib
import DeflateEcho.Proofs.Toml.Grammar
import DeflateEcho.Proofs.Toml.Growth

/-!
# Proofs/Toml/Places — what happens at one address while a file is read

Whether the lines of a file go together is a question about each **address** by itself: a dotted key
or a header that names something inside a table, a value given there, a header that opens it.  So
`Place` is an automaton for one address, and `Consistent` says that no line does anything at an
address that is not allowed there.

Reading a file goes the other way round, with one change of the whole tree of tables after the
other.  `Acts` ties the two together: a change does at each address what its events say, and where
it is refused some event is.  From one change, along a path, to a whole file (`foldlM_add_acts`).
-/

namespace DeflateEcho.Toml

variable {α β : Type}

/-! ## The automaton of an address -/

/-- What stands at an address. -/
inductive Place (α : Type) where
  | vacant
  | value (a : α)
  | table (origin : Origin)
  /-- A list of so many tables. -/
  | tables (count : Nat)
  deriving DecidableEq, Repr

/-- What a line does at an address. -/
inductive Event (α : Type) where
  /-- A header, or a dotted key, names something inside. -/
  | passed (dotted : Bool)
  /-- A key alone, or the last one of a dotted key, gets a value inside. -/
  | filled (dotted : Bool)
  /-- A header opens a table here. -/
  | opened
  /-- A header adds a table to the list here. -/
  | added
  /-- A header adds a table to a list further up, so that nothing stands here any more. -/
  | renewed
  | given (a : α)
  deriving DecidableEq, Repr

/-- **What an event makes of a place**, if it is allowed there.  Dotted keys name nothing inside a
table that a header opened, and put values only into tables that dotted keys made; a header opens
a table once, and not one that dotted keys made; a value is given once. -/
def Place.step : Place α → Event α → Option (Place α)
  | .vacant, .passed dotted => some (.table (if dotted then .dotted else .implied))
  | .table origin, .passed dotted =>
    if dotted ∧ origin = .header then none else some (.table origin)
  | .tables (count + 1), .passed _ => some (.tables (count + 1))
  | .table origin, .filled dotted =>
    if dotted ↔ origin = .dotted then some (.table origin) else none
  | .tables (count + 1), .filled dotted => if dotted then none else some (.tables (count + 1))
  | .vacant, .opened => some (.table .header)
  | .table .implied, .opened => some (.table .header)
  | .vacant, .added => some (.tables 1)
  | .tables count, .added => some (.tables (count + 1))
  | _, .renewed => some .vacant
  | .vacant, .given a => some (.value a)
  | _, _ => none

/-- Several events, one after the other. -/
def Place.run (place : Place α) (events : List (Event α)) : Option (Place α) :=
  events.foldlM Place.step place

@[simp] theorem Place.run_nil (place : Place α) : place.run [] = some place := rfl

@[simp] theorem Place.run_cons (place : Place α) (event : Event α) (events : List (Event α)) :
    place.run (event :: events) = (place.step event).bind fun place => place.run events := rfl

theorem Place.run_append (place : Place α) (first second : List (Event α)) :
    place.run (first ++ second) = (place.run first).bind fun place => place.run second :=
  List.foldlM_append

/-! ## The events of a line -/

/-- The events at each address where a path is gone along and something happens at its end; there,
addresses count from the end of the path. -/
def along (dotted : Bool) (events : List String → List (Event α)) :
    (path address : List String) → List (Event α)
  | [], a => events a
  | _ :: _, [] => []
  | key :: path, k :: a =>
    if k = key then (if a = [] then [.passed dotted] else []) ++ along dotted events path a else []

/-- What opening a table at these keys does, counted from the table around it. -/
def openedAt (keys : List String) (a : List String) : List (Event α) :=
  if a = keys then [.opened] else []

/-- What adding a table to the list at these keys does. -/
def addedAt (keys : List String) (a : List String) : List (Event α) :=
  if a = keys then [.added] else if keys <+: a then [.renewed] else []

/-- What giving a value at these keys does. -/
def givenAt (dotted : Bool) (keys : List String) (v : α) (a : List String) : List (Event α) :=
  (if a = [] then [.filled dotted] else []) ++ (if a = keys then [.given v] else [])

theorem openedAt_self (keys : List String) : openedAt (α := α) keys keys = [.opened] := if_pos rfl

theorem addedAt_self (keys : List String) : addedAt (α := α) keys keys = [.added] := if_pos rfl

theorem givenAt_self (dotted : Bool) (key : String) (v : α) :
    givenAt dotted [key] v [key] = [.given v] := by simp [givenAt]

/-- The last key of a path. -/
def lastKey (path : List String) : List String := path.getLast?.toList

/-- **What a line does at each address**, where a header is in force. -/
def Line.events (header : List String) : Line α → (address : List String) → List (Event α)
  | .table path => along false (openedAt (lastKey path)) path.dropLast
  | .element path => along false (addedAt (lastKey path)) path.dropLast
  | .assignment path v =>
    along false (along true (givenAt (1 < path.length) (lastKey path) v) path.dropLast) header

/-- The header in force behind a line. -/
def Line.header (current : List String) : Line α → List String
  | .table path => path
  | .element path => path
  | .assignment _ _ => current

/-- **What lines do at each address**, where a header is in force before them. -/
def eventsFrom (header : List String) : List (Line α) → (address : List String) → List (Event α)
  | [], _ => []
  | line :: lines, a => line.events header a ++ eventsFrom (line.header header) lines a

/-- What stands at an address before the first line: the whole file is a table. -/
def Place.initial (a : List String) : Place α := if a = [] then .table .header else .vacant

/-- **What stands at an address** behind all lines. -/
def life (a : List String) (lines : List (Line α)) : Option (Place α) :=
  (Place.initial a).run (eventsFrom [] lines a)

/-- **No line does what is not allowed**, at any address. -/
def Consistent (lines : List (Line α)) : Prop := ∀ a, life a lines ≠ none

/-! ## The places of a tree -/

/-- The table that keys behind a node lead into; of a list of tables it is the last one. -/
def Node.inside : Node → Option (Origin × Entries)
  | .value _ => none
  | .table origin entries => some (origin, entries)
  | .tables [] => none
  | .tables (last :: _) => some (.header, last)

/-- A node with another table inside. -/
def Node.refill (entries : Entries) : Node → Node
  | .value v => .value v
  | .table origin _ => .table origin entries
  | .tables [] => .tables []
  | .tables (_ :: earlier) => .tables (entries :: earlier)

def Node.place : Node → Place Value
  | .value v => .value v
  | .table origin _ => .table origin
  | .tables elements => .tables elements.length

/-- **The place at an address** behind a node. -/
def view : Option Node → List String → Place Value
  | none, _ => .vacant
  | some node, [] => node.place
  | some node, key :: a => view (node.inside.bind fun inner => inner.2.find? key) a

@[simp] theorem view_none (a : List String) : view none a = .vacant := by cases a <;> rfl

@[simp] theorem view_nil (node : Node) : view (some node) [] = node.place := rfl

theorem view_cons {node : Node} {origin : Origin} {entries : Entries}
    (h : node.inside = some (origin, entries)) (key : String) (a : List String) :
    view (some node) (key :: a) = view (entries.find? key) a := by
  rw [view, h]
  rfl

theorem Node.place_refill (node : Node) (entries : Entries) :
    (node.refill entries).place = node.place := by
  rcases node with v | ⟨origin, inner⟩ | _ | ⟨last, earlier⟩ <;> rfl

theorem Node.inside_refill {node : Node} {origin : Origin} {entries : Entries}
    (h : node.inside = some (origin, entries)) (entries' : Entries) :
    (node.refill entries').inside = some (origin, entries') := by
  rcases node with v | ⟨origin, inner⟩ | _ | ⟨last, earlier⟩ <;> cases h <;> rfl

theorem view_refill_cons {node : Node} {origin : Origin} {entries : Entries}
    (h : node.inside = some (origin, entries)) (entries' : Entries) (key : String)
    (a : List String) :
    view (some (node.refill entries')) (key :: a) = view (entries'.find? key) a :=
  view_cons (Node.inside_refill h entries') key a

/-! ## Changes act at addresses -/

/-- **A change does at each address what its events say**, and where it is refused, some event is.
The addresses count from the node in whose table the change is made. -/
def Acts (change : Change) (events : List String → List (Event Value)) : Prop :=
  ∀ (node : Node) (origin : Origin) (entries : Entries), node.inside = some (origin, entries) →
    (∀ entries', change origin entries = some entries' → ∀ a,
      (view (some node) a).run (events a) = some (view (some (node.refill entries')) a)) ∧
    (change origin entries = none → ∃ a, (view (some node) a).run (events a) = none)

/-- Going through a key: what was not there comes about, a value is in the way, and the change goes
on in the table inside. -/
theorem changeAt_cons (dotted : Bool) (change : Change) (key : String) (path : List String)
    (origin : Origin) (entries : Entries) :
    (∃ child o inner, (view (entries.find? key) []).step (.passed dotted) = some child.place ∧
      child.inside = some (o, inner) ∧
      (∀ k a, view (entries.find? key) (k :: a) = view (some child) (k :: a)) ∧
      changeAt dotted change (key :: path) origin entries =
        (changeAt dotted change path o inner).map fun inner =>
          entries.put key (child.refill inner)) ∨
    ((view (entries.find? key) []).step (.passed dotted) = none ∧
      changeAt dotted change (key :: path) origin entries = none) := by
  cases hfind : entries.find? key with
  | none =>
    left
    refine ⟨.table (if dotted then .dotted else .implied) [], _, [], rfl, rfl, fun k a => ?_, ?_⟩
    · simp [view, Node.inside]
    · simp only [changeAt, hfind]
      cases changeAt dotted change path (if dotted then .dotted else .implied) [] <;> rfl
  | some node =>
    rcases node with v | ⟨o, inner⟩ | _ | ⟨last, earlier⟩
    · exact .inr ⟨rfl, by simp only [changeAt, hfind]⟩
    · by_cases hrefused : dotted ∧ o = .header
      · refine .inr ⟨?_, ?_⟩
        · simp [Node.place, Place.step, hrefused]
        · simp [changeAt, hfind, hrefused]
      · refine .inl ⟨.table o inner, o, inner, ?_, rfl, fun _ _ => rfl, ?_⟩
        · simp only [view_nil, Node.place, Place.step, if_neg hrefused]
        · simp only [changeAt, hfind, if_neg hrefused]
          cases changeAt dotted change path o inner <;> rfl
    · exact .inr ⟨rfl, by simp only [changeAt, hfind]⟩
    · refine .inl ⟨.tables (last :: earlier), .header, last, rfl, rfl, fun _ _ => rfl, ?_⟩
      simp only [changeAt, hfind]
      cases changeAt dotted change path .header last <;> rfl

variable {change : Change} {events : List String → List (Event Value)}

/-- **A change at the end of a path** does, along the path, what its keys do. -/
theorem Acts.changeAt (h : Acts change events) (dotted : Bool) (path : List String) :
    Acts (changeAt dotted change path) (along dotted events path) := by
  induction path with
  | nil => exact h
  | cons key path ih =>
    intro node origin entries hnode
    obtain ⟨child, o, inner, hstep, hchild, hsame, hchange⟩ | ⟨hstep, hchange⟩ :=
      changeAt_cons dotted change key path origin entries
    · have hinner := ih child o inner hchild
      -- what happens behind the key happens at the child, once the key has been passed
      have hbehind : ∀ a,
          (view (some node) (key :: a)).run (along dotted events (key :: path) (key :: a)) =
            (view (some child) a).run (along dotted events path a) := by
        intro a
        rw [view_cons hnode, along, if_pos rfl]
        cases a with
        | nil => simp [hstep]
        | cons k a => simp [hsame]
      rw [hchange]
      cases hc : DeflateEcho.Toml.changeAt dotted change path o inner with
      | none =>
        obtain ⟨a, ha⟩ := hinner.2 hc
        exact ⟨by simp, fun _ => ⟨key :: a, (hbehind a).trans ha⟩⟩
      | some inner' =>
        refine ⟨fun entries' hentries a => ?_, by simp⟩
        obtain rfl := Option.some.inj hentries
        cases a with
        | nil => simp [along, Node.place_refill]
        | cons k a =>
          rw [view_refill_cons hnode, Entries.find?_put]
          split
          · next hk =>
            subst hk
            exact (hbehind a).trans (hinner.1 _ hc a)
          · next hk =>
            rw [view_cons hnode, along, if_neg hk]
            rfl
    · rw [hchange]
      refine ⟨by simp, fun _ => ⟨[key], ?_⟩⟩
      rw [view_cons hnode, along, if_pos rfl]
      simp [hstep]

/-! ## The three kinds of changes -/

/-- What is left to show of a change that leaves all keys but one as they are. -/
theorem run_put {node new : Node} {origin : Origin} {entries entries' : Entries}
    (hnode : node.inside = some (origin, entries)) {key : String}
    (hput : ∀ k, entries'.find? k = if k = key then some new else entries.find? k)
    (hroot : node.place.run (events []) = some node.place)
    (hkey : ∀ a, (view (entries.find? key) a).run (events (key :: a)) = some (view (some new) a))
    (hother : ∀ k a, k ≠ key → events (k :: a) = []) (a : List String) :
    (view (some node) a).run (events a) = some (view (some (node.refill entries')) a) := by
  cases a with
  | nil => simpa [Node.place_refill] using hroot
  | cons k a =>
    rw [view_cons hnode, view_refill_cons hnode, hput]
    split
    · next hk => exact hk ▸ hkey a
    · next hk =>
      rw [hother k a hk]
      rfl

/-- A change of a table that puts one thing at one key, wherever this then stands. -/
theorem acts_of_put {node new : Node} {origin : Origin} {entries entries' : Entries}
    (hnode : node.inside = some (origin, entries)) {key : String}
    (hput : ∀ k, entries'.find? k = if k = key then some new else entries.find? k)
    (hroot : node.place.run (events []) = some node.place)
    (hkey : ∀ a, (view (entries.find? key) a).run (events (key :: a)) = some (view (some new) a))
    (hother : ∀ k a, k ≠ key → events (k :: a) = []) {result : Option Entries}
    (hresult : result = some entries') :
    (∀ entries', result = some entries' → ∀ a,
      (view (some node) a).run (events a) = some (view (some (node.refill entries')) a)) ∧
    (result = none → ∃ a, (view (some node) a).run (events a) = none) := by
  subst hresult
  refine ⟨fun entries' hentries a => ?_, by simp⟩
  obtain rfl := Option.some.inj hentries
  exact run_put hnode hput hroot hkey hother a

/-- A change of a table that is refused at one address. -/
theorem acts_of_refused {node : Node} {a : List String}
    (h : (view (some node) a).run (events a) = none) {result : Option Entries}
    (hresult : result = none) :
    (∀ entries', result = some entries' → ∀ a,
      (view (some node) a).run (events a) = some (view (some (node.refill entries')) a)) ∧
    (result = none → ∃ a, (view (some node) a).run (events a) = none) := by
  subst hresult
  exact ⟨by simp, fun _ => ⟨a, h⟩⟩

theorem acts_openTable (key : String) : Acts (openTable key) (openedAt [key]) := by
  intro node origin entries hnode
  have hroot : node.place.run (openedAt [key] []) = some node.place := by simp [openedAt]
  have hother : ∀ k a, k ≠ key → openedAt (α := Value) [key] (k :: a) = [] := fun k a hk => by
    simp [openedAt, hk]
  have hat : (view (some node) [key]).run (openedAt [key] [key]) =
      (view (entries.find? key) []).run [.opened] := by rw [view_cons hnode, openedAt_self]
  cases hfind : entries.find? key with
  | none =>
    refine acts_of_put hnode (entries.find?_putLast key _) hroot (fun a => ?_) hother
      (by simp only [openTable, hfind]; rfl)
    rw [hfind]
    cases a with
    | nil => rw [openedAt_self]; rfl
    | cons k a => simp [openedAt, view, Node.inside]
  | some other =>
    rw [hfind] at hat
    rcases other with v | ⟨_ | _ | _, inner⟩ | elements
    · exact acts_of_refused (hat.trans rfl) (by simp only [openTable, hfind])
    · exact acts_of_refused (hat.trans rfl) (by simp only [openTable, hfind])
    · refine acts_of_put hnode (entries.find?_putLast key _) hroot (fun a => ?_) hother
        (by simp only [openTable, hfind]; rfl)
      rw [hfind]
      cases a with
      | nil => rw [openedAt_self]; rfl
      | cons k a => simp [openedAt, view, Node.inside]
    · exact acts_of_refused (hat.trans rfl) (by simp only [openTable, hfind])
    · exact acts_of_refused (hat.trans (by cases elements <;> rfl)) (by simp only [openTable, hfind])

theorem renewed_step (place : Place α) : place.step .renewed = some .vacant := by
  rcases place with _ | _ | _ | _ | _ <;> rfl

theorem acts_openElement (key : String) : Acts (openElement key) (addedAt [key]) := by
  intro node origin entries hnode
  have hroot : node.place.run (addedAt [key] []) = some node.place := by simp [addedAt]
  have hother : ∀ k a, k ≠ key → addedAt (α := Value) [key] (k :: a) = [] := fun k a hk => by
    simp [addedAt, hk, Ne.symm hk]
  have hat : (view (some node) [key]).run (addedAt [key] [key]) =
      (view (entries.find? key) []).run [.added] := by rw [view_cons hnode, addedAt_self]
  cases hfind : entries.find? key with
  | none =>
    refine acts_of_put hnode (entries.find?_put key _) hroot (fun a => ?_) hother
      (by simp only [openElement, hfind]; rfl)
    rw [hfind]
    cases a with
    | nil => rw [addedAt_self]; rfl
    | cons k a => simp [addedAt, renewed_step, view, Node.inside]
  | some other =>
    rw [hfind] at hat
    rcases other with v | ⟨o, inner⟩ | elements
    · exact acts_of_refused (hat.trans rfl) (by simp only [openElement, hfind])
    · exact acts_of_refused (hat.trans rfl) (by simp only [openElement, hfind])
    · refine acts_of_put hnode (entries.find?_put key _) hroot (fun a => ?_) hother
        (by simp only [openElement, hfind]; rfl)
      rw [hfind]
      cases a with
      | nil =>
        rw [addedAt_self]
        cases elements <;> rfl
      | cons k a => simp [addedAt, renewed_step, view, Node.inside]

theorem acts_putValue (dotted : Bool) (key : String) (v : Value) :
    Acts (putValue dotted key v) (givenAt dotted [key] v) := by
  intro node origin entries hnode
  have hfilled : node.place.run [.filled dotted] =
      if dotted ↔ origin = .dotted then some node.place else none := by
    rcases node with w | ⟨o, inner⟩ | _ | ⟨last, earlier⟩ <;> cases hnode
    · simp only [Place.run_cons, Node.place, Place.step]
      split <;> rfl
    · cases dotted <;> rfl
  by_cases hallowed : dotted ↔ origin = .dotted
  · rw [if_pos hallowed] at hfilled
    have hdotted : ¬ ((dotted = true) ≠ (origin = .dotted)) := not_not.mpr (propext hallowed)
    cases hfind : entries.find? key with
    | none =>
      have hput : putValue dotted key v origin entries = some (entries.put key (.value v)) := by
        rw [putValue, if_neg hdotted, hfind]
      have hother : ∀ k a, k ≠ key → givenAt dotted [key] v (k :: a) = [] := fun k a hk => by
        simp [givenAt, hk]
      refine acts_of_put hnode (entries.find?_put key _) (by simpa [givenAt] using hfilled)
        (fun a => ?_) hother hput
      rw [hfind]
      cases a with
      | nil => rw [givenAt_self]; rfl
      | cons k a => simp [givenAt, view, Node.inside]
    | some other =>
      have hput : putValue dotted key v origin entries = none := by
        rw [putValue, if_neg hdotted, hfind]
      refine acts_of_refused (a := [key]) ?_ hput
      rw [view_cons hnode, hfind, givenAt_self]
      rcases other with w | ⟨o, inner⟩ | _ | ⟨last, earlier⟩ <;> rfl
  · rw [if_neg hallowed] at hfilled
    exact acts_of_refused (a := []) (by simpa [givenAt] using hfilled)
      (if_pos fun h => hallowed (iff_of_eq h))

/-! ## Files -/

/-- A statement as a line. -/
def Statement.line : Statement → Line Value
  | .tableHeader path => .table path
  | .elementHeader path => .element path
  | .assignment path v => .assignment path v

/-- The node that the whole file is. -/
def Document.root (d : Document) : Option Node := some (.table .header d.entries)

theorem changeParent_concat (change : String → Change) (tables : List String) (key : String)
    (entries : Entries) :
    changeParent change (tables ++ [key]) entries =
      changeAt false (change key) tables .header entries := by
  simp [changeParent]

theorem acts_assign (path : List String) (v : Value) :
    Acts (assign path v)
      (along true (givenAt (1 < path.length) (lastKey path) v) path.dropLast) := by
  obtain rfl | ⟨tables, key, rfl⟩ := path.eq_nil_or_concat'
  · intro node origin entries hnode
    refine acts_of_refused (a := []) ?_ rfl
    rcases node with w | ⟨o, inner⟩ | _ | ⟨last, earlier⟩ <;> cases hnode
    · cases origin <;> rfl
    · rfl
  · have hdotted : decide (1 < (tables ++ [key]).length) = !tables.isEmpty := by
      cases tables <;> simp
    have hassign : assign (tables ++ [key]) v =
        changeAt true (putValue (!tables.isEmpty) key v) tables := by
      funext origin entries
      simp [assign]
    rw [hdotted, hassign, List.dropLast_concat, lastKey, List.getLast?_concat]
    exact (acts_putValue _ key v).changeAt true tables

/-- A change of the last table on a path, in a whole file. -/
theorem changeParent_acts {change : String → Change}
    {happens : List String → List String → List (Event Value)}
    (hacts : ∀ key, Acts (change key) (happens [key]))
    (hnil : (Place.table .header).run (happens [] []) = none) (d : Document) (path : List String) :
    (∀ entries, changeParent change path d.entries = some entries → ∀ a, (view d.root a).run
        (along false (happens (lastKey path)) path.dropLast a) =
          some (view (Document.root ⟨entries, path⟩) a)) ∧
    (changeParent change path d.entries = none → ∃ a, (view d.root a).run
        (along false (happens (lastKey path)) path.dropLast a) = none) := by
  obtain rfl | ⟨tables, key, rfl⟩ := path.eq_nil_or_concat'
  · have hrefused : (view (some (.table .header d.entries)) []).run
        (along false (happens (lastKey [])) [] []) = none := hnil
    exact acts_of_refused hrefused rfl
  · rw [changeParent_concat, List.dropLast_concat, lastKey, List.getLast?_concat]
    exact (hacts key).changeAt false tables (.table .header d.entries) .header d.entries rfl

/-- **A statement does at each address what its events say.** -/
theorem Document.add_acts (d : Document) (s : Statement) :
    (∀ d', d.add s = some d' → d'.current = s.line.header d.current ∧
      ∀ a, (view d.root a).run (s.line.events d.current a) = some (view d'.root a)) ∧
    (d.add s = none → ∃ a, (view d.root a).run (s.line.events d.current a) = none) := by
  -- each statement changes the tables, and then tells which header is in force
  have hmap : ∀ {result : Option Entries} {current : List String}
      {events : List String → List (Event Value)},
      ((∀ entries, result = some entries → ∀ a,
          (view d.root a).run (events a) = some (view (Document.root ⟨entries, current⟩) a)) ∧
        (result = none → ∃ a, (view d.root a).run (events a) = none)) →
      (∀ d', (result.map fun entries => (⟨entries, current⟩ : Document)) = some d' →
        d'.current = current ∧ ∀ a, (view d.root a).run (events a) = some (view d'.root a)) ∧
      ((result.map fun entries => (⟨entries, current⟩ : Document)) = none →
        ∃ a, (view d.root a).run (events a) = none) := by
    intro result current events h
    cases result with
    | none => exact ⟨by simp, fun _ => h.2 rfl⟩
    | some entries =>
      refine ⟨fun d' hd' => ?_, by simp⟩
      obtain rfl := Option.some.inj hd'
      exact ⟨rfl, h.1 entries rfl⟩
  cases s with
  | tableHeader path => exact hmap (changeParent_acts acts_openTable rfl d path)
  | elementHeader path => exact hmap (changeParent_acts acts_openElement rfl d path)
  | assignment path v =>
    exact hmap ((acts_assign path v).changeAt false d.current (.table .header d.entries)
      .header d.entries rfl)

theorem foldlM_add_acts (statements : List Statement) (d : Document) :
    (∀ d', statements.foldlM Document.add d = some d' → ∀ a, (view d.root a).run
      (eventsFrom d.current (statements.map Statement.line) a) = some (view d'.root a)) ∧
    (statements.foldlM Document.add d = none → ∃ a, (view d.root a).run
      (eventsFrom d.current (statements.map Statement.line) a) = none) := by
  induction statements generalizing d with
  | nil => exact ⟨fun d' hd' a => congrArg (fun d => some (view (Document.root d) a))
      (Option.some.inj hd'), fun h => absurd h (by simp)⟩
  | cons s statements ih =>
    rw [List.foldlM_cons]
    cases hd : d.add s with
    | none =>
      obtain ⟨a, ha⟩ := (d.add_acts s).2 hd
      refine ⟨by simp, fun _ => ⟨a, ?_⟩⟩
      rw [List.map_cons, eventsFrom, Place.run_append, ha]
      rfl
    | some next =>
      obtain ⟨hheader, hview⟩ := (d.add_acts s).1 next hd
      have hstep : ∀ a, (view d.root a).run
          (eventsFrom d.current ((s :: statements).map Statement.line) a) =
            (view next.root a).run (eventsFrom next.current (statements.map Statement.line) a) := by
        intro a
        rw [List.map_cons, eventsFrom, Place.run_append, hview, Option.bind_some, hheader]
      simp only [hstep]
      exact ih next

/-- **Reading a file does at each address what its lines say there**, and fails just where some
line does what is not allowed. -/
theorem life_statements (statements : List Statement) :
    (∀ d, statements.foldlM Document.add {} = some d → ∀ a,
      life a (statements.map Statement.line) = some (view d.root a)) ∧
    (statements.foldlM Document.add {} = none → ∃ a,
      life a (statements.map Statement.line) = none) := by
  have hinitial : ∀ a, view (Document.root {}) a = .initial a := fun a => by
    cases a with
    | nil => rfl
    | cons key a => simp [Document.root, view, Node.inside, Place.initial]
  have hacts := foldlM_add_acts statements {}
  simp only [hinitial] at hacts
  exact hacts

/-- **Statements give a table just if they go together.** -/
theorem consistent_iff (statements : List Statement) :
    Consistent (statements.map Statement.line) ↔ Document.ofStatements statements ≠ none := by
  obtain ⟨hsome, hnone⟩ := life_statements statements
  rw [Document.ofStatements]
  cases hd : statements.foldlM Document.add {} with
  | none =>
    obtain ⟨a, ha⟩ := hnone hd
    simpa [Consistent] using ⟨a, ha⟩
  | some d => simp [Consistent, hsome d hd]

end DeflateEcho.Toml
