import Mathlib
import DeflateEcho.Proofs.Toml.WellFormed

/-!
# Proofs/Toml/Exchange — one value in the place of another

While a file is read, a value at a key only stands in the way: nothing is ever put in its place or
inside it, whichever value it is.  So if one value is **exchanged** for another at a key of the file,
each statement behind it is refused or not just as before, and the tables differ at that key only.

Every change of a table looks at one key and puts something there, most of them in its place
(`AtKey`); that it goes by the value at another key is then the law that putting at two keys
commutes.
-/

namespace DeflateEcho.Toml

/-! ## Putting twice -/

namespace Entries

variable {entries : Entries} {key : String} {node : Node}

theorem put_self (h : entries.find? key = some node) : entries.put key node = entries := by
  induction entries with
  | nil => cases h
  | cons entry entries ih =>
    rw [find?_cons] at h
    rw [put]
    split at h
    · next hkey =>
      obtain rfl := Option.some.inj h
      rw [if_pos hkey.symm, hkey]
    · next hkey => rw [if_neg (Ne.symm hkey), ih h]

theorem put_put (entries : Entries) (key : String) (node last : Node) :
    (entries.put key node).put key last = entries.put key last := by
  induction entries with
  | nil => simp [put]
  | cons entry entries ih =>
    by_cases hkey : entry.1 = key
    · simp [put, hkey]
    · simp [put, hkey, ih]

/-- What stands at a key already keeps its place. -/
theorem put_comm (h : entries.find? key = some node) {k : String} (hk : k ≠ key)
    (other last : Node) :
    (entries.put key last).put k other = (entries.put k other).put key last := by
  induction entries with
  | nil => cases h
  | cons entry entries ih =>
    rw [find?_cons] at h
    by_cases hkey : entry.1 = key
    · simp [put, hkey, hk.symm]
    · rw [if_neg (Ne.symm hkey)] at h
      by_cases hother : entry.1 = k
      · subst hother
        simp [put, hkey]
      · simp [put, hkey, hother, ih h]

/-- It does so too where something else is put at the end. -/
theorem putLast_put (h : entries.find? key = some node) {k : String} (hk : k ≠ key)
    (other last : Node) :
    (entries.put key last).putLast k other = (entries.putLast k other).put key last := by
  simp only [putLast]
  induction entries with
  | nil => cases h
  | cons entry entries ih =>
    rw [find?_cons] at h
    by_cases hkey : entry.1 = key
    · simp [put, hkey, hk.symm]
    · rw [if_neg (Ne.symm hkey)] at h
      by_cases hother : entry.1 = k
      · subst hother
        simpa [put, hkey] using ih h
      · simpa [put, hkey, hother] using ih h

theorem put_of_find?_eq_none (h : entries.find? key = none) (node : Node) :
    entries.put key node = entries ++ [(key, node)] := by
  induction entries with
  | nil => rfl
  | cons entry entries ih =>
    rw [find?_cons] at h
    split at h
    · cases h
    · next hkey => rw [put, if_neg (Ne.symm hkey), ih h, List.cons_append]

end Entries

/-! ## Changes go by a value -/

/-- **A change looks at one key**, and puts something in its place; a value is in its way. -/
structure AtKey (key : String) (change : Change) (update : Origin → Option Node → Option Node) :
    Prop where
  eq : ∀ origin entries, change origin entries =
    (update origin (entries.find? key)).map fun node => entries.put key node
  value : ∀ origin v, update origin (some (.value v)) = none

/-- **A change goes by a value** at a key, whichever it is. -/
def GoesBy (key : String) (change : Change) : Prop :=
  ∀ (origin : Origin) (entries : Entries) (v w : Value), entries.find? key = some (.value v) →
    change origin (entries.put key (.value w)) =
      (change origin entries).map (Entries.put key (.value w))

theorem AtKey.goesBy {k : String} {change : Change} {update : Origin → Option Node → Option Node}
    (h : AtKey k change update) (key : String) : GoesBy key change := by
  intro origin entries v w hfind
  rw [h.eq, h.eq, Entries.find?_put]
  by_cases hk : k = key
  · subst hk
    rw [if_pos rfl, hfind, h.value, h.value]
    rfl
  · rw [if_neg hk]
    cases update origin (entries.find? k) with
    | none => rfl
    | some node => exact congrArg some (Entries.put_comm hfind hk node _)

theorem goesBy_openTable (k key : String) : GoesBy key (openTable k) := by
  intro origin entries v w hfind
  rw [openTable.eq_def, openTable.eq_def, Entries.find?_put]
  by_cases hk : k = key
  · subst hk
    rw [if_pos rfl, hfind]
    rfl
  · have hput : ∀ node, some ((entries.put key (.value w)).putLast k node) =
        (some (entries.putLast k node)).map (Entries.put key (.value w)) := fun node =>
      congrArg some (Entries.putLast_put hfind hk node _)
    rw [if_neg hk]
    cases entries.find? k with
    | none => exact hput _
    | some node =>
      rcases node with v | ⟨_ | _ | _, inner⟩ | elements
      · rfl
      · rfl
      · exact hput _
      · rfl
      · rfl

theorem atKey_openElement (k : String) : AtKey k (openElement k) fun _ node? => match node? with
    | none => some (.tables [[]])
    | some (.tables elements) => some (.tables ([] :: elements))
    | some _ => none where
  eq _ entries := by
    rw [openElement.eq_def]
    cases entries.find? k with
    | none => rfl
    | some node => cases node <;> rfl
  value _ _ := rfl

theorem atKey_putValue (dotted : Bool) (k : String) (v : Value) :
    AtKey k (putValue dotted k v) fun origin node? =>
      if dotted ≠ (origin = .dotted) ∨ node?.isSome then none else some (.value v) where
  eq origin entries := by
    rw [putValue.eq_def]
    by_cases hdotted : (dotted = true) ≠ (origin = .dotted)
    · rw [if_pos hdotted, if_pos (.inl hdotted)]
      rfl
    · rw [if_neg hdotted]
      cases entries.find? k <;> simp [hdotted]
  value _ _ := if_pos (.inr rfl)

/-- So does a change at the end of a path, at its first key. -/
theorem atKey_changeAt (dotted : Bool) (change : Change) (k : String) (path : List String) :
    AtKey k (changeAt dotted change (k :: path)) fun _ node? => match node? with
      | none => (changeAt dotted change path (if dotted then .dotted else .implied) []).map
          (.table (if dotted then .dotted else .implied))
      | some (.value _) => none
      | some (.tables []) => none
      | some (.tables (last :: earlier)) =>
        (changeAt dotted change path .header last).map fun inner => .tables (inner :: earlier)
      | some (.table origin inner) =>
        if dotted ∧ origin = .header then none
        else (changeAt dotted change path origin inner).map (.table origin) where
  eq _ entries := by
    have hput : ∀ (inner? : Option Entries) (f : Entries → Node),
        (do let inner ← inner?; some (entries.put k (f inner))) =
          (inner?.map f).map fun node => entries.put k node := fun inner? f => by
      cases inner? <;> rfl
    rw [changeAt.eq_def]
    dsimp only
    cases entries.find? k with
    | none => exact hput _ _
    | some node =>
      rcases node with v | ⟨origin, inner⟩ | _ | ⟨last, earlier⟩
      · rfl
      · dsimp only
        split
        · rfl
        · exact hput _ _
      · rfl
      · exact hput _ _
  value _ _ := rfl

/-- **A change at the end of a path goes by a value** if the change does. -/
theorem GoesBy.changeAt {key : String} {change : Change} (h : GoesBy key change) (dotted : Bool)
    (path : List String) : GoesBy key (changeAt dotted change path) := by
  rcases path with _ | ⟨k, path⟩
  · exact h
  · exact (atKey_changeAt dotted change k path).goesBy key

theorem goesBy_assign (path : List String) (u : Value) (key : String) :
    GoesBy key (assign path u) := by
  intro origin entries v w hfind
  unfold assign
  split
  · rfl
  · exact ((atKey_putValue _ _ u).goesBy key).changeAt true _ origin entries v w hfind

theorem changeParent_put {key : String} {change : String → Change}
    (h : ∀ k, GoesBy key (change k)) (path : List String) {entries : Entries} {v : Value}
    (hfind : entries.find? key = some (.value v)) (w : Value) :
    changeParent change path (entries.put key (.value w)) =
      (changeParent change path entries).map (Entries.put key (.value w)) := by
  unfold changeParent
  split
  · rfl
  · exact (h _).changeAt false _ .header entries v w hfind

/-! ## Files -/

/-- A file while it is read, with this value at a key. -/
def Document.exchange (key : String) (w : Value) (d : Document) : Document :=
  { d with entries := d.entries.put key (.value w) }

section Exchange

variable {key : String} {d : Document} {v : Value}

/-- **A statement is carried out just as before** if one value is exchanged for another. -/
theorem Document.add_exchange (h : d.entries.find? key = some (.value v)) (w : Value)
    (s : Statement) : (d.exchange key w).add s = (d.add s).map (exchange key w) := by
  cases s with
  | tableHeader path =>
    rw [add, add, exchange, changeParent_put (fun k => goesBy_openTable k key) path h w]
    simp [Function.comp_def, exchange]
  | elementHeader path =>
    rw [add, add, exchange, changeParent_put (fun k => (atKey_openElement k).goesBy key) path h w]
    simp [Function.comp_def, exchange]
  | assignment path u =>
    rw [add, add, exchange, (goesBy_assign path u key).changeAt false d.current _ _ v w h]
    simp [Function.comp_def, exchange]

/-- The value stays. -/
theorem Document.find?_add (h : d.entries.find? key = some (.value v)) {s : Statement}
    {d' : Document} (hadd : d.add s = some d') : d'.entries.find? key = some (.value v) := by
  -- exchanging the value for itself changes nothing, now or behind the statement
  have hsame : d.exchange key v = d := by rw [exchange, Entries.put_self h]
  have hd' := add_exchange h v s
  rw [hsame, hadd] at hd'
  rw [Option.some.inj hd', exchange, Entries.find?_put, if_pos rfl]

theorem foldlM_add_exchange (h : d.entries.find? key = some (.value v)) (w : Value)
    (statements : List Statement) :
    statements.foldlM Document.add (d.exchange key w) =
      (statements.foldlM Document.add d).map (Document.exchange key w) ∧
    ∀ d', statements.foldlM Document.add d = some d' → d'.entries.find? key = some (.value v) := by
  induction statements generalizing d with
  | nil =>
    refine ⟨rfl, fun d' hd' => ?_⟩
    obtain rfl := Option.some.inj hd'
    exact h
  | cons s statements ih =>
    rw [List.foldlM_cons, List.foldlM_cons, Document.add_exchange h]
    cases hadd : d.add s with
    | none => exact ⟨rfl, fun d' hd' => by cases hd'⟩
    | some next => exact ih (Document.find?_add h hadd)

/-- A value is put at a key of the file where no header is in force. -/
theorem Document.add_assignment (hcurrent : d.current = []) (w : Value) :
    d.add (.assignment [key] w) =
      if d.entries.find? key = none then some (d.exchange key w) else none := by
  have hdotted : ¬ (false = true) ≠ (Origin.header = .dotted) := by simp
  obtain ⟨entries, _⟩ := d
  subst hcurrent
  rw [add]
  simp only [changeAt, assign, List.reverse_singleton, List.isEmpty_nil, Bool.not_true, putValue,
    List.reverse_nil, if_neg hdotted]
  cases entries.find? key <;> rfl

end Exchange

/-- A table in which only values stand. -/
def ofValues (table : List (String × Value)) : Entries :=
  table.map fun entry => (entry.1, .value entry.2)

theorem entryValues_ofValues (table : List (String × Value)) :
    Node.entryValues (ofValues table) = table := by
  induction table with
  | nil => rfl
  | cons entry table ih =>
    rw [ofValues, List.map_cons, Node.entryValues, Node.toValue]
    exact congrArg (entry :: ·) ih

theorem find?_eq_none_iff {entries : Entries} {key : String} :
    entries.find? key = none ↔ key ∉ entries.keys := by
  induction entries with
  | nil => simp [Entries.keys]
  | cons entry entries ih =>
    rw [Entries.find?_cons]
    by_cases hkey : key = entry.1 <;> simp_all [Entries.keys]

theorem foldlM_add_single {found table : List (String × Value)}
    (h : ((found ++ table).map (·.1)).Nodup) :
    (table.map fun entry => Statement.assignment [entry.1] entry.2).foldlM Document.add
      { entries := ofValues found } = some { entries := ofValues (found ++ table) } := by
  induction table generalizing found with
  | nil => simp
  | cons entry table ih =>
    have hfresh : entry.1 ∉ found.map (·.1) := by
      rw [List.map_append, List.nodup_append] at h
      exact fun hmem => h.2.2 _ hmem _ (by simp) rfl
    have hnone : (ofValues found).find? entry.1 = none := by
      rw [find?_eq_none_iff]
      simpa [ofValues, Entries.keys] using hfresh
    have hnext := @ih (found ++ [entry]) (by simpa using h)
    rw [List.append_assoc, List.singleton_append] at hnext
    rw [List.map_cons, List.foldlM_cons, Document.add_assignment rfl, if_pos hnone, ← hnext,
      Document.exchange, Entries.put_of_find?_eq_none hnone]
    simp [ofValues]

/-- **Assignments to single keys** give the values at these. -/
theorem tableOf_single {table : List (String × Value)} (h : (table.map (·.1)).Nodup) :
    tableOf (table.map fun entry => ([entry.1], entry.2)) = some table := by
  have hadd : (table.map fun entry => Statement.assignment [entry.1] entry.2).foldlM Document.add
      {} = some { entries := ofValues table } := @foldlM_add_single [] table h
  rw [tableOf, Document.ofStatements, List.map_map]
  exact (congrArg (Option.map _) hadd).trans (congrArg some (entryValues_ofValues table))

/-- Assignments put no header in force. -/
theorem current_of_assignments {statements : List Statement}
    (h : ∀ s ∈ statements, ∃ path v, s = .assignment path v) :
    SatisfiesM (fun d : Document => d.current = []) (statements.foldlM Document.add {}) :=
  List.satisfiesM_foldlM rfl fun d hd s hs => by
    obtain ⟨path, v, rfl⟩ := h s hs
    exact .map .trivial fun _ => hd

/-- The same value at each key, or the one exchanged for the other. -/
def Exchanged (key : String) (v w : Value) (entry other : String × Value) : Prop :=
  entry = other ∨ entry = (key, v) ∧ other = (key, w)

theorem forall₂_exchanged {entries : Entries} {key : String} {v : Value}
    (h : entries.find? key = some (.value v)) (w : Value) :
    List.Forall₂ (Exchanged key v w) (Node.entryValues entries)
      (Node.entryValues (entries.put key (.value w))) := by
  induction entries with
  | nil => cases h
  | cons entry entries ih =>
    rw [Entries.find?_cons] at h
    rw [Entries.put]
    split at h
    · next hkey =>
      have hvalue : entry.2.toValue = v := by rw [Option.some.inj h, Node.toValue]
      rw [if_pos hkey.symm, Node.entryValues, Node.entryValues, hvalue, ← hkey, Node.toValue]
      exact .cons (.inr ⟨rfl, rfl⟩) (List.forall₂_same.mpr fun _ _ => .inl rfl)
    · next hkey =>
      rw [if_neg (Ne.symm hkey), Node.entryValues, Node.entryValues]
      exact .cons (.inl rfl) (ih h)

/-- **Where one value is assigned in the place of another**, both files are refused, or they give the
same but for the two values. -/
theorem ofStatements_exchange {before : List Statement}
    (hbefore : ∀ s ∈ before, ∃ path v, s = .assignment path v) (key : String) (v w : Value)
    (behind : List Statement) :
    Option.Rel (List.Forall₂ (Exchanged key v w))
      (Document.ofStatements (before ++ .assignment [key] v :: behind))
      (Document.ofStatements (before ++ .assignment [key] w :: behind)) := by
  simp only [Document.ofStatements, List.foldlM_append, List.foldlM_cons]
  cases hd : before.foldlM Document.add {} with
  | none => exact .none
  | some d =>
    have hcurrent := SatisfiesM_Option_eq.mp (current_of_assignments hbefore) d hd
    change Option.Rel _
      (((d.add (.assignment [key] v)).bind fun d => behind.foldlM Document.add d).map _)
      (((d.add (.assignment [key] w)).bind fun d => behind.foldlM Document.add d).map _)
    rw [Document.add_assignment hcurrent, Document.add_assignment hcurrent]
    split
    · have hfind : (d.exchange key v).entries.find? key = some (.value v) := by
        rw [Document.exchange, Entries.find?_put, if_pos rfl]
      have htwice : (d.exchange key v).exchange key w = d.exchange key w := by
        rw [Document.exchange, Document.exchange, Entries.put_put]
        rfl
      obtain ⟨heq, hstays⟩ := foldlM_add_exchange hfind w behind
      rw [htwice] at heq
      rw [Option.bind_some, Option.bind_some, heq]
      cases hlast : behind.foldlM Document.add (d.exchange key v) with
      | none => exact .none
      | some last => exact .some (forall₂_exchanged (hstays last hlast) w)
    · exact .none

theorem read_assignment {t : Term} {v : Value} (key : String)
    (h : t.read (maxDepth - 1) = some v) :
    (Line.assignment [key] t).read = some (.assignment [key] v) := by
  have hshort : [key].length < maxDepth := by simp [maxDepth]
  rw [Line.read, readEntry, if_pos hshort, h]
  rfl

/-- **So it is with the lines of a file**, where no header stands before. -/
theorem readFile_exchange {before : List (Line Term)}
    (hbefore : ∀ line ∈ before, line.headed = none) (key : String) {t u : Term} {v w : Value}
    (ht : t.read (maxDepth - 1) = some v) (hu : u.read (maxDepth - 1) = some w)
    (behind : List (Line Term)) :
    Option.Rel (List.Forall₂ (Exchanged key v w))
      (readFile (before ++ .assignment [key] t :: behind))
      (readFile (before ++ .assignment [key] u :: behind)) := by
  simp only [readFile, List.mapM_append, List.mapM_cons, read_assignment key ht,
    read_assignment key hu]
  cases hstatements : before.mapM Line.read with
  | none => exact .none
  | some statements =>
    cases behind.mapM Line.read with
    | none => exact .none
    | some rest =>
      refine ofStatements_exchange (fun s hs => ?_) key v w rest
      obtain ⟨rfl, -⟩ := of_mapM (fun line s h => of_lineRead h) hstatements
      obtain ⟨line, hline, rfl⟩ := List.mem_map.mp hs
      cases line with
      | table => exact absurd (hbefore _ hline) (by simp [Line.headed])
      | element => exact absurd (hbefore _ hline) (by simp [Line.headed])
      | assignment path t => exact ⟨_, _, rfl⟩

end DeflateEcho.Toml
